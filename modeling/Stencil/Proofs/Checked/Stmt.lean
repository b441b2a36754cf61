/-
  Stmt — a machine reads statements as they are read from a feed.

  A statement begins with a keyword, and what belongs to it is read by one of a few readers; each of them follows
  itself, and what it gives has the parts that it has read.
-/
import Stencil.Proofs.Checked.Expr
import Stencil.Proofs.Checked.Pattern
import Stencil.Reader.Stmt

namespace Stencil.Checked.Follows

open Reader (next)

variable [Letters] {d : Delims} {source : List Char} {t : Frame} {k limit : Nat} {given : List Part} {α : Type}

/-- What stands behind a token, if the token does. -/
theorem after? {p : Program d source α} {q : Reader α} {f : α → List Part} {token : Token}
    (ht : token.isClosing = false) (hp : Follows t k [] p q f) :
    Follows t k given (Reader.after? token p) (Reader.after? token q) fun a => a.toList.flatMap f := by
  refine (eats ht).bind fun b => .ite (fun _ => ?_) fun _ => give (List.forall_mem_nil _)
  refine hp.of_nil.map fun a => give fun part hpart => .inl (List.mem_append_left _ ?_)
  rwa [← List.flatMap_singleton f a]

theorem cond :
    Follows t 0 given (Reader.cond limit : Program d source Cond) (Reader.cond limit) Cond.parts := by
  refine (eats rfl).bind fun b => .ite (fun _ => ?_) fun _ => ?_
  · exact pattern.bind fun p => (expect rfl).bind fun _ => expr.bind fun x => give (by simp [Cond.parts])
  · exact expr.bind fun x => give (by simp [Cond.parts])

theorem elseBranch :
    Follows t 0 given (Reader.elseBranch limit : Program d source StmtKind) (Reader.elseBranch limit)
      StmtKind.parts := by
  refine (after? rfl cond).bind fun c => ?_
  cases c with
  | none => exact give (List.forall_mem_nil _)
  | some c =>
    exact give fun part hpart => .inl (List.mem_append_left _ (List.mem_flatMap.2 ⟨c, List.mem_singleton_self c, hpart⟩))

theorem param :
    Follows t 0 given (Reader.param limit : Program d source Param) (Reader.param limit) Param.parts :=
  ident.bind fun _ => (after? rfl expr).bind fun _ =>
    give (List.forall_mem_cons.2 ⟨.inr rfl, fun _ hp => .inl (mem_items hp)⟩)

theorem assign (word : LetWord) :
    Follows t 0 given (Reader.assign limit word : Program d source StmtKind) (Reader.assign limit word)
      StmtKind.parts :=
  (eats rfl).bind fun _ => pattern.bind fun _ => (after? rfl expr).bind fun _ =>
    give (List.forall_mem_cons.2 ⟨.inl (by simp), fun _ hp => .inl (mem_items hp)⟩)

theorem forLoop :
    Follows t 0 given (Reader.forLoop limit : Program d source StmtKind) (Reader.forLoop limit) StmtKind.parts :=
  pattern.bind fun _ => (expect rfl).bind fun _ => expr.bind fun _ => (after? rfl expr).bind fun _ =>
    give (List.forall_mem_cons.2 ⟨.inl (by simp), List.forall_mem_cons.2
      ⟨.inl (by simp), fun _ hp => .inl (mem_items hp)⟩⟩)

theorem importAs :
    Follows t k given (Reader.importAs : Program d source StmtKind) Reader.importAs StmtKind.parts :=
  textLit.bind fun _ => (expect rfl).bind fun _ => ident.bind fun _ => give (by simp [StmtKind.parts])

theorem macroDef :
    Follows t 0 given (Reader.macroDef limit : Program d source StmtKind) (Reader.macroDef limit) StmtKind.parts :=
  ident.bind fun _ => (expect rfl).bind fun _ => (param.seq rfl).bind fun _ =>
    give (List.forall_mem_cons.2 ⟨.inr rfl, fun _ hp => .inl (List.mem_append_left _ hp)⟩)

theorem callBlock :
    Follows t 0 given (Reader.callBlock limit : Program d source StmtKind) (Reader.callBlock limit)
      StmtKind.parts := by
  refine (after? rfl (ident.seq rfl)).bind fun bindings => expr.bind fun call => .ite (fun _ => ?_) fun _ => ?_
  · refine give fun part hpart => ?_
    rcases List.mem_append.1 hpart with hname | hcall
    · obtain ⟨name, -, rfl⟩ := List.mem_map.1 hname
      exact .inr rfl
    · exact .inl (List.mem_append_left _ hcall)
  · exact peek_bind fun m feed hlive _ hstop => .unexpected hlive.lost hstop

theorem filterBlock :
    Follows t 0 given (Reader.filterBlock limit : Program d source StmtKind) (Reader.filterBlock limit)
      StmtKind.parts :=
  (filter expr).bind fun _ => (filter? expr).many.bind fun _ =>
    give (List.forall_mem_cons.2 ⟨.inl (by simp), fun _ hp => .inl (mem_items hp)⟩)

/-- A keyword begins a statement for the machine where it does for a reader, and what belongs to it is read alike. -/
theorem stmtKind? (w : Keyword) :
    Option.Rel (fun (p : Program d source StmtKind) q => Follows t 0 given p q StmtKind.parts)
      (Reader.stmtKind? limit w) (Reader.stmtKind? limit w) := by
  cases w with
  | blockKw => exact .some (ident.map fun _ => give_left rfl)
  | endBlock => exact .some (ident?.map fun _ => give_left rfl)
  | extendsKw => exact .some (textLit.map fun _ => give_left rfl)
  | includeKw => exact .some (textLit.map fun _ => give_left rfl)
  | importKw => exact .some importAs
  | letKw => exact .some (assign .letWord)
  | setKw => exact .some (assign .setWord)
  | forKw => exact .some forLoop
  | ifKw => exact .some (cond.map fun _ => give_left rfl)
  | elseKw => exact .some elseBranch
  | elif => exact .some (cond.map fun _ => give_left rfl)
  | matchKw => exact .some (expr.map fun _ => give_left rfl)
  | whenKw => exact .some (armPattern.map fun _ => give_left rfl)
  | macroKw => exact .some macroDef
  | endMacro => exact .some (ident?.map fun _ => give_left rfl)
  | callKw => exact .some callBlock
  | filterKw => exact .some filterBlock
  | endFor | breakKw | continueKw | endIf | endMatch | endWhen | endCall | endFilter | rawKw | endRaw =>
    exact .some (give (List.forall_mem_nil _))
  | _ => exact .none

theorem stmt : Follows t 0 given (Reader.stmt limit : Program d source Stmt) (Reader.stmt limit) fun x => [.stmt x] := by
  refine next_bind ⟨rfl, rfl⟩ (fun l _ hclosing => ?_) fun l _ _ => ?_
  · dsimp only
    rcases Token.eq_of_isClosing hclosing with ht | ht <;> rw [ht] <;> exact .unexpected _ l
  · dsimp only
    cases l.token with
    | keyword w =>
      dsimp only
      have hkind : Option.Rel (fun (p : Program d source StmtKind) q => Follows t 0 given p q StmtKind.parts)
          (Reader.stmtKind? limit w) (Reader.stmtKind? limit w) := stmtKind? w
      generalize (Reader.stmtKind? limit w : Option (Program d source StmtKind)) = program at hkind ⊢
      generalize (Reader.stmtKind? limit w : Option (Reader StmtKind)) = reader at hkind ⊢
      cases hkind with
      | none => exact .unexpected _ l
      | some hbody =>
        exact hbody.bind fun kind => last.bind fun _ => node rfl rfl fun _ hp => .inl (List.mem_append_left given hp)
    | _ => exact .unexpected _ l

end Stencil.Checked.Follows
