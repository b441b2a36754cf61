/-
  Stmt — the tag may be closed behind a pattern or a statement.

  Patterns look ahead by one lexeme only, so their readers are done by following the definitions.  The
  parts of a statement are whatever is wanted of its full expressions and patterns; the statement itself
  can be read alone wherever it stands, and its place does not depend on that either, since it runs from
  the keyword to the lexeme read last.
-/
import Stencil.Proofs.Cut.Expr
import Stencil.Proofs.Template.Height

namespace Stencil

namespace Reader

variable {ε : Type} {A : List Lexeme → ε → Prop} {given : ε → Prop} {feed rest : Feed}

/-! ## Patterns -/

theorem items_cuts [Letters] {α : Type} {item : Reader α} (hitem : Cuts A (fun _ => False) item noPart)
    {close : Token} (hclose : close.isClosing = false) (hdot : close ≠ .dot) :
    Cuts A given (seq close item) (noPart : Seq α → ε → Prop) :=
  (seq_cuts hitem hclose hdot).mono (fun _ _ h => h.elim) fun _ h => h

section

variable [Letters] {inner : Reader Pattern} (hinner : Cuts A (fun _ => False) inner noPart)

theorem negativePattern_cuts (minus : Lexeme) :
    Cuts A given (negativePattern minus) (noPart : Pattern → ε → Prop) := by
  refine .next (fun l => ?_) (fun _ _ => unexpected_ne_ok) fun l feed r htoken h => ?_
  · exact .ite ((literalOf_cuts l true).after fun _ => .give _) (.unexpected _ _)
  · dsimp only at h
    rw [if_neg (by rw [htoken]; decide)] at h
    exact unexpected_ne_ok h

include hinner

theorem fieldPattern_cuts :
    Cuts A given (fieldPattern inner) (noPart : FieldPattern → ε → Prop) := by
  refine (eat_cuts rfl (by decide)).after fun found => ?_
  cases found with
  | some l => exact .give _
  | none =>
    exact ident_cuts.after fun name => (eats_cuts rfl (by decide)).after fun colon =>
      .ite (hinner.after fun _ => .give _) (.give _)

theorem structPattern_cuts (global : Bool) (first : Ident) (start : Span) :
    Cuts A given (structPattern inner global first start) (noPart : Pattern → ε → Prop) := by
  have hsegments : Cuts A (fun _ => False) (many pathSegment?) (noPart : List Ident → ε → Prop) :=
    (many_after?_cuts (t := .pathSep) rfl (by decide) ident_cuts).mono (fun _ _ h => h.elim)
      fun _ h => h
  refine hsegments.after fun more => (eats_cuts rfl (by decide)).after fun paren => .ite ?_ ?_
  · exact (items_cuts hinner rfl (by decide)).after fun s => .give _
  · refine (eats_cuts rfl (by decide)).after fun brace => .ite ?_ (.give _)
    exact (items_cuts (fieldPattern_cuts hinner) rfl (by decide)).after fun s => .give _

theorem patternAtom_cuts : Cuts A given (patternAtom inner) (noPart : Pattern → ε → Prop) := by
  refine .next (fun l => ?_) (fun _ _ => unexpected_ne_ok) fun l feed r htoken h => ?_
  · dsimp only
    split
    · exact .give _
    · exact negativePattern_cuts l
    · exact ident_cuts.after fun first => structPattern_cuts hinner true first l.span
    · refine (items_cuts hinner rfl (by decide)).after fun s => ?_
      split
      · exact .give _
      · exact .give _
    · exact (items_cuts hinner rfl (by decide)).after fun s => .give _
    · rw [isUnderscore_bind_feed]
      refine .ite (.give _) (.ite ((literalOf_cuts l false).after fun v => .give _) (.ite ?_ ?_))
      · exact structPattern_cuts hinner false (identOf l) l.span
      · exact .unexpected _ _
  · dsimp only at h
    rw [htoken] at h
    dsimp only at h
    rw [isUnderscore_bind_feed, htoken, if_neg (by simp), if_neg (by decide), if_neg (by decide)] at h
    exact unexpected_ne_ok h

omit hinner in
theorem alternative?_cuts {atom : Reader Pattern} (hatom : Cuts A (fun _ => False) atom noPart) :
    Cuts A given (alternative? atom) (noPart : Option Pattern → ε → Prop) := by
  have hmap : Cuts A given (some <$> atom) (noPart : Option Pattern → ε → Prop) :=
    hatom.map fun _ _ h => h.elim
  refine (eats_cuts rfl (by decide)).after fun bar => .ite hmap ?_
  exact (eats_cuts rfl (by decide)).after fun word => .ite hmap (.give _)

omit hinner in
theorem alternatives_cuts {atom : Reader Pattern} (hatom : Cuts A (fun _ => False) atom noPart) :
    Cuts A given (alternatives atom) (noPart : Pattern → ε → Prop) := by
  have hrow : Cuts A (fun _ => False) (many (alternative? atom))
      (fun ps y => ∃ p ∈ ps, (noPart : Pattern → ε → Prop) p y) := by
    refine many_cuts ((alternative?_cuts hatom).mono (fun found y hy => ?_) fun _ h => h)
      (fun feed rest h => ?_) fun c stop last p rest hc h => ?_
    · obtain ⟨p, -, hy⟩ := hy
      exact hy
    · cases ifEats_none (ifEats_none h)
      rfl
    · unfold alternative? at h
      rw [bind_apply, eats_closing rfl hc] at h
      dsimp only at h
      rw [if_neg (by decide), bind_apply, eats_closing rfl hc] at h
      cases h
  refine hatom.after fun first => (hrow.mono (fun _ _ h => h.elim) fun _ h => h).after fun more => ?_
  split
  · exact .give _
  · exact .give _

end

theorem patternWithin_cuts [Letters] (limit budget : Nat) :
    Cuts A given (patternWithin limit budget) (noPart : Pattern → ε → Prop) := by
  induction budget generalizing given with
  | zero => exact .tooDeep limit
  | succ budget ih => exact alternatives_cuts (patternAtom_cuts ih)

theorem pattern_cuts [Letters] (limit : Nat) : Cuts A given (pattern limit) (noPart : Pattern → ε → Prop) :=
  patternWithin_cuts limit limit

theorem armPattern_cuts [Letters] (limit : Nat) :
    Cuts A given (armPattern limit) (noPart : Pattern → ε → Prop) := by
  refine (pattern_cuts limit).after fun base => (eats_cuts rfl (by decide)).after fun found =>
    .ite (.next (fun l => ?_) (fun _ _ => unexpected_ne_ok) fun l feed r htoken h => ?_) (.give _)
  · dsimp only
    cases hclose : closerOf? l.token with
    | none => exact .unexpected _ _
    | some close =>
      have htoken : close = .rparen ∨ close = .rbracket := by
        unfold closerOf? at hclose
        split at hclose
        · cases hclose; exact .inl rfl
        · cases hclose; exact .inr rfl
        · cases hclose
      rcases htoken with rfl | rfl
      · exact (items_cuts (pattern_cuts limit) rfl (by decide)).after fun s => .give _
      · exact (items_cuts (pattern_cuts limit) rfl (by decide)).after fun s => .give _
  · dsimp only at h
    rw [htoken] at h
    exact unexpected_ne_ok h

/-! ## Statements -/

/-- What is wanted of the full expressions and patterns of a statement. -/
def stmtPart (fe : Expr → ε → Prop) (fp : Pattern → ε → Prop) (k : StmtKind) (y : ε) : Prop :=
  (∃ e ∈ k.exprs, fe e y) ∨ ∃ p ∈ k.patterns, fp p y

section

variable {fe : Expr → ε → Prop} {fp : Pattern → ε → Prop} {limit : Nat}

/-- A statement without expressions and patterns. -/
theorem not_stmtPart {k : StmtKind} {y : ε} (he : k.exprs = []) (hp : k.patterns = []) :
    ¬ stmtPart fe fp k y := by
  rintro (⟨e, hmem, -⟩ | ⟨p, hmem, -⟩)
  · rw [he] at hmem
    cases hmem
  · rw [hp] at hmem
    cases hmem

theorem importAs_cuts [Letters] : Cuts A given importAs (stmtPart fe fp) :=
  textLit_cuts.after fun path => (expect_cuts (by decide)).after fun _ =>
    ident_cuts.after fun name => .pure fun y hy => (not_stmtPart rfl rfl hy).elim

variable [Letters] (hexpr : Cuts A (fun _ => False) (expr limit) fe)
  (hpattern : Cuts A (fun _ => False) (pattern limit) fp)
  (harm : Cuts A (fun _ => False) (armPattern limit) fp)

include hexpr hpattern

theorem cond_cuts : Cuts A given (cond limit)
    fun c y => fe c.value y ∨ ∃ p ∈ c.pattern?, fp p y := by
  refine (eats_cuts rfl (by decide)).after fun found => .ite ?_ ?_
  · refine hpattern.bind fun p => (expect_cuts (by decide)).after fun _ =>
      hexpr.bind fun e => .pure fun y hy => ?_
    rcases hy with hy | ⟨p', hp, hy⟩
    · exact .inl hy
    · cases hp
      exact .inr (.inl hy)
  · refine hexpr.bind fun e => .pure fun y hy => ?_
    rcases hy with hy | ⟨p, hp, -⟩
    · exact .inl hy
    · cases hp

theorem elseBranch_cuts : Cuts A given (elseBranch limit) (stmtPart fe fp) := by
  refine (after?_cuts rfl (by decide) (cond_cuts hexpr hpattern)).bind fun found => ?_
  cases found with
  | none => exact .pure fun y hy => (not_stmtPart rfl rfl hy).elim
  | some c =>
    refine .pure fun y hy => .inl ⟨c, rfl, ?_⟩
    rcases hy with ⟨e, he, hy⟩ | ⟨p, hp, hy⟩
    · rw [List.mem_singleton.1 he] at hy
      exact .inl hy
    · exact .inr ⟨p, Option.mem_toList.1 hp, hy⟩

theorem condStmt_cuts {make : Cond → StmtKind} (hexprs : ∀ c, (make c).exprs = [c.value])
    (hpatterns : ∀ c, (make c).patterns = c.pattern?.toList) :
    Cuts A given (make <$> cond limit) (stmtPart fe fp) := by
  refine (cond_cuts hexpr hpattern).map fun c y hy => .inl ?_
  rcases hy with ⟨e, he, hy⟩ | ⟨p, hp, hy⟩
  · rw [hexprs, List.mem_singleton] at he
    rw [he] at hy
    exact .inl hy
  · rw [hpatterns] at hp
    exact .inr ⟨p, Option.mem_toList.1 hp, hy⟩

theorem assign_cuts (word : LetWord) : Cuts A given (assign limit word) (stmtPart fe fp) := by
  refine (eats_cuts rfl (by decide)).after fun mutable => hpattern.bind fun p =>
    (after?_cuts rfl (by decide) hexpr).bind fun value => .pure fun y hy => ?_
  rcases hy with ⟨e, he, hy⟩ | ⟨p', hp, hy⟩
  · exact .inl ⟨e, Option.mem_toList.1 he, hy⟩
  · rw [List.mem_singleton.1 hp] at hy
    exact .inr (.inl hy)

theorem forLoop_cuts : Cuts A given (forLoop limit) (stmtPart fe fp) := by
  refine hpattern.bind fun p => (expect_cuts (by decide)).after fun _ => hexpr.bind fun iterable =>
    (after?_cuts rfl (by decide) hexpr).bind fun guard => .pure fun y hy => ?_
  rcases hy with ⟨e, he, hy⟩ | ⟨p', hp, hy⟩
  · rcases List.mem_cons.1 he with rfl | he
    · exact .inr (.inl hy)
    · exact .inl ⟨e, Option.mem_toList.1 he, hy⟩
  · rw [List.mem_singleton.1 hp] at hy
    exact .inr (.inr (.inl hy))

omit hpattern

theorem param_cuts : Cuts A given (param limit) fun p y => ∃ e ∈ p.default, fe e y :=
  ident_cuts.after fun name => (after?_cuts rfl (by decide) hexpr).bind fun value =>
    .pure fun y hy => .inl hy

theorem macroDef_cuts : Cuts A given (macroDef limit) (stmtPart fe fp) := by
  refine ident_cuts.after fun name => (expect_cuts (by decide)).after fun opening =>
    (seq_cuts (param_cuts hexpr) rfl (by decide)).bind fun s => .pure fun y hy => ?_
  rcases hy with ⟨e, he, hy⟩ | ⟨p, hp, -⟩
  · obtain ⟨x, hx, he⟩ := List.mem_flatMap.1 he
    exact .inl ⟨x, hx, e, Option.mem_toList.1 he, hy⟩
  · cases hp

theorem callBlock_cuts : Cuts A given (callBlock limit) (stmtPart fe fp) := by
  have hbindings : Cuts A (fun _ => False) (after? .lparen (seq .rparen ident))
      (noPart : Option (Seq Ident) → ε → Prop) :=
    (after?_cuts rfl (by decide) (items_cuts ident_cuts rfl (by decide))).mono
      (fun _ _ h => h.elim) fun _ h => h
  refine hbindings.after fun bindings => hexpr.bind fun call => .ite (.pure fun y hy => ?_) ?_
  · rcases hy with ⟨e, he, hy⟩ | ⟨p, hp, -⟩
    · rw [List.mem_singleton.1 he] at hy
      exact .inl hy
    · cases hp
  · intro feed hord
    refine .never fun r hr => ?_
    obtain ⟨found, mid, -, hfail⟩ := bind_eq_ok_iff.1 hr
    exact unexpected_ne_ok hfail

theorem filterBlock_cuts : Cuts A given (filterBlock limit) (stmtPart fe fp) := by
  refine (filter_cuts hexpr).bind fun first => (filters_cuts hexpr).bind fun more =>
    .pure fun y hy => ?_
  rcases hy with ⟨e, he, hy⟩ | ⟨p, hp, -⟩
  · have he' : e ∈ (first :: more).flatMap Filter.values := he
    rw [List.flatMap_cons, List.mem_append] at he'
    rcases he' with he' | he'
    · exact .inr (.inl ⟨e, he', hy⟩)
    · exact .inl ⟨e, he', hy⟩
  · cases hp

include hpattern harm

theorem stmtKind?_cuts {k : Keyword} {body : Reader StmtKind} (h : stmtKind? limit k = some body) :
    Cuts A given body (stmtPart fe fp) := by
  have hbare : ∀ {kind : StmtKind}, kind.exprs = [] → kind.patterns = [] →
      Cuts A given (pure kind) (stmtPart fe fp) :=
    fun he hp => .pure fun y hy => (not_stmtPart he hp hy).elim
  have hmap : ∀ {α : Type} {p : Reader α} {make : α → StmtKind},
      Cuts A (fun _ => False) p (noPart : α → ε → Prop) → (∀ a, (make a).exprs = []) →
      (∀ a, (make a).patterns = []) → Cuts A given (make <$> p) (stmtPart fe fp) :=
    fun hp he hpat => hp.map fun a y hy => (not_stmtPart (he a) (hpat a) hy).elim
  cases k <;> cases h
  case blockKw => exact hmap ident_cuts (fun _ => rfl) fun _ => rfl
  case endBlock => exact hmap ident?_cuts (fun _ => rfl) fun _ => rfl
  case extendsKw => exact hmap textLit_cuts (fun _ => rfl) fun _ => rfl
  case includeKw => exact hmap textLit_cuts (fun _ => rfl) fun _ => rfl
  case importKw => exact importAs_cuts
  case letKw => exact assign_cuts hexpr hpattern .letWord
  case setKw => exact assign_cuts hexpr hpattern .setWord
  case forKw => exact forLoop_cuts hexpr hpattern
  case ifKw => exact condStmt_cuts hexpr hpattern (fun _ => rfl) fun _ => rfl
  case elseKw => exact elseBranch_cuts hexpr hpattern
  case elif => exact condStmt_cuts hexpr hpattern (fun _ => rfl) fun _ => rfl
  case matchKw =>
    refine hexpr.map fun e y hy => .inl ?_
    rcases hy with ⟨e', he, hy⟩ | ⟨p, hp, -⟩
    · rw [List.mem_singleton.1 he] at hy
      exact hy
    · cases hp
  case whenKw =>
    refine harm.map fun p y hy => .inl ?_
    rcases hy with ⟨e, he, -⟩ | ⟨p', hp, hy⟩
    · cases he
    · rw [List.mem_singleton.1 hp] at hy
      exact hy
  case macroKw => exact macroDef_cuts hexpr
  case endMacro => exact hmap ident?_cuts (fun _ => rfl) fun _ => rfl
  case callKw => exact callBlock_cuts hexpr
  case filterKw => exact filterBlock_cuts hexpr
  all_goals exact hbare rfl rfl

omit [Letters] hexpr hpattern harm in
theorem stmt_run {l : Lexeme} {ls : List Lexeme} {stop : Lexer.Stop} {k : Keyword}
    {body : Reader StmtKind} {kind : StmtKind} (htoken : l.token = .keyword k)
    (hbody : stmtKind? limit k = some body) (hkind : body ⟨ls, stop, l.span⟩ = .ok (kind, rest))
    (last : Span) :
    stmt limit (⟨l :: ls, stop, last⟩ : Feed) = .ok (⟨kind, l.span.join rest.last⟩, rest) := by
  unfold stmt
  rw [bind_apply]
  dsimp only [next_feed, Feed.next]
  rw [htoken]
  dsimp only
  rw [hbody]
  dsimp only
  rw [bind_apply, hkind]
  rfl

/-- The tag may be closed behind a statement, which keeps its place then. -/
theorem stmt_cuts : Cuts A given (stmt limit) fun s y => stmtPart fe fp s.kind y := by
  intro feed hord s rest h
  rcases next_bind_eq_ok h with ⟨-, hnone⟩ | ⟨l, mid, hls, hlast, hmatch⟩
  · exact (unexpected_ne_ok hnone).elim
  rw [hls] at hord
  dsimp only at hmatch
  cases htoken : l.token with
  | keyword k =>
    rw [htoken] at hmatch
    dsimp only at hmatch
    cases hbody : (stmtKind? limit k : Option (Reader StmtKind)) with
    | none =>
      rw [hbody] at hmatch
      exact (unexpected_ne_ok hmatch).elim
    | some body =>
      rw [hbody] at hmatch
      obtain ⟨kind, mid', hkind, hspan⟩ := bind_eq_ok_iff.1 hmatch
      cases hspan
      have hcuts : Cuts A given body (stmtPart fe fp) := stmtKind?_cuts hexpr hpattern harm hbody
      obtain ⟨used, hcut, hparts⟩ := hcuts mid hord.tail kind rest hkind
      have hdot : l.token ≠ .dot := by rw [htoken]; exact nofun
      have hplace : rest.last = l.span.after used := by rw [hcut.last, hlast]
      refine ⟨l :: used, ⟨?_, hplace, hcut.settled.cons hdot, ?_⟩, fun y hy => ?_⟩
      · rw [hls, hcut.split, List.cons_append]
      · intro ls c stop last hprefix hahead hc
        rw [hplace]
        exact stmt_run htoken hbody (hcut.again ls c stop l.span hprefix hahead hc) last
      · exact (hparts y hy).imp_right fun h => h.right (a := [l]) (.singleton hdot)
  | _ =>
    rw [htoken] at hmatch
    exact (unexpected_ne_ok hmatch).elim

end

end Reader

end Stencil
