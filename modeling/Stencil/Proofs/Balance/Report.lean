/-
  Report — what the walk over the control tags may complain about, and where.

  A complaint of the walk is about the place of a tag.  While a tag is visited it is the place of that
  tag, and the complaint is not that a tag is unclosed; that is said at the end only, about the tags that
  are still open.  An open tag keeps its kind and its place, so both come from the tags that were open
  before a row and from those of the row (`check_append`).
-/
import Stencil.Balance

namespace Stencil

namespace Balance

variable {stack : Stack} {k : StmtKind} {span : Span} {out : Outcome}

/-- The open tag was open before, or it is the visited tag; only a raw tag opens a raw block. -/
def ComesFrom (stack : Stack) (k : StmtKind) (span : Span) (o : OpenTag) : Prop :=
  (∃ o' ∈ stack, o'.kind = o.kind ∧ o'.span = o.span) ∨ (o.span = span ∧ (o.kind = .raw → k = .raw))

/-- What a visit of the statement may lead to. -/
structure Visits (stack : Stack) (k : StmtKind) (span : Span) (out : Outcome) : Prop where
  opened : ∀ o ∈ out.1, ComesFrom stack k span o
  problem : ∀ e ∈ out.2, e.span = span ∧ ∀ kind, e.fault ≠ .unbalanced (.unclosed kind)

theorem comesFrom_of_mem {o : OpenTag} (h : o ∈ stack) : ComesFrom stack k span o :=
  .inl ⟨o, h, rfl, rfl⟩

theorem opening_visits {kind : Opener} {name : Option String} {stack' : Stack}
    (hsub : ∀ o ∈ stack', o ∈ stack) (hraw : kind = .raw → k = .raw) :
    Visits stack k span (opening stack' kind span name) where
  opened := by
    intro o ho
    rcases List.mem_cons.1 ho with rfl | hmem
    · exact .inr ⟨rfl, hraw⟩
    · exact comesFrom_of_mem (hsub o hmem)
  problem := fun e he => by cases he

/-- Tags may be ended while nothing is wrong. -/
theorem fine_visits {stack' : Stack} (hsub : ∀ o ∈ stack', o ∈ stack) :
    Visits stack k span (stack', none) where
  opened := fun o ho => comesFrom_of_mem (hsub o ho)
  problem := fun e he => by cases he

theorem misplaced_visits {stack' : Stack} (hsub : ∀ o ∈ stack', o ∈ stack) (tag : String) :
    Visits stack k span (misplaced stack' tag span) where
  opened := fun o ho => comesFrom_of_mem (hsub o ho)
  problem := by
    intro e he
    cases he
    exact ⟨rfl, fun kind h => by cases h⟩

theorem mem_endArm {o : OpenTag} (h : o ∈ endArm stack) : o ∈ stack := by
  unfold endArm at h
  split at h
  · split at h
    · exact List.mem_cons_of_mem _ h
    · exact h
  · exact h

theorem closing_visits {kind : Opener} {name : Option String} {stack' : Stack}
    (hsub : ∀ o ∈ stack', o ∈ stack) : Visits stack k span (closing stack' kind span name) := by
  unfold closing
  split
  · next tag rest =>
    have hrest : ∀ o ∈ rest, o ∈ stack := fun o ho => hsub o (List.mem_cons_of_mem tag ho)
    split
    · refine ⟨fun o ho => comesFrom_of_mem (hrest o ho), fun e he => ?_⟩
      dsimp only [misnamed?] at he
      split at he
      · split at he
        · cases he
        · cases he
          exact ⟨rfl, fun kind h => by cases h⟩
      · cases he
    · exact misplaced_visits hsub _
  · exact misplaced_visits hsub _

theorem elsePart_visits : Visits stack k span (elsePart stack span) := by
  unfold elsePart
  split
  · next tag rest =>
    split
    · refine ⟨fun o ho => ?_, fun e he => by cases he⟩
      rcases List.mem_cons.1 ho with rfl | hmem
      · exact .inl ⟨tag, List.mem_cons_self, rfl, rfl⟩
      · exact comesFrom_of_mem (List.mem_cons_of_mem tag hmem)
    · exact misplaced_visits (fun _ h => h) _
  · exact misplaced_visits (fun _ h => h) _

theorem inLoop_visits (word : String) : Visits stack k span (inLoop stack word span) := by
  unfold inLoop
  split
  · exact fine_visits fun _ h => h
  · refine ⟨fun o ho => comesFrom_of_mem ho, fun e he => ?_⟩
    cases he
    exact ⟨rfl, fun kind h => by cases h⟩

/-- A visit opens at most the visited tag, and complains about nothing else. -/
theorem visit_visits (stack : Stack) (k : StmtKind) (span : Span) :
    Visits stack k span (visit stack k span) := by
  have same : ∀ o ∈ stack, o ∈ stack := fun _ h => h
  cases k with
  | raw => exact opening_visits same fun _ => rfl
  | block | forLoop | ifCond | matchOn | macroDef | callBlock | filterBlock =>
    exact opening_visits same Opener.noConfusion
  | endBlock | endFor | endIf | endMacro | endCall | endFilter | endWhen | endRaw =>
    exact closing_visits same
  | endMatch => exact closing_visits fun _ => mem_endArm
  | breakLoop => exact inLoop_visits "break"
  | continueLoop => exact inLoop_visits "continue"
  | elseCond => exact elsePart_visits
  | elseIf c =>
    show Visits stack _ span (elseIf stack span)
    unfold elseIf
    split
    · split
      · exact fine_visits same
      · exact misplaced_visits same _
    · exact misplaced_visits same _
  | whenArm p =>
    show Visits stack _ span (arm stack span)
    unfold arm
    dsimp only
    split
    · exact opening_visits (fun _ => mem_endArm) Opener.noConfusion
    · exact misplaced_visits (fun _ => mem_endArm) _
  | extendFrom | includeFrom | importAs | assign => exact fine_visits same

/-- The walk over a row goes on with what is behind it.  Until then it complains about tags of the row
    only, none of them unclosed; and the tags open then were open before or are tags of the row. -/
theorem check_append (stack : Stack) (u v : List (StmtKind × Span)) :
    ∃ problems stack', check stack (u ++ v) = problems ++ check stack' v ∧
      (∀ e ∈ problems, e.span ∈ u.map Prod.snd ∧ ∀ kind, e.fault ≠ .unbalanced (.unclosed kind)) ∧
      ∀ o ∈ stack', (∃ o' ∈ stack, o'.kind = o.kind ∧ o'.span = o.span) ∨
        (o.span ∈ u.map Prod.snd ∧ (o.kind = .raw → .raw ∈ u.map Prod.fst)) := by
  induction u generalizing stack with
  | nil => exact ⟨[], stack, rfl, List.forall_mem_nil _, fun o ho => .inl ⟨o, ho, rfl, rfl⟩⟩
  | cons first u ih =>
    obtain ⟨k, span⟩ := first
    obtain ⟨hopened, hproblem⟩ := visit_visits stack k span
    obtain ⟨problems, stack', hcheck, hproblems, hstack⟩ := ih (visit stack k span).1
    refine ⟨(visit stack k span).2.toList ++ problems, stack', ?_, fun e he => ?_, fun o ho => ?_⟩
    · rw [List.append_assoc, ← hcheck]
      rfl
    · rcases List.mem_append.1 he with hmem | hmem
      · obtain ⟨hspan, hfault⟩ := hproblem e (Option.mem_toList.1 hmem)
        exact ⟨by rw [hspan]; exact List.mem_cons_self, hfault⟩
      · obtain ⟨hspan, hfault⟩ := hproblems e hmem
        exact ⟨List.mem_cons_of_mem _ hspan, hfault⟩
    · rcases hstack o ho with ⟨o', ho', hkind, hspan⟩ | ⟨hspan, hraw⟩
      · rcases hopened o' ho' with ⟨o'', ho'', hkind', hspan'⟩ | ⟨hspan', hraw⟩
        · exact .inl ⟨o'', ho'', hkind'.trans hkind, hspan'.trans hspan⟩
        · refine .inr ⟨?_, fun ho => ?_⟩
          · rw [← hspan, hspan']
            exact List.mem_cons_self
          · rw [hraw (hkind.trans ho)]
            exact List.mem_cons_self
      · exact .inr ⟨List.mem_cons_of_mem _ hspan, fun ho => List.mem_cons_of_mem _ (hraw ho)⟩

theorem mem_finish_iff {e : Diagnostic} :
    e ∈ finish stack ↔ ∃ o ∈ stack, e = ⟨.unbalanced (.unclosed o.kind), o.span⟩ := by
  unfold finish
  rw [List.mem_map]
  constructor
  · rintro ⟨o, ho, rfl⟩
    exact ⟨o, List.mem_reverse.1 ho, rfl⟩
  · rintro ⟨o, ho, rfl⟩
    exact ⟨o, List.mem_reverse.2 ho, rfl⟩

/-- Every complaint is about the place of a tag of the row or of one that was open before. -/
theorem span_of_mem_check {row : List (StmtKind × Span)} {e : Diagnostic} (h : e ∈ check stack row) :
    e.span ∈ row.map Prod.snd ∨ ∃ o ∈ stack, e.span = o.span := by
  obtain ⟨problems, stack', hcheck, hproblems, hstack⟩ := check_append stack row []
  rw [List.append_nil] at hcheck
  rw [hcheck] at h
  rcases List.mem_append.1 h with hmem | hmem
  · exact .inl (hproblems e hmem).1
  · obtain ⟨o, ho, rfl⟩ := mem_finish_iff.1 hmem
    rcases hstack o ho with ⟨o', ho', -, hspan⟩ | ⟨hspan, -⟩
    · exact .inr ⟨o', ho', hspan.symm⟩
    · exact .inl hspan

/-- A raw block that is ended at once leaves nothing behind. -/
theorem check_raw_endRaw (stack : Stack) (s s' : Span) (row : List (StmtKind × Span)) :
    check stack ((.raw, s) :: (.endRaw, s') :: row) = check stack row := rfl

end Balance

end Stencil
