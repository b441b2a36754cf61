/-
  Pattern — a machine reads patterns as they are read from a feed.

  As for expressions: each parser follows itself as soon as the parser of the patterns inside does, and the budget
  of the machine is no smaller than the levels left.  The first and the last of several alternatives are looked up
  by their positions in the list of them, which is never empty.
-/
import Stencil.Proofs.Checked.Follow
import Stencil.Reader.Pattern

namespace Stencil.Checked.Follows

open Reader (peek next isLiteral)

variable [Letters] {d : Delims} {source : List Char} {t : Frame} {k limit : Nat} {m : Machine d source}
    {feed : Feed}
  {given : List Part} {inner : Program d source Pattern} {q : Reader Pattern}

theorem pathSegment? :
    FollowsItem t k given (Reader.pathSegment? : Program d source _) Reader.pathSegment? fun i => [.ident i] :=
  .guarded rfl ident .none

theorem negativePattern (minus : Lexeme) :
    Follows t k given (Reader.negativePattern minus : Program d source _) (Reader.negativePattern minus)
      fun p => [.pattern p] := by
  refine next_bind ⟨rfl, rfl⟩ (fun l _ hclosing => ?_) fun l hl _ => ?_
  · have hne : l.token ≠ .number := fun h => by rw [h] at hclosing; cases hclosing
    dsimp only
    rw [if_neg hne, if_neg hne]
    exact .unexpected _ l
  · refine .ite (fun _ => ?_) fun _ => .unexpected _ l
    refine (literalOf hl true (.inr ⟨rfl, minus.span, rfl⟩)).bind fun c => give ?_
    simp

theorem isUnderscore {l : Lexeme} (hl : l.Sits d source) :
    Follows t k given (Reader.isUnderscore l : Program d source _) (Reader.isUnderscore l) fun _ => [] := by
  unfold Reader.isUnderscore
  refine .ite (fun _ => ?_) fun _ => give (List.forall_mem_nil _)
  exact spelled_bind hl (give (List.forall_mem_nil _))

section

variable (hq : Follows t k [] inner q fun p => [.pattern p])

include hq

theorem fieldPattern :
    Follows t k given (Reader.fieldPattern inner) (Reader.fieldPattern q) FieldPattern.parts := by
  refine (eat rfl).bind fun found => ?_
  cases found with
  | some l => exact give (by simp [FieldPattern.parts, Part.isBare])
  | none =>
    refine ident.bind fun name => (eats rfl).bind fun b => .ite (fun _ => ?_) fun _ => ?_
    · exact hq.of_nil.bind fun p => give (by simp [FieldPattern.parts])
    · exact give (by simp [FieldPattern.parts])

theorem structPattern (global : Bool) (first : Ident) (start : Span) :
    Follows t k given (Reader.structPattern inner global first start)
      (Reader.structPattern q global first start) fun p => [.pattern p] := by
  refine pathSegment?.many.bind fun more => (eats rfl).bind fun b => .ite (fun _ => ?_) fun _ =>
    (eats rfl).bind fun b => .ite (fun _ => ?_) fun _ => ?_
  · refine (hq.of_nil.seq rfl).bind fun s => node rfl rfl fun p hp => ?_
    rcases List.mem_cons.1 hp with rfl | hp
    · exact .inr rfl
    · exact .inl (mem_items hp)
  · refine ((fieldPattern hq).seq rfl).bind fun s => node rfl rfl fun p hp => ?_
    rcases List.mem_cons.1 hp with rfl | hp
    · exact .inr rfl
    · exact .inl (List.mem_append_left _ hp)
  · show Follows t k _ (Pure.pure (Reader.pathPattern _) : Program d source Pattern) _ _
    unfold Reader.pathPattern
    split
    · exact node rfl rfl (List.forall_mem_nil _)
    · exact node rfl rfl (List.forall_mem_singleton.2 (.inr rfl))

theorem tuplePattern (opening : Lexeme) :
    Follows t k given (Reader.tuplePattern inner opening) (Reader.tuplePattern q opening)
      fun p => [.pattern p] := by
  refine (hq.of_nil.seq rfl).bind fun s => ?_
  obtain ⟨items, trailing, close⟩ := s
  rcases items with _ | ⟨x, _ | ⟨y, more⟩⟩
  · exact node rfl rfl (List.forall_mem_nil _)
  · cases trailing with
    | true => exact node rfl rfl fun _ hp => .inl (mem_items hp)
    | false => exact item rfl (by simp)
  · exact node rfl rfl fun _ hp => .inl (mem_items hp)

theorem slicePattern (opening : Lexeme) :
    Follows t k given (Reader.slicePattern inner opening) (Reader.slicePattern q opening)
      fun p => [.pattern p] :=
  (hq.of_nil.seq rfl).bind fun _ => node rfl rfl fun _ hp => .inl (mem_items hp)

theorem patternAtom :
    Follows t k given (Reader.patternAtom inner) (Reader.patternAtom q) fun p => [.pattern p] := by
  refine next_bind ⟨rfl, rfl⟩ (fun l _ hclosing => ?_) fun l hl _ => ?_
  · have hne : l.token ≠ .ident := fun h => by rw [h] at hclosing; cases hclosing
    have hunderscore : ∀ {ε σ : Type} [Supply σ ε] (st : σ),
        (Reader.isUnderscore l : Parser ε σ Bool) st = .ok (false, st) := fun st => by
      rw [Reader.isUnderscore, if_neg hne]
      rfl
    dsimp only
    rcases Token.eq_of_isClosing hclosing with ht | ht <;> rw [ht] <;>
      exact .computed hunderscore hunderscore (.unexpected _ l)
  · dsimp only
    cases ht : l.token with
    | dotDot => exact node rfl rfl (List.forall_mem_nil _)
    | minus => exact negativePattern l
    | pathSep => exact ident.bind fun first => structPattern hq true first l.span
    | lparen => exact tuplePattern hq l
    | lbracket => exact slicePattern hq l
    | _ =>
      refine (isUnderscore hl).bind fun b => .ite (fun _ => node rfl rfl (List.forall_mem_nil _)) fun _ =>
        .ite (fun _ => ?_) fun _ => .ite (fun _ => ?_) fun _ => .unexpected _ l
      · exact (literalOf hl false (.inl rfl)).bind fun c => give (by simp)
      · exact (nameOf hl).bind fun first => structPattern hq false first l.span

omit hq in
theorem alternative? {atom : Program d source Pattern} (hatom : Follows t k given atom q fun p => [.pattern p]) :
    FollowsItem t k given (Reader.alternative? atom) (Reader.alternative? q) fun p => [.pattern p] :=
  .guarded rfl hatom (.guarded rfl hatom .none)

omit hq in
/-- The last of the alternatives stands at the position before their number. -/
theorem alternatives {atom : Program d source Pattern} (hatom : ∀ {given}, Follows t k given atom q fun p => [.pattern p]) :
    Follows t k given (Reader.alternatives atom) (Reader.alternatives q) fun p => [.pattern p] := by
  refine hatom.bind fun first => (alternative? hatom).many.bind fun more => ?_
  cases hlast : more.getLast? with
  | none => exact item rfl (by simp)
  | some final =>
    obtain ⟨front, rfl⟩ := List.getLast?_eq_some_iff.1 hlast
    have hfinal : (first :: (front ++ [final]))[(first :: (front ++ [final])).length - 1]? = some final := by
      rw [← List.getLast?_eq_getElem?, ← List.cons_append, List.getLast?_concat]
    refine item_bind rfl (difference_bind (Nat.le_add_left 1 _) (item_bind hfinal (node rfl rfl fun p hp => ?_)))
    rcases List.mem_cons.1 hp with rfl | hp
    · exact .inl (List.mem_append_right _ List.mem_cons_self)
    · exact .inl (mem_items hp)

end

/-- From every depth, and with any budget that is not less than the levels left. -/
theorem patternWithin {budget : Nat} (hbudget : limit - k ≤ budget) :
    Follows t k given (Reader.patternWithin limit budget : Program d source Pattern)
      (Reader.patternWithin limit (limit - k)) fun p => [.pattern p] := by
  induction budget generalizing k given with
  | zero =>
    rw [Nat.le_zero.1 hbudget]
    exact .beyond (by omega)
  | succ budget ih =>
    by_cases hk : k < limit
    · rw [show limit - k = limit - (k + 1) + 1 by omega]
      exact within hk (alternatives (patternAtom (ih (by omega))))
    · rw [show limit - k = 0 by omega]
      exact .within_beyond (by omega)

theorem pattern :
    Follows t 0 given (Reader.pattern limit : Program d source Pattern) (Reader.pattern limit) fun p => [.pattern p] :=
  patternWithin (Nat.le_refl _)

theorem armPattern :
    Follows t 0 given (Reader.armPattern limit : Program d source Pattern) (Reader.armPattern limit)
      fun p => [.pattern p] := by
  refine pattern.bind fun base => (eats rfl).bind fun b => .ite (fun _ => ?_) fun _ => give (by simp)
  refine next_bind ⟨rfl, rfl⟩ (fun l _ hclosing => ?_) fun l _ _ => ?_
  · dsimp only
    rcases Token.eq_of_isClosing hclosing with ht | ht <;> rw [ht] <;> exact .unexpected _ l
  · dsimp only
    cases hcloser : Reader.closerOf? l.token with
    | none => exact .unexpected _ l
    | some close =>
      have hclose : close.isClosing = false := by
        unfold Reader.closerOf? at hcloser
        split at hcloser <;> cases hcloser <;> rfl
      refine (pattern.seq hclose).bind fun s => node rfl rfl fun p hp => ?_
      rcases List.mem_cons.1 hp with rfl | hp
      · exact .inl (List.mem_append_right _ List.mem_cons_self)
      · exact .inl (mem_items hp)

end Stencil.Checked.Follows
