/-
  Expr — the readers of expressions do not care where the lexemes stand.

  Layer by layer, as `Stencil.Reader.Expr` builds them: each reader is related to itself by `Moves`
  as soon as the reader of full expressions it is built over is.  The knot is tied by recursion on
  the budget (`exprWithin_moves`).  Spans are joined on the way, so the move has to keep the order of
  offsets.
-/
import Stencil.Proofs.Reader.Path
import Stencil.Proofs.Uniform.Reader

namespace Stencil

namespace Reader

instance : Placed Unary := ⟨fun _ u => u⟩
instance : Placed Operator := ⟨fun _ op => op⟩

section

variable {g : Nat → Nat} (hg : Monotone g) {value : Reader Expr} (hv : Moves g value value)

/-! ## Arguments and filters -/

theorem startsNamed_moves (g : Nat → Nat) : Moves g startsNamed startsNamed := by
  refine (peek_moves g).bind fun found => ?_
  cases found with
  | none => exact Moves.ite (secondIs_moves g _) (Moves.pure rfl)
  | some l => exact Moves.ite (secondIs_moves g _) (Moves.pure rfl)

include hv in
theorem arg_moves : Moves g (arg value) (arg value) := by
  refine (startsNamed_moves g).bind fun named => Moves.ite ?_ ?_
  · refine (ident_moves g).bind fun name => (expect_moves g _).bind fun _ => ?_
    exact hv.bind fun x => Moves.pure rfl
  · exact hv.bind fun x => Moves.pure rfl

include hg hv

theorem args_moves : Moves g (args value) (args value) := by
  refine (expect_moves g _).bind fun opening => (seq_moves (arg_moves hv) _).bind fun s => ?_
  exact Moves.pure (by rw [Args.move_mk, Span.move_join hg]; rfl)

theorem filter_moves : Moves g (filter value) (filter value) := by
  refine (ident_moves g).bind fun name => (nextIs_moves g _).bind fun given => Moves.ite ?_ ?_
  · refine (args_moves hg hv).bind fun given => Moves.pure ?_
    rw [Filter.move_mk, Span.move_join hg, ← Args.span_move]
    rfl
  · exact Moves.pure (by rw [Filter.move_mk]; rfl)

theorem filter?_moves : Moves g (filter? value) (filter? value) :=
  (eats_moves g _).bind fun _ =>
    Moves.ite ((filter_moves hg hv).map fun _ => rfl) (Moves.pure rfl)

/-! ## Paths and macro calls -/

theorem macroCall_moves {name : Lexeme} (hname : name.Regular g) (htoken : name.token = .macroName)
    (global : Bool) (segments : List Ident) (start : Span) :
    Moves g (macroCall value global segments start name)
      (macroCall value global (move g segments) (move g start) (move g name)) := by
  refine (args_moves hg hv).bind fun given => Moves.pure ?_
  -- The mark is one byte long, and taking it off commutes with the move.
  have hplace : move g (⟨name.span.start, name.span.stop - 1⟩ : Span) =
      ⟨(move g name).span.start, (move g name).span.stop - 1⟩ :=
    congrArg (Span.mk (g name.span.start)) (hname.mark htoken)
  have hsegments : move g (segments ++ [⟨String.ofList name.text.dropLast,
        ⟨name.span.start, name.span.stop - 1⟩⟩]) =
      move g segments ++ [⟨String.ofList (move g name).text.dropLast,
        ⟨(move g name).span.start, (move g name).span.stop - 1⟩⟩] := by
    rw [← hplace]
    exact List.map_append ..
  show Expr.macroCall ⟨global, move g (segments ++ _), move g (start.join _)⟩ (move g given)
    (move g (start.join given.span)) = _
  rw [hsegments, Span.move_join hg, Span.move_join hg, hplace, ← Args.span_move]

theorem macroSegment_moves (global : Bool) (segments : List Ident) (start : Span) :
    Moves g (macroSegment value global segments start)
      (macroSegment value global (move g segments) (move g start)) := by
  refine next_bind_moves (unexpected_moves g _ none) fun l hl => ?_
  show Moves g (if l.token = .macroName then _ else _) (if l.token = .macroName then _ else _)
  split
  · next ht => exact macroCall_moves hg hv hl ht global segments start
  · exact unexpected_moves g _ (some l)

omit hg hv in
theorem segment?_moves (g : Nat → Nat) : Moves g segment? segment? := by
  refine (nextIs_moves g _).bind fun _ => Moves.ite ?_ (Moves.pure rfl)
  refine (secondIs_moves g _).bind fun _ => Moves.ite (Moves.pure rfl) ?_
  exact (next_moves g).bind fun _ => (ident_moves g).map fun _ => rfl

omit hv in
/-- The span of a path that begins at `start`, from its segments. -/
theorem join_last_moves (start : Span) (first : Ident) (more : List Ident) :
    (move g start).join ((move g first :: move g more).getLastD (move g first)).span =
      move g (start.join ((first :: more).getLastD first).span) := by
  have hmap : (move g first :: move g more) = (first :: more).map (move g) := rfl
  rw [Span.move_join hg, hmap, List.getLastD_map]
  rfl

theorem pathExpr_moves (global : Bool) (first : Ident) (start : Span) :
    Moves g (pathExpr value global first start)
      (pathExpr value global (move g first) (move g start)) := by
  rw [pathExpr_feed, pathExpr_feed]
  refine (many_moves (segment?_moves g)).bind fun more => (eats_moves g _).bind fun _ => ?_
  refine Moves.ite (macroSegment_moves hg hv global (first :: more) start) (Moves.pure ?_)
  rw [join_last_moves hg]
  rfl

/-! ## Primaries -/

omit hv in
theorem negative_moves (minus : Lexeme) : Moves g (negative minus) (negative (move g minus)) := by
  refine next_bind_moves (unexpected_moves g _ none) fun l hl => ?_
  refine (literalOf_moves hl true).bind fun v => Moves.pure ?_
  show Expr.lit v (move g (minus.span.join l.span)) = _
  rw [Span.move_join hg]
  rfl

theorem parenthesized_moves (opening : Lexeme) :
    Moves g (parenthesized value opening) (parenthesized value (move g opening)) := by
  refine (seq_moves hv _).bind fun s => ?_
  have hspan : move g (opening.span.join s.close) =
      (move g opening).span.join (move g s).close := Span.move_join hg _ _
  obtain ⟨items, trailing, close⟩ := s
  dsimp only
  rw [← hspan]
  rcases items with _ | ⟨x, _ | ⟨y, ys⟩⟩
  · exact Moves.pure rfl
  · cases trailing with
    | false => exact Moves.pure rfl
    | true => exact Moves.pure (by rw [Expr.move_tuple]; rfl)
  · exact Moves.pure (by rw [Expr.move_tuple]; rfl)

theorem bracketed_moves (opening : Lexeme) :
    Moves g (bracketed value opening) (bracketed value (move g opening)) := by
  refine (seq_moves hv _).bind fun s => Moves.pure ?_
  rw [Expr.move_array, Span.move_join hg]
  rfl

theorem globalPath_moves (opening : Lexeme) :
    Moves g (globalPath value opening) (globalPath value (move g opening)) := by
  refine (nextIs_moves g _).bind fun _ => Moves.ite ?_ ?_
  · exact macroSegment_moves hg hv true [] opening.span
  · exact (ident_moves g).bind fun first => pathExpr_moves hg hv true first opening.span

theorem named_moves (l : Lexeme) : Moves g (named value l) (named value (move g l)) := by
  refine (nextIs_moves g _).bind fun _ => Moves.ite ?_ (Moves.pure rfl)
  exact pathExpr_moves hg hv false (identOf l) l.span

theorem primary_moves : Moves g (primary value) (primary value) := by
  refine next_bind_moves (unexpected_moves g _ none) fun l hl => ?_
  simp only [Lexeme.token_move]
  split
  · exact negative_moves hg l
  · exact globalPath_moves hg hv l
  · next ht => exact macroCall_moves hg hv hl ht false [] l.span
  · exact parenthesized_moves hg hv l
  · exact bracketed_moves hg hv l
  · refine Moves.ite ?_ (Moves.ite (named_moves hg hv l) (unexpected_moves g _ (some l)))
    exact (literalOf_moves hl false).bind fun _ => Moves.pure rfl

/-! ## Suffixes -/

omit hg hv in
theorem key_moves (g : Nat → Nat) : Moves g key key := by
  refine (next_moves g).bind_option (unexpected_moves g _ none) fun l => ?_
  simp only [Lexeme.token_move]
  split
  · exact Moves.pure rfl
  · exact Moves.pure rfl
  · rw [indexOf_bind_feed, indexOf_bind_feed]
    exact Moves.ite (Moves.pure rfl) (Moves.fail rfl)
  · exact unexpected_moves g _ (some l)

theorem suffix_moves (x : Expr) (l : Lexeme) :
    Moves g (suffix value x l) (suffix value (move g x) (move g l)) := by
  unfold suffix
  rw [Lexeme.token_move]
  split
  · refine (args_moves hg hv).bind fun given => Moves.pure ?_
    show Expr.call _ _ (move g (x.span.join given.span)) = _
    rw [Span.move_join hg, ← Expr.span_move, ← Args.span_move]
    rfl
  · refine (next_moves g).bind fun _ => (key_moves g).bind fun k => Moves.pure ?_
    show Expr.field _ _ (move g (x.span.join k.span)) = _
    rw [Span.move_join hg, ← Expr.span_move, ← Key.span_move]
    rfl
  · refine (next_moves g).bind fun _ => hv.bind fun i => (expect_moves g _).bind fun close => ?_
    refine Moves.pure ?_
    show Expr.index _ _ (move g (x.span.join close.span)) = _
    rw [Span.move_join hg, ← Expr.span_move]
    rfl
  · refine (next_moves g).bind fun _ => Moves.pure ?_
    show Expr.attempt _ (move g (x.span.join l.span)) = _
    rw [Span.move_join hg, ← Expr.span_move]
    rfl

end

/-! ## Operators and full expressions -/

variable {g : Nat → Nat} (hg : Monotone g) {e : Nat → Reader Expr} (limit : Nat)
  (he : ∀ k, Moves g (e k) (e k))

include hg he

theorem suffixes_moves (budget : Nat) (x : Expr) :
    Moves g (suffixes limit e budget x) (suffixes limit e budget (move g x)) := by
  induction budget generalizing x with
  | zero =>
    unfold suffixes
    refine (peek_moves g).bind fun found => ?_
    cases found with
    | none => exact Moves.pure rfl
    | some l => exact Moves.ite (tooDeep_moves g limit) (Moves.pure rfl)
  | succ budget ih =>
    unfold suffixes
    refine (peek_moves g).bind fun found => ?_
    cases found with
    | none => exact Moves.pure rfl
    | some l =>
      refine Moves.ite ?_ (Moves.pure rfl)
      exact (suffix_moves hg (he budget) x l).bind fun y => ih y

theorem tested_moves (budget : Nat) :
    Moves g (tested limit e budget) (tested limit e budget) := by
  refine (primary_moves hg (he budget)).bind fun x => ?_
  refine (suffixes_moves hg limit he budget x).bind fun y => ?_
  refine (eats_moves g _).bind fun _ => Moves.ite ?_ (Moves.pure rfl)
  refine (eats_moves g _).bind fun negated => (expect_moves g _).bind fun close => Moves.pure ?_
  show Expr.isDefined _ _ (move g (y.span.join close.span)) = _
  rw [Span.move_join hg, ← Expr.span_move]
  rfl

omit hg he in
theorem unary?_moves (g : Nat → Nat) : Moves g unary? unary? := by
  refine (peek_moves g).bind_option (Moves.pure rfl) fun l => ?_
  simp only [Lexeme.token_move]
  split
  · exact Moves.pure rfl
  · exact Moves.pure rfl
  · exact Moves.pure rfl
  · exact (secondIs_moves g _).bind fun _ => Moves.ite (Moves.pure rfl) (Moves.pure rfl)
  · exact Moves.pure rfl

omit hg he in
theorem Unary.move_apply (g : Nat → Nat) (u : Unary) (x : Expr) (s : Span) :
    move g (u.apply x s) = u.apply (move g x) (move g s) := by
  cases u <;> rfl

theorem unary_moves (budget : Nat) : Moves g (unary limit e budget) (unary limit e budget) := by
  induction budget with
  | zero =>
    unfold unary
    refine (unary?_moves g).bind fun found => ?_
    cases found with
    | none => exact tested_moves hg limit he 0
    | some u => exact (next_moves g).bind fun _ => tooDeep_moves g limit
  | succ budget ih =>
    unfold unary
    refine (unary?_moves g).bind fun found => ?_
    cases found with
    | none => exact tested_moves hg limit he (budget + 1)
    | some u =>
      refine (next_moves g).bind fun _ => ih.bind fun operand => Moves.pure ?_
      rw [Unary.move_apply, Span.move_join hg, ← Expr.span_move]
      rfl

omit hg he in
theorem operatorFrom?_moves (g : Nat → Nat) (min : Nat) :
    Moves g (operatorFrom? min) (operatorFrom? min) := by
  refine (peek_moves g).bind fun found => Moves.pure ?_
  cases found with
  | none => rfl
  | some l =>
    show Option.map (fun op => op) _ = _
    rw [Option.map_id']
    rfl

omit he in
theorem filtered_moves (x : Expr) (first : Filter) (rest : List Filter) :
    move g (filtered x first rest) = filtered (move g x) (move g first) (move g rest) := by
  have hfold : ∀ (fs : List Filter) (s : Span),
      move g (fs.foldl (fun s f => s.join f.span) s) =
        (move g fs).foldl (fun s f => s.join f.span) (move g s) := by
    intro fs
    induction fs with
    | nil => exact fun s => rfl
    | cons f fs ih =>
      intro s
      rw [List.foldl_cons, ih, Span.move_join hg, ← Filter.span_move]
      rfl
  unfold filtered
  rw [Expr.move_filter, hfold, Span.move_join hg, ← Expr.span_move, ← Filter.span_move]
  rfl

theorem operators_moves (budget min : Nat) (left : Expr) :
    Moves g (operators limit e budget min left) (operators limit e budget min (move g left)) := by
  induction budget generalizing min left with
  | zero =>
    unfold operators
    refine (operatorFrom?_moves g min).bind fun found => ?_
    cases found with
    | none => exact Moves.pure rfl
    | some op => exact tooDeep_moves g limit
  | succ budget ih =>
    unfold operators
    refine (operatorFrom?_moves g min).bind fun found => ?_
    rcases found with _ | op | _
    · exact Moves.pure rfl
    · refine (next_moves g).bind fun _ => (unary_moves hg limit he budget).bind fun operand => ?_
      refine (ih (op.level + 1) operand).bind fun right => ?_
      have hbinary : Expr.binary op (move g left) (move g right)
          ((move g left).span.join (move g right).span) =
          move g (.binary op left right (left.span.join right.span)) := by
        rw [Expr.span_move, Expr.span_move, ← Span.move_join hg]
        rfl
      rw [hbinary]
      exact ih min _
    · refine (next_moves g).bind fun _ => (filter_moves hg (he budget)).bind fun first => ?_
      refine (many_moves (filter?_moves hg (he budget))).bind fun rest => ?_
      rw [← filtered_moves hg]
      exact ih min _

theorem operation_moves (budget : Nat) :
    Moves g (operation limit e budget) (operation limit e budget) :=
  (unary_moves hg limit he budget).bind fun first => operators_moves hg limit he budget 0 first

omit hg he limit in
theorem range?_moves (g : Nat → Nat) : Moves g range? range? := by
  refine (peek_moves g).bind_option (Moves.pure rfl) fun l => ?_
  simp only [Lexeme.token_move]
  split <;> exact Moves.pure rfl

omit hg he limit in
theorem operandFollows_moves (g : Nat → Nat) : Moves g operandFollows operandFollows := by
  refine (peek_moves g).bind fun found => Moves.pure ?_
  cases found <;> rfl

omit hg he limit in
theorem rangeFrom_moves {operand : Reader Expr} (ho : Moves g operand operand)
    (start : Option Expr) (inclusive : Bool) :
    Moves g (rangeFrom operand start inclusive) (rangeFrom operand (move g start) inclusive) := by
  refine (next_moves g).bind fun _ => (last_moves g).bind fun op => ?_
  -- Both ways of learning whether the range has an end go on in the same way.
  refine Moves.ite (Moves.bind (Moves.pure rfl) ?after)
    (Moves.bind (operandFollows_moves g) ?after)
  intro bounded
  refine Moves.ite (c := bounded = true) ?_ ?_
  · refine ho.bind fun stop => Moves.pure ?_
    rw [Expr.move_range, Expr.span_move]
    cases start with
    | none => rfl
    | some x =>
      show _ = Expr.range _ _ _ ⟨(move g x).span.start, _⟩
      rw [Expr.span_move]
      rfl
  · refine Moves.pure ?_
    rw [Expr.move_range]
    cases start with
    | none => rfl
    | some x =>
      show _ = Expr.range _ _ _ ⟨(move g x).span.start, _⟩
      rw [Expr.span_move]
      rfl

omit hg he limit in
theorem ranged_moves {operand : Reader Expr} (ho : Moves g operand operand) :
    Moves g (ranged operand) (ranged operand) := by
  refine (range?_moves g).bind fun found => ?_
  cases found with
  | some inclusive => exact rangeFrom_moves ho none inclusive
  | none =>
    refine ho.bind fun x => (range?_moves g).bind fun found => ?_
    cases found with
    | some inclusive => exact rangeFrom_moves ho (some x) inclusive
    | none => exact Moves.pure rfl

omit he in
theorem exprWithin_moves (budget : Nat) :
    Moves g (exprWithin limit budget) (exprWithin limit budget) := by
  induction budget using Nat.strongRecOn with
  | ind budget ih =>
    cases budget with
    | zero => rw [exprWithin_zero]; exact tooDeep_moves g limit
    | succ budget =>
      rw [exprWithin_succ]
      refine ranged_moves (operation_moves hg limit (fun k => ?_) budget)
      split
      · next hk => exact ih k (Nat.lt_succ_of_le hk)
      · exact tooDeep_moves g limit

omit he in
theorem expr_moves : Moves g (expr limit) (expr limit) := exprWithin_moves hg limit limit

end Reader

end Stencil
