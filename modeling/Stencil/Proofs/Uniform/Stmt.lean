/-
  Stmt — the readers of patterns, statements and whole tags do not care where the lexemes stand.

  The last layers over `Stencil.Proofs.Uniform.Expr`.  `body_moves` is what a tag needs: its inside
  is read the same way wherever the tag stands, and the closing delimiter comes from the feed.
-/
import Stencil.Proofs.Uniform.Expr
import Stencil.Template.Region

namespace Stencil

namespace Reader

variable {g : Nat → Nat} (hg : Monotone g) (limit : Nat)

/-! ## Patterns -/

section

variable {inner : Reader Pattern} (hi : Moves g inner inner)

theorem pathSegment?_moves (g : Nat → Nat) : Moves g pathSegment? pathSegment? :=
  (eats_moves g _).bind fun _ => Moves.ite ((ident_moves g).map fun _ => rfl) (Moves.pure rfl)

include hi in
theorem fieldPattern_moves : Moves g (fieldPattern inner) (fieldPattern inner) := by
  refine (eat_moves g _).bind_option ?_ fun l => Moves.pure rfl
  refine (ident_moves g).bind fun name => (eats_moves g _).bind fun _ => Moves.ite ?_ ?_
  · exact hi.bind fun p => Moves.pure rfl
  · exact Moves.pure rfl

theorem pathPattern_moves (g : Nat → Nat) (p : Path) :
    move g (pathPattern p) = pathPattern (move g p) := by
  obtain ⟨global, segments, span⟩ := p
  rcases global with _ | _
  · rcases segments with _ | ⟨s, _ | ⟨s', ss⟩⟩ <;> rfl
  · rfl

include hg hi

theorem structPattern_moves (global : Bool) (first : Ident) (start : Span) :
    Moves g (structPattern inner global first start)
      (structPattern inner global (move g first) (move g start)) := by
  refine (many_moves (pathSegment?_moves g)).bind fun more => ?_
  dsimp only
  rw [join_last_moves hg]
  refine (eats_moves g _).bind fun _ => Moves.ite ?_ ?_
  · refine (seq_moves hi _).bind fun s => Moves.pure ?_
    rw [Pattern.move_tupleStruct, Span.move_join hg]
    rfl
  · refine (eats_moves g _).bind fun _ => Moves.ite ?_ (Moves.pure (pathPattern_moves g _))
    refine (seq_moves (fieldPattern_moves hi) _).bind fun s => Moves.pure ?_
    rw [Pattern.move_struct, Span.move_join hg]
    rfl

omit hi in
theorem negativePattern_moves (minus : Lexeme) :
    Moves g (negativePattern minus) (negativePattern (move g minus)) := by
  refine next_bind_moves (unexpected_moves g _ none) fun l hl => ?_
  refine Moves.ite (c := l.token = .number) ?_ (unexpected_moves g _ (some l))
  refine (literalOf_moves hl true).bind fun v => Moves.pure ?_
  show Pattern.lit v (move g (minus.span.join l.span)) = _
  rw [Span.move_join hg]
  rfl

theorem tuplePattern_moves (opening : Lexeme) :
    Moves g (tuplePattern inner opening) (tuplePattern inner (move g opening)) := by
  refine (seq_moves hi _).bind fun s => ?_
  have hspan : move g (opening.span.join s.close) =
      (move g opening).span.join (move g s).close := Span.move_join hg _ _
  obtain ⟨items, trailing, close⟩ := s
  dsimp only
  rw [← hspan]
  rcases items with _ | ⟨x, _ | ⟨y, ys⟩⟩
  · exact Moves.pure (Pattern.move_tuple g _ _)
  · cases trailing with
    | false => exact Moves.pure rfl
    | true => exact Moves.pure (Pattern.move_tuple g _ _)
  · exact Moves.pure (Pattern.move_tuple g _ _)

theorem slicePattern_moves (opening : Lexeme) :
    Moves g (slicePattern inner opening) (slicePattern inner (move g opening)) := by
  refine (seq_moves hi _).bind fun s => Moves.pure ?_
  rw [Pattern.move_slice, Span.move_join hg]
  rfl

theorem patternAtom_moves : Moves g (patternAtom inner) (patternAtom inner) := by
  refine next_bind_moves (unexpected_moves g _ none) fun l hl => ?_
  simp only [Lexeme.token_move]
  split
  · exact Moves.pure rfl
  · exact negativePattern_moves hg l
  · exact (ident_moves g).bind fun first => structPattern_moves hg hi true first l.span
  · exact tuplePattern_moves hg hi l
  · exact slicePattern_moves hg hi l
  · rw [isUnderscore_feed, isUnderscore_feed]
    refine Moves.ite (Moves.pure rfl) (Moves.ite ?_ (Moves.ite ?_ ?_))
    · exact (literalOf_moves hl false).bind fun _ => Moves.pure rfl
    · exact structPattern_moves hg hi false (identOf l) l.span
    · exact unexpected_moves g _ (some l)

omit hg in
theorem alternative?_moves : Moves g (alternative? inner) (alternative? inner) := by
  refine (eats_moves g _).bind fun _ => Moves.ite (hi.map fun _ => rfl) ?_
  exact (eats_moves g _).bind fun _ => Moves.ite (hi.map fun _ => rfl) (Moves.pure rfl)

theorem alternatives_moves : Moves g (alternatives inner) (alternatives inner) := by
  refine hi.bind fun first => (many_moves (alternative?_moves hi)).bind fun rest => ?_
  have hlast : (move g rest).getLast? = move g rest.getLast? := List.getLast?_map
  rw [hlast]
  cases rest.getLast? with
  | none => exact Moves.pure rfl
  | some final =>
    refine Moves.pure ?_
    rw [Pattern.move_alternatives, Span.move_join hg, ← Pattern.span_move, ← Pattern.span_move]
    rfl

end

include hg

theorem patternWithin_moves (budget : Nat) :
    Moves g (patternWithin limit budget) (patternWithin limit budget) := by
  induction budget with
  | zero => exact tooDeep_moves g limit
  | succ budget ih => exact alternatives_moves hg (patternAtom_moves hg ih)

theorem pattern_moves : Moves g (pattern limit) (pattern limit) := patternWithin_moves hg limit limit

theorem armPattern_moves : Moves g (armPattern limit) (armPattern limit) := by
  refine (pattern_moves hg limit).bind fun base => (eats_moves g _).bind fun _ => ?_
  refine Moves.ite ?_ (Moves.pure rfl)
  refine (next_moves g).bind_option (unexpected_moves g _ none) fun opening => ?_
  simp only [Lexeme.token_move]
  split
  · exact unexpected_moves g _ (some opening)
  · refine (seq_moves (pattern_moves hg limit) _).bind fun s => Moves.pure ?_
    rw [Pattern.move_destructured, Span.move_join hg, Span.move_join hg, ← Pattern.span_move]
    rfl

/-! ## Statements -/

omit hg in
theorem after?_moves {α : Type} [Placed α] {item : Reader α} (hitem : Moves g item item)
    (token : Token) : Moves g (after? token item) (after? token item) :=
  (eats_moves g _).bind fun _ => Moves.ite (hitem.map fun _ => rfl) (Moves.pure rfl)

theorem cond_moves : Moves g (cond limit) (cond limit) := by
  refine (eats_moves g _).bind fun _ => Moves.ite ?_ ?_
  · refine (pattern_moves hg limit).bind fun p => (expect_moves g _).bind fun _ => ?_
    exact (expr_moves hg limit).bind fun v => Moves.pure rfl
  · exact (expr_moves hg limit).bind fun c => Moves.pure rfl

theorem param_moves : Moves g (param limit) (param limit) :=
  (ident_moves g).bind fun _ =>
    (after?_moves (expr_moves hg limit) _).bind fun _ => Moves.pure rfl

theorem assign_moves (word : LetWord) : Moves g (assign limit word) (assign limit word) := by
  refine (eats_moves g _).bind fun _ => (pattern_moves hg limit).bind fun p => ?_
  exact (after?_moves (expr_moves hg limit) _).bind fun _ => Moves.pure rfl

theorem forLoop_moves : Moves g (forLoop limit) (forLoop limit) := by
  refine (pattern_moves hg limit).bind fun p => (expect_moves g _).bind fun _ => ?_
  refine (expr_moves hg limit).bind fun iterable => ?_
  exact (after?_moves (expr_moves hg limit) _).bind fun _ => Moves.pure rfl

omit hg in
theorem importAs_moves (g : Nat → Nat) : Moves g importAs importAs := by
  refine (textLit_moves g).bind fun path => (expect_moves g _).bind fun _ => ?_
  exact (ident_moves g).bind fun _ => Moves.pure rfl

theorem macroDef_moves : Moves g (macroDef limit) (macroDef limit) := by
  refine (ident_moves g).bind fun name => (expect_moves g _).bind fun _ => ?_
  exact (seq_moves (param_moves hg limit) _).bind fun s => Moves.pure rfl

omit hg in
theorem isCall_move (g : Nat → Nat) (x : Expr) : (move g x).isCall = x.isCall := by
  cases x <;> rfl

theorem callBlock_moves : Moves g (callBlock limit) (callBlock limit) := by
  refine (after?_moves (seq_moves (ident_moves g) _) _).bind fun bindings => ?_
  refine (expr_moves hg limit).bind fun call => ?_
  rw [isCall_move]
  refine Moves.ite (Moves.pure ?_) ?_
  · cases bindings <;> rfl
  · exact (peek_moves g).bind fun found => unexpected_moves g _ found

theorem filterBlock_moves : Moves g (filterBlock limit) (filterBlock limit) := by
  refine (filter_moves hg (expr_moves hg limit)).bind fun first => ?_
  exact (many_moves (filter?_moves hg (expr_moves hg limit))).bind fun rest => Moves.pure rfl

/-- A keyword begins the same kind of statement everywhere. -/
theorem stmtKind?_moves {k : Keyword} {body : Reader StmtKind}
    (h : stmtKind? limit k = some body) : Moves g body body := by
  unfold stmtKind? at h
  split at h <;> cases h
  case h_1 => exact (ident_moves g).map fun _ => rfl
  case h_2 => exact (ident?_moves g).map fun _ => rfl
  case h_3 => exact (textLit_moves g).map fun _ => rfl
  case h_4 => exact (textLit_moves g).map fun _ => rfl
  case h_5 => exact importAs_moves g
  case h_6 => exact assign_moves hg limit _
  case h_7 => exact assign_moves hg limit _
  case h_8 => exact forLoop_moves hg limit
  case h_12 => exact (cond_moves hg limit).map fun _ => rfl
  case h_13 =>
    exact (after?_moves (cond_moves hg limit) _).bind_option (Moves.pure rfl) fun _ => Moves.pure rfl
  case h_14 => exact (cond_moves hg limit).map fun _ => rfl
  case h_16 => exact (expr_moves hg limit).map fun _ => rfl
  case h_18 => exact (armPattern_moves hg limit).map fun _ => rfl
  case h_20 => exact macroDef_moves hg limit
  case h_21 => exact (ident?_moves g).map fun _ => rfl
  case h_22 => exact callBlock_moves hg limit
  case h_24 => exact filterBlock_moves hg limit
  all_goals exact Moves.pure rfl

theorem stmt_moves : Moves g (stmt limit) (stmt limit) := by
  refine (next_moves g).bind_option (unexpected_moves g _ none) fun l => ?_
  simp only [Lexeme.token_move]
  split
  · split
    · exact unexpected_moves g _ (some l)
    · next body hbody =>
      refine (stmtKind?_moves hg limit hbody).bind fun kind => (last_moves g).bind fun s => ?_
      refine Moves.pure ?_
      show Stmt.mk _ (move g (l.span.join s)) = _
      rw [Span.move_join hg]
      rfl
  · exact unexpected_moves g _ (some l)

end Reader

namespace Region

open Reader

instance : Placed Body where
  move g
    | .expr e => .expr (move g e)
    | .stmt s => .stmt (move g s)

/-- The inside of a tag is read the same way wherever the tag stands. -/
theorem body_moves {g : Nat → Nat} (hg : Monotone g) (limit : Nat) (kind : TagKind) :
    Moves g (body limit kind) (body limit kind) := by
  cases kind with
  | expr =>
    have hexpr : Moves g (Body.expr <$> expr limit) (Body.expr <$> expr limit) :=
      (expr_moves hg limit).map fun _ => rfl
    exact hexpr.bind fun b => (expect_moves g _).bind fun _ => Moves.pure rfl
  | block =>
    have hstmt : Moves g (Body.stmt <$> stmt limit) (Body.stmt <$> stmt limit) :=
      (stmt_moves hg limit).map fun _ => rfl
    exact hstmt.bind fun b => (expect_moves g _).bind fun _ => Moves.pure rfl

end Region

end Stencil
