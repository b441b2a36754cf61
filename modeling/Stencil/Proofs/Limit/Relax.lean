/-
  Relax — a reader with a higher limit does the same, unless the lower limit is exceeded.

  `Relaxes limit p q` compares two readers on the same feed: either `p` finds the nesting to be
  deeper than `limit`, or both do the same, failures included.  It passes through sequencing, choice
  and repetition, so the readers of the grammar are compared by following their definitions, with a
  budget of `k` levels on one side and `more + k` on the other.

  The one spot that needs an argument is where the first reader has no budget left.  It looks at the
  next lexeme to say where the nesting is too deep, and a fault among the lexemes may come first; then
  it reports that fault and not the nesting.  The second reader, which goes on, must report the very
  same fault.  It does, since it looks at the next lexeme before it does anything else (`Heeds`), and
  this is so for every construct that costs a level.
-/
import Stencil.Proofs.Reader.Gives
import Stencil.Reader.Stmt

namespace Stencil

namespace Reader

variable {α β : Type} {limit : Nat}

/-- `p` finds the nesting to be deeper than `limit`, or does what `q` does. -/
def Relaxes (limit : Nat) (p q : Reader α) : Prop :=
  ∀ feed, (∃ place, p feed = .error ⟨.tooDeep limit, place⟩) ∨ p feed = q feed

/-- The reader looks at the next lexeme first: if there is a fault instead, it fails with that. -/
def Heeds (p : Reader α) : Prop :=
  ∀ diagnostic last, p ⟨[], .fault diagnostic, last⟩ = .error diagnostic

/-! ## Looking ahead first -/

theorem Heeds.bind {p : Reader α} (hp : Heeds p) (k : α → Reader β) : Heeds (p >>= k) := by
  intro diagnostic last
  rw [bind_apply, hp]

theorem peek_heeds : Heeds peek := fun _ _ => rfl

theorem next_heeds : Heeds next := fun _ _ => rfl

theorem tooDeep_heeds (limit : Nat) : Heeds (tooDeep limit : Reader α) := peek_heeds.bind _

/-! ## Sequencing, choice and repetition -/

theorem Relaxes.refl (limit : Nat) (p : Reader α) : Relaxes limit p p := fun _ => .inr rfl

theorem Relaxes.bind {p q : Reader α} {k k' : α → Reader β} (hp : Relaxes limit p q)
    (hk : ∀ a, Relaxes limit (k a) (k' a)) : Relaxes limit (p >>= k) (q >>= k') := by
  intro feed
  rw [bind_apply, bind_apply]
  rcases hp feed with ⟨place, hdeep⟩ | hsame
  · rw [hdeep]
    exact .inl ⟨place, rfl⟩
  · rw [← hsame]
    cases p feed with
    | error diagnostic => exact .inr rfl
    | ok r => exact hk r.1 r.2

/-- As `Relaxes.bind`, where both begin with the same reader. -/
theorem Relaxes.after {p : Reader α} {k k' : α → Reader β}
    (hk : ∀ a, Relaxes limit (k a) (k' a)) : Relaxes limit (p >>= k) (p >>= k') :=
  (Relaxes.refl limit p).bind hk

theorem Relaxes.map {p q : Reader α} (hp : Relaxes limit p q) (f : α → β) :
    Relaxes limit (f <$> p) (f <$> q) :=
  hp.bind fun _ => .refl limit _

theorem Relaxes.ite {c : Prop} [Decidable c] {p p' q q' : Reader α} (h : Relaxes limit p q)
    (h' : Relaxes limit p' q') : Relaxes limit (if c then p else p') (if c then q else q') := by
  split
  · exact h
  · exact h'

/-- Without budget a reader compares with every reader that looks at the next lexeme first. -/
theorem tooDeep_relaxes {q : Reader α} (hq : Heeds q) : Relaxes limit (tooDeep limit) q := by
  intro feed
  obtain ⟨lexemes, stop, last⟩ := feed
  cases lexemes with
  | cons l ls => exact .inl ⟨l.span, rfl⟩
  | nil =>
    cases stop with
    | atEnd pos => exact .inl ⟨Span.point pos, rfl⟩
    | fault diagnostic => exact .inr (by rw [hq, tooDeep_heeds])

theorem manyFrom_relaxes {p q : Reader (Option α)} (h : Relaxes limit p q) (fuel : Nat) :
    Relaxes limit (manyFrom p fuel) (manyFrom q fuel) := by
  induction fuel with
  | zero => exact .refl limit _
  | succ fuel ih =>
    refine h.bind fun found => ?_
    cases found with
    | none => exact .refl limit _
    | some x => exact ih.bind fun xs => .refl limit _

theorem many_relaxes {p q : Reader (Option α)} (h : Relaxes limit p q) :
    Relaxes limit (many p) (many q) :=
  fun feed => manyFrom_relaxes h (feed.lexemes.length + 1) feed

theorem seqFrom_relaxes {p q : Reader α} (h : Relaxes limit p q) (close : Token) (fuel : Nat)
    (trailing : Bool) : Relaxes limit (seqFrom close p fuel trailing)
      (seqFrom close q fuel trailing) := by
  induction fuel generalizing trailing with
  | zero =>
    rw [seqFrom, seqFrom]
    refine .after fun found => ?_
    cases found with
    | some l => exact .refl limit _
    | none => exact h.bind fun x => .refl limit _
  | succ fuel ih =>
    rw [seqFrom, seqFrom]
    refine .after fun found => ?_
    cases found with
    | some l => exact .refl limit _
    | none =>
      refine h.bind fun x => .after fun found => ?_
      cases found with
      | none => exact .refl limit _
      | some l =>
        refine .ite ?_ (.refl limit _)
        exact (ih true).bind fun s => .refl limit _

theorem seq_relaxes {p q : Reader α} (h : Relaxes limit p q) (close : Token) :
    Relaxes limit (seq close p) (seq close q) :=
  fun feed => seqFrom_relaxes h close feed.lexemes.length false feed

/-! ## What is made of full expressions -/

section

variable {v w : Reader Expr} (hv : Relaxes limit v w)

include hv

theorem arg_relaxes : Relaxes limit (arg v) (arg w) := by
  refine .after fun named => .ite ?_ ?_
  · exact .after fun name => .after fun _ => hv.bind fun x => .refl limit _
  · exact hv.bind fun x => .refl limit _

theorem args_relaxes : Relaxes limit (args v) (args w) :=
  .after fun _ => (seq_relaxes (arg_relaxes hv) _).bind fun _ => .refl limit _

theorem filter_relaxes : Relaxes limit (filter v) (filter w) := by
  refine .after fun name => .after fun given => .ite ?_ (.refl limit _)
  exact (args_relaxes hv).bind fun _ => .refl limit _

theorem filter?_relaxes : Relaxes limit (filter? v) (filter? w) :=
  .after fun _ => .ite ((filter_relaxes hv).map _) (.refl limit _)

theorem macroCall_relaxes (global : Bool) (segments : List Ident) (start : Span) (name : Lexeme) :
    Relaxes limit (macroCall v global segments start name)
      (macroCall w global segments start name) :=
  (args_relaxes hv).bind fun _ => .refl limit _

theorem macroSegment_relaxes (global : Bool) (segments : List Ident) (start : Span) :
    Relaxes limit (macroSegment v global segments start)
      (macroSegment w global segments start) := by
  refine .after fun found => ?_
  cases found with
  | none => exact .refl limit _
  | some l => exact .ite (macroCall_relaxes hv global segments start l) (.refl limit _)

theorem pathExpr_relaxes (global : Bool) (first : Ident) (start : Span) :
    Relaxes limit (pathExpr v global first start) (pathExpr w global first start) :=
  .after fun (more, _) =>
    .ite (macroSegment_relaxes hv global (first :: more) start) (.refl limit _)

theorem primary_relaxes : Relaxes limit (primary v) (primary w) := by
  refine .after fun found => ?_
  cases found with
  | none => exact .refl limit _
  | some l =>
    dsimp only
    split
    · exact .refl limit _
    · refine .after fun _ => .ite (macroSegment_relaxes hv true [] l.span) ?_
      exact .after fun first => pathExpr_relaxes hv true first l.span
    · exact macroCall_relaxes hv false [] l.span l
    · exact (seq_relaxes hv _).bind fun _ => .refl limit _
    · exact (seq_relaxes hv _).bind fun _ => .refl limit _
    · refine .ite (.refl limit _) (.ite ?_ (.refl limit _))
      exact .after fun first => .after fun _ =>
        .ite (pathExpr_relaxes hv false first l.span) (.refl limit _)

theorem suffix_relaxes (x : Expr) (l : Lexeme) : Relaxes limit (suffix v x l) (suffix w x l) := by
  unfold suffix
  split
  · exact (args_relaxes hv).bind fun _ => .refl limit _
  · exact .refl limit _
  · exact .after fun _ => hv.bind fun _ => .refl limit _
  · exact .refl limit _

end

/-- A suffix begins with a lexeme. -/
theorem suffix_heeds (v : Reader Expr) (x : Expr) (l : Lexeme) : Heeds (suffix v x l) := by
  unfold suffix
  split
  · have hargs : Heeds (args v) := (next_heeds.bind _ : Heeds (expect .lparen)).bind _
    exact hargs.bind _
  · exact next_heeds.bind _
  · exact next_heeds.bind _
  · exact next_heeds.bind _

/-! ## Operators and full expressions -/

section

variable {e e' : Nat → Reader Expr} {high more : Nat}
  (he : ∀ k, Relaxes limit (e k) (e' (more + k)))

include he

theorem suffixes_relaxes (budget : Nat) (x : Expr) :
    Relaxes limit (suffixes limit e budget x) (suffixes high e' (more + budget) x) := by
  induction budget generalizing x with
  | zero =>
    unfold suffixes
    refine .after fun found => ?_
    cases found with
    | none => exact .refl limit _
    | some l =>
      refine .ite (tooDeep_relaxes ?_) (.refl limit _)
      cases more with
      | zero => exact tooDeep_heeds high
      | succ more => exact (suffix_heeds _ x l).bind _
  | succ budget ih =>
    unfold suffixes
    refine .after fun found => ?_
    cases found with
    | none => exact .refl limit _
    | some l =>
      refine .ite ?_ (.refl limit _)
      exact (suffix_relaxes (he budget) x l).bind ih

theorem tested_relaxes (budget : Nat) :
    Relaxes limit (tested limit e budget) (tested high e' (more + budget)) := by
  refine (primary_relaxes (he budget)).bind fun x => ?_
  exact (suffixes_relaxes he budget x).bind fun y => .refl limit _

omit he in
theorem unary_heeds (limit : Nat) (e : Nat → Reader Expr) (budget : Nat) :
    Heeds (unary limit e budget) := by
  unfold unary
  exact (peek_heeds.bind _ : Heeds unary?).bind _

theorem unary_relaxes (budget : Nat) :
    Relaxes limit (unary limit e budget) (unary high e' (more + budget)) := by
  induction budget with
  | zero =>
    rw [unary, unary.eq_def high]
    refine .after fun found => ?_
    cases found with
    | none => exact tested_relaxes he 0
    | some u =>
      -- The operator has been taken; what follows it is looked at by either side.
      refine .after fun _ => tooDeep_relaxes ?_
      cases more with
      | zero => exact tooDeep_heeds high
      | succ more => exact (unary_heeds high e' more).bind _
  | succ budget ih =>
    rw [unary, unary.eq_def high]
    refine .after fun found => ?_
    cases found with
    | none => exact tested_relaxes he (budget + 1)
    | some u => exact .after fun _ => ih.bind fun operand => .refl limit _

theorem operators_relaxes (budget min : Nat) (left : Expr) :
    Relaxes limit (operators limit e budget min left)
      (operators high e' (more + budget) min left) := by
  induction budget generalizing min left with
  | zero =>
    unfold operators
    refine .after fun found => ?_
    cases found with
    | none => exact .refl limit _
    | some op =>
      refine tooDeep_relaxes ?_
      cases more with
      | zero => exact tooDeep_heeds high
      | succ more => exact next_heeds.bind _
  | succ budget ih =>
    unfold operators
    refine .after fun found => ?_
    rcases found with _ | op | _
    · exact .refl limit _
    · refine .after fun _ => (unary_relaxes he budget).bind fun operand => ?_
      exact (ih (op.level + 1) operand).bind fun right => ih min _
    · refine .after fun _ => (filter_relaxes (he budget)).bind fun first => ?_
      exact (many_relaxes (filter?_relaxes (he budget))).bind fun rest => ih min _

theorem operation_relaxes (budget : Nat) :
    Relaxes limit (operation limit e budget) (operation high e' (more + budget)) :=
  (unary_relaxes he budget).bind fun first => operators_relaxes he budget 0 first

end

theorem rangeFrom_relaxes {v w : Reader Expr} (hv : Relaxes limit v w) (start : Option Expr)
    (inclusive : Bool) :
    Relaxes limit (rangeFrom v start inclusive) (rangeFrom w start inclusive) := by
  refine .after fun _ => .after fun op => ?_
  -- Both ways of learning whether the range has an end go on in the same way.
  refine Relaxes.ite (Relaxes.bind (.refl limit _) ?after) (Relaxes.bind (.refl limit _) ?after)
  intro bounded
  exact Relaxes.ite (c := bounded = true) (hv.bind fun stop => .refl limit _) (.refl limit _)

theorem ranged_relaxes {v w : Reader Expr} (hv : Relaxes limit v w) :
    Relaxes limit (ranged v) (ranged w) := by
  refine .after fun found => ?_
  cases found with
  | some inclusive => exact rangeFrom_relaxes hv none inclusive
  | none =>
    refine hv.bind fun x => .after fun found => ?_
    cases found with
    | some inclusive => exact rangeFrom_relaxes hv (some x) inclusive
    | none => exact .refl limit _

theorem exprWithin_heeds (limit budget : Nat) : Heeds (exprWithin limit budget) := by
  cases budget with
  | zero => rw [exprWithin_zero]; exact tooDeep_heeds limit
  | succ budget =>
    rw [exprWithin_succ]
    exact (peek_heeds.bind _ : Heeds range?).bind _

theorem exprWithin_relaxes (limit high more budget : Nat) :
    Relaxes limit (exprWithin limit budget) (exprWithin high (more + budget)) := by
  induction budget using Nat.strongRecOn with
  | ind budget ih =>
    cases budget with
    | zero =>
      rw [exprWithin_zero]
      exact tooDeep_relaxes (exprWithin_heeds high more)
    | succ budget =>
      rw [exprWithin_succ, ← Nat.add_assoc, exprWithin_succ]
      refine ranged_relaxes (operation_relaxes (fun k => ?_) budget)
      by_cases hk : k ≤ budget
      · rw [if_pos hk, if_pos (Nat.add_le_add_left hk more)]
        exact ih k (Nat.lt_succ_of_le hk)
      · rw [if_neg hk]
        rw [if_neg (fun hle => hk (Nat.le_of_add_le_add_left hle))]
        exact tooDeep_relaxes (tooDeep_heeds high)

/-! ## Patterns -/

section

variable {v w : Reader Pattern} (hv : Relaxes limit v w)

include hv

theorem fieldPattern_relaxes : Relaxes limit (fieldPattern v) (fieldPattern w) := by
  refine .after fun found => ?_
  cases found with
  | some l => exact .refl limit _
  | none =>
    exact .after fun name => .after fun _ => .ite (hv.bind fun p => .refl limit _) (.refl limit _)

theorem structPattern_relaxes (global : Bool) (first : Ident) (start : Span) :
    Relaxes limit (structPattern v global first start) (structPattern w global first start) := by
  refine .after fun more => .after fun _ => .ite ?_ ?_
  · exact (seq_relaxes hv _).bind fun s => .refl limit _
  · refine .after fun _ => .ite ?_ (.refl limit _)
    exact (seq_relaxes (fieldPattern_relaxes hv) _).bind fun s => .refl limit _

theorem patternAtom_relaxes : Relaxes limit (patternAtom v) (patternAtom w) := by
  refine .after fun found => ?_
  cases found with
  | none => exact .refl limit _
  | some l =>
    dsimp only
    split
    · exact .refl limit _
    · exact .refl limit _
    · exact .after fun first => structPattern_relaxes hv true first l.span
    · exact (seq_relaxes hv _).bind fun s => .refl limit _
    · exact (seq_relaxes hv _).bind fun s => .refl limit _
    · refine .after fun _ => .ite (.refl limit _) (.ite (.refl limit _) (.ite ?_ (.refl limit _)))
      exact .after fun first => structPattern_relaxes hv false first l.span

theorem alternatives_relaxes : Relaxes limit (alternatives v) (alternatives w) := by
  have halternative : Relaxes limit (alternative? v) (alternative? w) := by
    refine .after fun _ => .ite (hv.map _) ?_
    exact .after fun _ => .ite (hv.map _) (.refl limit _)
  exact hv.bind fun first => (many_relaxes halternative).bind fun rest => .refl limit _

end

theorem patternWithin_heeds (limit budget : Nat) : Heeds (patternWithin limit budget) := by
  cases budget with
  | zero => exact tooDeep_heeds limit
  | succ budget => exact (next_heeds.bind _ : Heeds (patternAtom _)).bind _

theorem patternWithin_relaxes (limit high more budget : Nat) :
    Relaxes limit (patternWithin limit budget) (patternWithin high (more + budget)) := by
  induction budget with
  | zero => exact tooDeep_relaxes (patternWithin_heeds high more)
  | succ budget ih => exact alternatives_relaxes (patternAtom_relaxes ih)

/-! ## Statements -/

variable (limit more : Nat)

theorem expr_relaxes : Relaxes limit (expr limit) (expr (more + limit)) :=
  exprWithin_relaxes limit (more + limit) more limit

theorem pattern_relaxes : Relaxes limit (pattern limit) (pattern (more + limit)) :=
  patternWithin_relaxes limit (more + limit) more limit

theorem armPattern_relaxes : Relaxes limit (armPattern limit) (armPattern (more + limit)) := by
  refine (pattern_relaxes limit more).bind fun base => .after fun _ => .ite ?_ (.refl limit _)
  refine .after fun found => ?_
  cases found with
  | none => exact .refl limit _
  | some opening =>
    dsimp only
    split
    · exact .refl limit _
    · exact (seq_relaxes (pattern_relaxes limit more) _).bind fun s => .refl limit _

variable {limit} in
theorem after?_relaxes {p q : Reader α} (h : Relaxes limit p q) (token : Token) :
    Relaxes limit (after? token p) (after? token q) :=
  .after fun _ => .ite (h.map _) (.refl limit _)

theorem cond_relaxes : Relaxes limit (cond limit) (cond (more + limit)) := by
  refine .after fun _ => .ite ?_ ?_
  · refine (pattern_relaxes limit more).bind fun p => .after fun _ => ?_
    exact (expr_relaxes limit more).bind fun v => .refl limit _
  · exact (expr_relaxes limit more).bind fun c => .refl limit _

theorem param_relaxes : Relaxes limit (param limit) (param (more + limit)) :=
  .after fun _ => (after?_relaxes (expr_relaxes limit more) _).bind fun _ => .refl limit _

theorem assign_relaxes (word : LetWord) :
    Relaxes limit (assign limit word) (assign (more + limit) word) := by
  refine .after fun _ => (pattern_relaxes limit more).bind fun p => ?_
  exact (after?_relaxes (expr_relaxes limit more) _).bind fun _ => .refl limit _

theorem forLoop_relaxes : Relaxes limit (forLoop limit) (forLoop (more + limit)) := by
  refine (pattern_relaxes limit more).bind fun p => .after fun _ => ?_
  refine (expr_relaxes limit more).bind fun iterable => ?_
  exact (after?_relaxes (expr_relaxes limit more) _).bind fun _ => .refl limit _

theorem macroDef_relaxes : Relaxes limit (macroDef limit) (macroDef (more + limit)) :=
  .after fun _ => .after fun _ => (seq_relaxes (param_relaxes limit more) _).bind fun _ =>
    .refl limit _

theorem callBlock_relaxes : Relaxes limit (callBlock limit) (callBlock (more + limit)) :=
  .after fun _ => (expr_relaxes limit more).bind fun _ => .refl limit _

theorem filterBlock_relaxes : Relaxes limit (filterBlock limit) (filterBlock (more + limit)) := by
  refine (filter_relaxes (expr_relaxes limit more)).bind fun first => ?_
  exact (many_relaxes (filter?_relaxes (expr_relaxes limit more))).bind fun _ => .refl limit _

/-- A keyword begins a statement under every limit or under none. -/
theorem stmtKind?_relaxes (k : Keyword) :
    Option.Rel (Relaxes limit) (stmtKind? limit k) (stmtKind? (more + limit) k) := by
  cases k with
  | letKw | setKw => exact .some (assign_relaxes limit more _)
  | forKw => exact .some (forLoop_relaxes limit more)
  | ifKw | elif => exact .some ((cond_relaxes limit more).map _)
  | elseKw =>
    exact .some ((after?_relaxes (cond_relaxes limit more) _).bind fun _ => .refl limit _)
  | matchKw => exact .some ((expr_relaxes limit more).map _)
  | whenKw => exact .some ((armPattern_relaxes limit more).map _)
  | macroKw => exact .some (macroDef_relaxes limit more)
  | callKw => exact .some (callBlock_relaxes limit more)
  | filterKw => exact .some (filterBlock_relaxes limit more)
  | blockKw | endBlock | extendsKw | includeKw | importKw | endFor | breakKw | continueKw | endIf
  | endMatch | endWhen | endMacro | endCall | endFilter | rawKw | endRaw =>
    exact .some (.refl limit _)
  | _ => exact .none

theorem stmt_relaxes : Relaxes limit (stmt limit) (stmt (more + limit)) := by
  refine .after fun found => ?_
  cases found with
  | none => exact .refl limit _
  | some l =>
    dsimp only
    split
    · next k hk =>
      have hkind := stmtKind?_relaxes limit more k
      generalize (stmtKind? limit k : Option (Reader StmtKind)) = low at hkind ⊢
      generalize (stmtKind? (more + limit) k : Option (Reader StmtKind)) = high at hkind ⊢
      cases hkind with
      | none => exact .refl limit _
      | some hbody => exact hbody.bind fun kind => .refl limit _
    · exact .refl limit _

end Reader

end Stencil
