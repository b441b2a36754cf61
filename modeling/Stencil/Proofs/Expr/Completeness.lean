/-
  Completeness — a normal expression is read back from its listing.

  The counterpart of `Stencil.Proofs.Expr.Soundness`: there a reader was run and its result looked at,
  here an expression and one of its listings are given, and the readers are followed on it, layer by
  layer.  What comes after the listing matters: a layer stops only where the next token does not
  belong to it, so each lemma says which tokens may follow.

  A reader in the middle of a loop has something read already.  The lemmas about loops therefore say
  that reading the listing of `e` leaves the loop at the point where it has `e` and goes on with what
  follows; so a left operand is read by the same loop as the whole.  For operators (`LoopReaches`) this
  needs that the one that follows can take `e` as its left operand, else an inner loop would take it.

  Nesting costs budget.  No listing is shorter than the budget its reading needs, which is how all
  bounds on budgets are found: they are bounds on lengths.
-/
import Stencil.Proofs.Expr.Front
import Stencil.Proofs.Expr.Soundness

namespace Stencil

/-- Whether the token can stand after a full expression. -/
def Token.isStop : Token → Bool
  | .rparen | .rbracket | .comma | .endExpr => true
  | _ => false

/-- No suffix, no test and no path goes on with the token: an operand before it is complete. -/
structure Token.Ends (t : Token) : Prop where
  suffix : Reader.isSuffix t = false
  test : t ≠ .keyword .isKw
  path : t ≠ .pathSep

/-- What can stand after a full expression ends operands, and goes on with no operator or operand. -/
theorem Token.of_isStop {t : Token} (h : t.isStop = true) :
    t.Ends ∧ Reader.operator? t = none ∧ Reader.startsOperand t = false := by
  have hall : ∀ t ∈ [Token.rparen, .rbracket, .comma, .endExpr], Reader.isSuffix t = false ∧
      t ≠ .keyword .isKw ∧ t ≠ .pathSep ∧ (Reader.operator? t).isNone = true ∧
      Reader.startsOperand t = false := by
    decide
  have hmem : t ∈ [Token.rparen, .rbracket, .comma, .endExpr] := by
    cases t with
    | rparen => decide
    | rbracket => decide
    | comma => decide
    | endExpr => decide
    | _ => cases h
  obtain ⟨hsuffix, htest, hpath, hnone, hstarts⟩ := hall t hmem
  exact ⟨⟨hsuffix, htest, hpath⟩, Option.isNone_iff_eq_none.1 hnone, hstarts⟩

theorem Token.ends_rangeToken (inclusive : Bool) : (rangeToken inclusive).Ends := by
  cases inclusive <;> exact ⟨rfl, by decide, by decide⟩

theorem BinOp.ends_token (op : BinOp) : op.token.Ends := by
  cases op <;> exact ⟨rfl, by decide, by decide⟩

theorem isStop_of_isName {t : Token} (h : t.isName = true) : t.isStop = false := by
  cases t with
  | ident => rfl
  | keyword k => rfl
  | _ => cases h

/-- An expression begins with no token that can stand after one. -/
theorem Expr.Normal.firstToken_isStop [Letters] {e : Expr} (hn : e.Normal) :
    e.firstToken.isStop = false := by
  rcases hn.starts with hstarts | hif | ⟨inclusive, hrange⟩
  · cases ht : e.firstToken with
    | rparen => rw [ht] at hstarts; cases hstarts
    | rbracket => rw [ht] at hstarts; cases hstarts
    | comma => rw [ht] at hstarts; cases hstarts
    | endExpr => rw [ht] at hstarts; cases hstarts
    | _ => rfl
  · rw [hif]; rfl
  · rw [hrange]; cases inclusive <;> rfl

section

variable {q : Quoting} {P : Span → List Lexeme → Prop} {ls : List Lexeme}

/-- An expression does not begin with a token that closes a list. -/
theorem Expr.Spelled.head_ne [Letters] {e : Expr} (hn : e.Normal) (h : e.Spelled q P ls) {close : Token}
    (hclose : close.isStop = true) : ∃ l b, ls = l :: b ∧ l.token ≠ close := by
  obtain ⟨l, b, rfl, hl⟩ := h.head hn
  refine ⟨l, b, rfl, ?_⟩
  rintro rfl
  rw [hl, hn.firstToken_isStop] at hclose
  cases hclose

theorem Arg.SpelledBy.head_ne [Letters] {x : Arg} (h : x.SpelledBy P (Expr.Spelled q P) ls)
    (hx : x.value.Normal) (hname : ∀ i ∈ x.name?, isName i.name = true) {close : Token}
    (hclose : close.isStop = true) : ∃ l b, ls = l :: b ∧ l.token ≠ close := by
  cases h with
  | positional he => exact he.head_ne hx hclose
  | @named i e l m ls hi hm he =>
    refine ⟨l, m :: ls, rfl, ?_⟩
    rintro rfl
    have hl : l.token.isName = true := by rw [hi.1.1]; exact isName_wordToken (hname i rfl)
    rw [isStop_of_isName hl] at hclose
    cases hclose

/-- After a filter comes the next bar or what ends the row. -/
theorem FiltersSpelled.next {fs : List Filter} {c : Lexeme}
    (h : FiltersSpelled P (Expr.Spelled q P) fs ls) (hc : c.token ≠ .lparen) (more : List Lexeme) :
    ∃ l rest, ls ++ c :: more = l :: rest ∧ l.token ≠ .lparen := by
  cases h with
  | nil => exact ⟨c, more, rfl, hc⟩
  | cons hbar hf h => exact ⟨_, _, rfl, by rw [hbar.1]; decide⟩

/-- Filters are a row of bars with filters after them. -/
theorem FiltersSpelled.row {fs : List Filter} (h : FiltersSpelled P (Expr.Spelled q P) fs ls) :
    Row (fun f a => ∃ bar b, a = bar :: b ∧ bar.Is .pipe ∧ f.SpelledBy P (Expr.Spelled q P) b)
      fs ls := by
  induction h with
  | nil => exact .nil
  | cons hbar hf _ ih => exact .cons ⟨_, _, rfl, hbar, hf⟩ (List.cons_ne_nil _ _) ih

/-- Segments are a row of double colons with names after them. -/
theorem SegmentsSpelled.row {segments : List Ident} (h : SegmentsSpelled P segments ls) :
    Row (fun i a => ∃ sep l, a = [sep, l] ∧ sep.Is .pathSep ∧ i.Spelled P l) segments ls := by
  induction h with
  | nil => exact .nil
  | cons hsep hi _ ih => exact .cons ⟨_, _, rfl, hsep, hi⟩ (List.cons_ne_nil _ _) ih

end

namespace Reader

/-- The reader reads back full expressions with fewer than `n` lexemes. -/
def ReadsBack [Letters] (q : Quoting) (P : Span → List Lexeme → Prop) (stop : Lexer.Stop)
    (value : Reader Expr) (n : Nat) : Prop :=
  ∀ (e : Expr) (ls : List Lexeme) (c : Lexeme) (more : List Lexeme), e.Normal → e.Spelled q P ls →
    ls.length < n → c.token.isStop = true →
    value (bareFeed stop (ls ++ c :: more)) = .ok (bare e, bareFeed stop (c :: more))

variable {q : Quoting} {P : Span → List Lexeme → Prop} {stop : Lexer.Stop}
  {c : Lexeme} {ls more : List Lexeme}

section

variable [Letters] {value : Reader Expr} {n : Nat} (hv : ReadsBack q P stop value n)

/-! ## Arguments and filters -/

omit [Letters] in
theorem startsNamed_of_named {l m : Lexeme} (hl : l.token.isName = true) (hm : m.token = .eq) :
    startsNamed (bareFeed stop (l :: m :: ls)) = .ok (true, bareFeed stop (l :: m :: ls)) := by
  unfold startsNamed
  rw [bind_of_ok peek_bare, if_pos (by rw [Option.any_some, token_bare, hl]), secondIs_bare, hm,
    beq_self_eq_true]

include hv

theorem arg_bare {x : Arg} (h : x.SpelledBy P (Expr.Spelled q P) ls) (hx : x.value.Normal)
    (hname : ∀ i ∈ x.name?, isName i.name = true) (hlength : ls.length < n)
    (hc : c.token.isStop = true) :
    arg value (bareFeed stop (ls ++ c :: more)) = .ok (bare x, bareFeed stop (c :: more)) := by
  cases h with
  | @positional e ls he =>
    have hne : c.token ≠ .eq := by intro heq; rw [heq] at hc; cases hc
    unfold arg
    rw [bind_of_ok (startsNamed_bare hx he hne), if_neg Bool.false_ne_true,
      bind_of_ok (hv e ls c more hx he hlength hc)]
    rfl
  | @named i e l m ls hi hm he =>
    have hisName : isName i.name = true := hname i rfl
    have hl : l.token.isName = true := by rw [hi.1.1]; exact isName_wordToken hisName
    simp only [List.length_cons] at hlength
    unfold arg
    rw [List.cons_append, List.cons_append, bind_of_ok (startsNamed_of_named hl hm.1), if_pos rfl,
      bind_of_ok (ident_of_spelled hi hisName), bind_of_ok (expect_of_eq hm.1),
      bind_of_ok (hv e ls c more hx he (by omega) hc)]
    rfl

theorem args_bare {xs : Args} (h : xs.SpelledBy P (Expr.Spelled q P) ls)
    (hvalues : ∀ x ∈ xs.values, x.Normal) (hnames : xs.NamesOk) (hlength : ls.length ≤ n + 1)
    (rest : List Lexeme) :
    args value (bareFeed stop (ls ++ rest)) = .ok (bare xs, bareFeed stop rest) := by
  cases h with
  | @mk items trailing s o c inner ho hitems hc hs =>
    simp only [List.length_cons, List.length_append, List.length_nil] at hlength
    have hseq : seq .rparen (arg value) (bareFeed stop (inner ++ c :: rest)) =
        .ok (⟨bare items, trailing, ⟨0, 0⟩⟩, bareFeed stop rest) := by
      refine seq_bare ?_ ?_ (by decide) hitems.bounded hc.1
      · rintro x a c' more ⟨hx, hmem, hle⟩ hc'
        refine arg_bare hv hx (hvalues _ (List.mem_map_of_mem hmem)) (hnames x hmem) (by omega) ?_
        rcases hc' with hc' | hc' <;> rw [hc'] <;> rfl
      · rintro x a ⟨hx, hmem, -⟩
        exact hx.head_ne (hvalues _ (List.mem_map_of_mem hmem)) (hnames x hmem) rfl
    unfold args
    rw [List.cons_append, List.append_assoc, List.singleton_append, bind_of_ok (expect_of_eq ho.1),
      bind_of_ok hseq]
    rw [Args.bare_mk]
    rfl

theorem filter_bare {f : Filter} (h : f.SpelledBy P (Expr.Spelled q P) ls)
    (hvalues : ∀ x ∈ f.values, x.Normal) (hnames : f.NamesOk) (hlength : ls.length ≤ n + 2)
    (hc : c.token ≠ .lparen) :
    filter value (bareFeed stop (ls ++ c :: more)) = .ok (bare f, bareFeed stop (c :: more)) := by
  cases h with
  | @plain i s l hi hs =>
    unfold filter
    rw [List.singleton_append, bind_of_ok (ident_of_spelled hi hnames.1),
      bind_of_ok (nextIs_of_ne hc)]
    rfl
  | @given i xs s l inner hi hxs hs =>
    simp only [List.length_cons] at hlength
    have hargs := args_bare hv hxs hvalues (hnames.2 xs rfl) (by omega) (c :: more)
    have hopen : nextIs .lparen (bareFeed stop (inner ++ c :: more)) =
        .ok (true, bareFeed stop (inner ++ c :: more)) := by
      cases hxs with
      | mk ho hitems hc hs => exact nextIs_of_eq ho.1
    unfold filter
    rw [List.cons_append, bind_of_ok (ident_of_spelled hi hnames.1), bind_of_ok hopen, if_pos rfl,
      bind_of_ok hargs]
    rw [Args.span_bare, Filter.bare_mk]
    rfl

/-- A row of filters is read up to the first token that is no bar. -/
theorem filters_bare {fs : List Filter} (h : FiltersSpelled P (Expr.Spelled q P) fs ls)
    (hvalues : ∀ f ∈ fs, ∀ x ∈ f.values, x.Normal) (hnames : ∀ f ∈ fs, f.NamesOk)
    (hlength : ls.length ≤ n + 2) (hpipe : c.token ≠ .pipe) (hparen : c.token ≠ .lparen) :
    many (filter? value) (bareFeed stop (ls ++ c :: more)) =
      .ok (bare fs, bareFeed stop (c :: more)) := by
  have hnone : filter? value (bareFeed stop (c :: more)) = .ok (none, bareFeed stop (c :: more)) := by
    unfold filter?
    rw [bind_of_ok (eats_of_ne hpipe)]
    rfl
  -- A filter ends where no argument list follows it.
  refine many_bare (G := fun rest => ∃ l b, rest = l :: b ∧ l.token ≠ .lparen) ?_ ?_
    ⟨c, more, rfl, hparen⟩ hnone h.row.bounded
  · rintro f _ _ ⟨⟨bar, a, rfl, hbar, hf⟩, hmem, hle⟩ ⟨l, b, rfl, hl⟩
    rw [List.length_cons] at hle
    have hread : filter value (bareFeed stop (a ++ l :: b)) = .ok (bare f, bareFeed stop (l :: b)) :=
      filter_bare hv hf (hvalues f hmem) (hnames f hmem) (by omega) hl
    unfold filter?
    rw [List.cons_append, bind_of_ok (eats_of_eq hbar.1), if_pos rfl, map_of_ok hread]
  · rintro f _ rest ⟨⟨bar, a, rfl, hbar, -⟩, -⟩
    exact ⟨bar, a ++ rest, rfl, by rw [hbar.1]; decide⟩

/-! ## Paths and macro calls -/

omit hv in
/-- Segments are read up to where there is no further one. -/
theorem segments_bare {segments : List Ident} (h : SegmentsSpelled P segments ls)
    (hnames : ∀ i ∈ segments, isName i.name = true) {rest : List Lexeme}
    (hend : segment? (bareFeed stop rest) = .ok (none, bareFeed stop rest)) :
    many segment? (bareFeed stop (ls ++ rest)) = .ok (bare segments, bareFeed stop rest) := by
  refine many_bare (G := fun _ => True) ?_ (fun _ _ _ _ => trivial) trivial hend h.row.bounded
  rintro i _ more ⟨⟨sep, l, rfl, hsep, hi⟩, hmem, -⟩ -
  have hword : (l.token == Token.macroName) = false :=
    beq_eq_false_iff_ne.2 hi.token_ne_macroName
  unfold segment?
  rw [List.cons_append, List.singleton_append, bind_of_ok (nextIs_of_eq hsep.1), if_pos rfl,
    bind_of_ok (secondIs_bare _), hword, if_neg Bool.false_ne_true, bind_of_ok next_bare,
    map_of_ok (ident_of_spelled hi (hnames i hmem))]

omit [Letters] hv in
/-- The name of a macro is left to be read with the call. -/
theorem segment?_of_macroName {sep m : Lexeme} (hsep : sep.token = .pathSep)
    (hm : m.token = .macroName) :
    segment? (bareFeed stop (sep :: m :: ls)) = .ok (none, bareFeed stop (sep :: m :: ls)) := by
  unfold segment?
  rw [bind_of_ok (nextIs_of_eq hsep), if_pos rfl, bind_of_ok (secondIs_bare _), hm]
  rfl

theorem macroCall_bare {global : Bool} {before : List Ident} {i : Ident} {m : Lexeme} {xs : Args}
    {s s' : Span} (hm : m.IsMark i.name) (hxs : xs.SpelledBy P (Expr.Spelled q P) ls)
    (hvalues : ∀ x ∈ xs.values, x.Normal) (hnames : xs.NamesOk) (hlength : ls.length ≤ n + 1)
    (rest : List Lexeme) :
    macroCall value global (bare before) ⟨0, 0⟩ (bare m) (bareFeed stop (ls ++ rest)) =
      .ok (bare (.macroCall ⟨global, before ++ [i], s⟩ xs s'), bareFeed stop rest) := by
  have hname : String.ofList m.text.dropLast = i.name := by
    rw [hm.2, List.dropLast_concat, String.ofList_toList]
  have hsegments : bare (before ++ [i]) = bare before ++ [bare i] := List.map_append
  rw [macroCall, stem_bind_feed]
  dsimp only
  rw [bind_of_ok (args_bare hv hxs hvalues hnames hlength rest), Args.span_bare, text_bare, hname]
  show _ = Except.ok (Expr.macroCall ⟨global, bare (before ++ [i]), ⟨0, 0⟩⟩ (bare xs) ⟨0, 0⟩, _)
  rw [hsegments]
  rfl

theorem macroSegment_bare {global : Bool} {before : List Ident} {i : Ident} {m : Lexeme}
    {xs : Args} {s s' : Span} (hm : m.IsMark i.name) (hxs : xs.SpelledBy P (Expr.Spelled q P) ls)
    (hvalues : ∀ x ∈ xs.values, x.Normal) (hnames : xs.NamesOk) (hlength : ls.length ≤ n + 1)
    (rest : List Lexeme) :
    macroSegment value global (bare before) ⟨0, 0⟩ (bareFeed stop (m :: (ls ++ rest))) =
      .ok (bare (.macroCall ⟨global, before ++ [i], s⟩ xs s'), bareFeed stop rest) := by
  unfold macroSegment
  rw [bind_of_ok next_bare]
  dsimp only
  rw [token_bare, if_pos hm.1, macroCall_bare hv hm hxs hvalues hnames hlength rest]

omit [Letters] hv in
theorem span_getLastD_bare (i : Ident) (more : List Ident) :
    ((bare i :: bare more).getLastD (bare i)).span = ⟨0, 0⟩ := by
  have hmem : (bare i :: bare more).getLastD (bare i) ∈ bare (i :: more) := by
    show (bare i :: bare more).getLastD (bare i) ∈ bare i :: bare more
    rw [List.getLastD_cons]
    exact List.getLastD_mem_cons
  obtain ⟨j, -, hj⟩ := List.mem_map.1 hmem
  rw [← hj]
  rfl

omit hv in
/-- After its first name a path goes on as a plain path or as the path of a macro call. -/
theorem pathExpr_bare {global : Bool} {i : Ident} {segments : List Ident} {s s' : Span}
    (h : SegmentsSpelled P segments ls) (hnames : ∀ j ∈ segments, isName j.name = true)
    (hc : c.token ≠ .pathSep) :
    pathExpr value global (bare i) ⟨0, 0⟩ (bareFeed stop (ls ++ c :: more)) =
      .ok (bare (.path ⟨global, i :: segments, s⟩ s'), bareFeed stop (c :: more)) := by
  rw [pathExpr_feed]
  rw [bind_of_ok (segments_bare h hnames (segment?_of_ne (l := bare c) rfl hc)), bind_of_ok (eats_of_ne hc),
    if_neg Bool.false_ne_true, span_getLastD_bare]
  rfl

theorem pathExpr_macro {global : Bool} {i j : Ident} {segments : List Ident} {sep m : Lexeme}
    {xs : Args} {s s' : Span} {a b : List Lexeme} (h : SegmentsSpelled P segments a)
    (hsegments : ∀ j ∈ segments, isName j.name = true) (hsep : sep.Is .pathSep)
    (hm : m.IsMark j.name) (hxs : xs.SpelledBy P (Expr.Spelled q P) b)
    (hvalues : ∀ x ∈ xs.values, x.Normal) (hnames : xs.NamesOk) (hlength : b.length ≤ n + 1)
    (rest : List Lexeme) :
    pathExpr value global (bare i) ⟨0, 0⟩ (bareFeed stop (a ++ sep :: m :: (b ++ rest))) =
      .ok (bare (.macroCall ⟨global, i :: (segments ++ [j]), s⟩ xs s'), bareFeed stop rest) := by
  have hmacro : macroSegment value global (bare (i :: segments)) ⟨0, 0⟩
      (bareFeed stop (m :: (b ++ rest))) =
        .ok (bare (.macroCall ⟨global, (i :: segments) ++ [j], s⟩ xs s'), bareFeed stop rest) :=
    macroSegment_bare hv hm hxs hvalues hnames hlength rest
  rw [pathExpr_feed]
  rw [bind_of_ok (segments_bare h hsegments (segment?_of_macroName hsep.1 hm.1)),
    bind_of_ok (eats_of_eq hsep.1), if_pos rfl]
  exact hmacro

/-! ## Primaries -/

omit [Letters] hv in
theorem primary_of_literal {l : Lexeme} (h : isLiteral l.token = true) :
    primary value (bareFeed stop (l :: ls)) =
      (do return .lit (← literalOf (bare l) false) (bare l).span : Reader Expr)
        (bareFeed stop ls) := by
  unfold primary
  rw [bind_of_ok next_bare]
  dsimp only
  rw [token_bare]
  cases ht : l.token with
  | number => rfl
  | str => rfl
  | char => rfl
  | keyword k =>
    rw [ht] at h
    dsimp only
    rw [if_pos h]
  | _ => rw [ht] at h; cases h

omit [Letters] hv in
theorem primary_of_name {l : Lexeme} (h : l.token.isName = true) :
    primary value (bareFeed stop (l :: ls)) = named value (bare l) (bareFeed stop ls) := by
  unfold primary
  rw [bind_of_ok next_bare]
  dsimp only
  rw [token_bare]
  cases ht : l.token with
  | ident => rfl
  | keyword k =>
    rw [ht] at h
    -- The truth values are reserved, so no name is a constant.
    have hliteral : isLiteral (.keyword k) = false := by
      revert h
      cases k <;> decide
    dsimp only
    rw [if_neg (by rw [hliteral]; exact Bool.false_ne_true), if_pos h]
  | _ => rw [ht] at h; cases h

omit [Letters] hv in
theorem primary_of_minus {l : Lexeme} (h : l.token = .minus) :
    primary value (bareFeed stop (l :: ls)) = negative (bare l) (bareFeed stop ls) := by
  unfold primary
  rw [bind_of_ok next_bare]
  dsimp only
  rw [token_bare, h]

omit [Letters] hv in
theorem primary_of_pathSep {l : Lexeme} (h : l.token = .pathSep) :
    primary value (bareFeed stop (l :: ls)) = globalPath value (bare l) (bareFeed stop ls) := by
  unfold primary
  rw [bind_of_ok next_bare]
  dsimp only
  rw [token_bare, h]

omit [Letters] hv in
theorem primary_of_macroName {l : Lexeme} (h : l.token = .macroName) :
    primary value (bareFeed stop (l :: ls)) = macroCall value false [] ⟨0, 0⟩ (bare l) (bareFeed stop ls) := by
  unfold primary
  rw [bind_of_ok next_bare]
  dsimp only
  rw [token_bare, h]
  rfl

omit [Letters] hv in
theorem primary_of_lparen {l : Lexeme} (h : l.token = .lparen) :
    primary value (bareFeed stop (l :: ls)) = parenthesized value (bare l) (bareFeed stop ls) := by
  unfold primary
  rw [bind_of_ok next_bare]
  dsimp only
  rw [token_bare, h]

omit [Letters] hv in
theorem primary_of_lbracket {l : Lexeme} (h : l.token = .lbracket) :
    primary value (bareFeed stop (l :: ls)) = bracketed value (bare l) (bareFeed stop ls) := by
  unfold primary
  rw [bind_of_ok next_bare]
  dsimp only
  rw [token_bare, h]

omit [Letters] hv in
theorem literalOf_number {m : Number} {l : Lexeme} {feed : Feed} (ht : l.token = .number)
    (hr : l.text = m.raw.toList) (hm : m.IsWritten) :
    literalOf (bare l) m.negative feed = .ok (.num m, feed) := by
  rw [literalOf_feed, Feed.literalOf]
  rw [token_bare, ht]
  dsimp only
  rw [text_bare, hr, hm.2]
  rfl

omit [Letters] hv in
theorem textOf_bare {v : String} {l : Lexeme} (h : q.text v l.text) (feed : Feed) :
    textOf (bare l) feed = .ok (v, feed) := by
  obtain ⟨body, htext, -, hvalue⟩ := q.text_quoted h
  rw [textOf_feed, Feed.textOf]
  rw [quotedBody_of_eq (l := bare l) htext, hvalue]
  show Except.ok (String.ofList v.toList, _) = _
  rw [String.ofList_toList]

omit [Letters] hv in
/-- A constant that has one lexeme is read from it. -/
theorem literalOf_bare {v : Literal} {l : Lexeme} (h : v.Spelled q [l])
    (hn : ∀ n, v = .num n → n.IsWritten) (feed : Feed) :
    isLiteral l.token = true ∧ literalOf (bare l) false feed = .ok (v, feed) := by
  cases h with
  | @str v l ht hv =>
    refine ⟨by rw [ht]; rfl, ?_⟩
    rw [literalOf_feed, Feed.literalOf]
    rw [token_bare, ht]
    exact map_of_ok (textOf_bare hv feed)
  | @char v l ht hv =>
    obtain ⟨body, htext, -, hvalue⟩ := q.char_quoted hv
    have hcharOf : Feed.charOf (bare l) feed = .ok (v, feed) := by
      unfold Feed.charOf
      rw [quotedBody_of_eq (l := bare l) htext, hvalue]
      rfl
    refine ⟨by rw [ht]; rfl, ?_⟩
    rw [literalOf_feed, Feed.literalOf]
    rw [token_bare, ht]
    exact map_of_ok hcharOf
  | @num m l hneg ht hr =>
    refine ⟨by rw [ht]; rfl, ?_⟩
    rw [← hneg]
    exact literalOf_number ht hr (hn m rfl)
  | @bool b l hb =>
    refine ⟨by rw [hb.1]; cases b <;> rfl, ?_⟩
    rw [literalOf_feed, Feed.literalOf]
    rw [token_bare, hb.1]
    cases b <;> rfl

omit hv in
/-- A constant is read back. -/
theorem literal_bare {v : Literal} {s : Span} (h : v.Spelled q ls)
    (hn : (Expr.lit v s).NodeNormal) (rest : List Lexeme) :
    primary value (bareFeed stop (ls ++ rest)) = .ok (bare (.lit v s), bareFeed stop rest) := by
  -- All constants but the negative numbers have one lexeme.
  have hone : ∀ {l : Lexeme}, v.Spelled q [l] →
      primary value (bareFeed stop ([l] ++ rest)) = .ok (bare (.lit v s), bareFeed stop rest) := by
    intro l hl
    obtain ⟨hliteral, hvalue⟩ := literalOf_bare hl (by rintro n rfl; exact hn) (bareFeed stop rest)
    rw [List.singleton_append, primary_of_literal hliteral, bind_of_ok hvalue]
    rfl
  cases h with
  | str ht hv => exact hone (.str ht hv)
  | char ht hv => exact hone (.char ht hv)
  | num hneg ht hr => exact hone (.num hneg ht hr)
  | bool hb => exact hone (.bool hb)
  | @negative m minus l hneg hminus ht hr =>
    have hvalue : literalOf (bare l) true (bareFeed stop rest) =
        .ok (.num m, bareFeed stop rest) := by
      rw [← hneg]
      exact literalOf_number ht hr hn
    rw [List.cons_append, primary_of_minus hminus.1]
    unfold negative
    rw [List.singleton_append, bind_of_ok next_bare]
    dsimp only
    rw [bind_of_ok hvalue]
    rfl

/-- A list of expressions is read back up to its bracket. -/
theorem exprs_bare {es : List Expr} {trailing : Bool} {close : Token}
    (h : Commas (Expr.Spelled q P) es trailing ls) (hes : ∀ x ∈ es, x.Normal)
    (hlength : ls.length < n) (hstop : close.isStop = true) (hclose : close ≠ .comma)
    (hc : c.token = close) :
    seq close value (bareFeed stop (ls ++ c :: more)) =
      .ok (⟨bare es, trailing, ⟨0, 0⟩⟩, bareFeed stop more) := by
  refine seq_bare ?_ ?_ hclose h.bounded hc
  · rintro x a c' more ⟨hx, hmem, hle⟩ hc'
    refine hv x a c' more (hes x hmem) hx (by omega) ?_
    rcases hc' with hc' | hc' <;> rw [hc']
    · rfl
    · exact hstop
  · rintro x a ⟨hx, hmem, -⟩
    exact hx.head_ne (hes x hmem) hstop

/-- What stands in parentheses is read back as what it was. -/
theorem parenthesized_bare {es : List Expr} {trailing : Bool} {e : Expr} {o : Lexeme}
    (h : Commas (Expr.Spelled q P) es trailing ls) (hes : ∀ x ∈ es, x.Normal)
    (hlength : ls.length < n) (hc : c.token = .rparen)
    (he : (match bare es, trailing with
      | [], _ => Expr.unit ⟨0, 0⟩
      | [x], false => .group x ⟨0, 0⟩
      | xs, _ => .tuple xs ⟨0, 0⟩) = bare e) :
    parenthesized value (bare o) (bareFeed stop (ls ++ c :: more)) =
      .ok (bare e, bareFeed stop more) := by
  unfold parenthesized
  rw [bind_of_ok (exprs_bare hv h hes hlength rfl (by decide) hc)]
  dsimp only
  rw [← he]
  match es, trailing with
  | [], _ => rfl
  | [x], false => rfl
  | [x], true => rfl
  | x :: y :: xs, _ => rfl

omit hv in
/-- A double colon and a name begin a global path. -/
theorem primary_global {i : Ident} {sep l : Lexeme} (hsep : sep.Is .pathSep) (hi : i.Spelled P l)
    (hname : isName i.name = true) :
    primary value (bareFeed stop (sep :: l :: ls)) =
      pathExpr value true (bare i) ⟨0, 0⟩ (bareFeed stop ls) := by
  rw [primary_of_pathSep hsep.1]
  unfold globalPath
  rw [bind_of_ok (nextIs_of_ne hi.token_ne_macroName), if_neg Bool.false_ne_true,
    bind_of_ok (ident_of_spelled hi hname)]
  rfl

omit hv in
/-- A name before a double colon begins a path. -/
theorem primary_relative {i : Ident} {l : Lexeme} (hi : i.Spelled P l)
    (hname : isName i.name = true)
    (hnext : nextIs .pathSep (bareFeed stop ls) = .ok (true, bareFeed stop ls)) :
    primary value (bareFeed stop (l :: ls)) =
      pathExpr value false (bare i) ⟨0, 0⟩ (bareFeed stop ls) := by
  rw [primary_of_name (by rw [hi.1.1]; exact isName_wordToken hname)]
  rw [named, nameOf_bind_feed, bind_of_ok hnext, if_pos rfl, hi.identOf]
  rfl

omit hv in
theorem path_bare {p : Path} {s : Span} (hp : p.IsLong) (h : PathSpelled P p.global p.segments ls)
    (hc : c.token ≠ .pathSep) :
    primary value (bareFeed stop (ls ++ c :: more)) =
      .ok (bare (.path p s), bareFeed stop (c :: more)) := by
  obtain ⟨global, segments, span⟩ := p
  obtain ⟨hnames, hlong⟩ := hp
  dsimp only at h
  cases h with
  | absolute h =>
    cases h with
    | nil => exact absurd hlong (show ¬ 1 ≤ 0 by decide)
    | cons hsep hi h =>
      obtain ⟨hname, hrest⟩ := List.forall_mem_cons.1 hnames
      rw [List.cons_append, List.cons_append, primary_global hsep hi hname]
      exact pathExpr_bare h hrest hc
  | relative hi h =>
    obtain ⟨hname, hrest⟩ := List.forall_mem_cons.1 hnames
    rw [List.cons_append, primary_relative hi hname]
    · exact pathExpr_bare h hrest hc
    · cases h with
      | nil => exact absurd hlong (show ¬ 2 ≤ 1 by decide)
      | cons hsep hj h => exact nextIs_of_eq hsep.1

theorem macroPath_bare {p : Path} {xs : Args} {s : Span} {a b : List Lexeme} (hp : p.IsMacro)
    (h : MacroSpelled P p.global p.segments a) (hxs : xs.SpelledBy P (Expr.Spelled q P) b)
    (hvalues : ∀ x ∈ xs.values, x.Normal) (hnames : xs.NamesOk) (hlength : b.length ≤ n + 1)
    (rest : List Lexeme) :
    primary value (bareFeed stop (a ++ (b ++ rest))) =
      .ok (bare (.macroCall p xs s), bareFeed stop rest) := by
  obtain ⟨global, segments, span⟩ := p
  obtain ⟨before, i, hsegments, hbefore, -⟩ := hp
  dsimp only at h hsegments
  cases h with
  | @alone j m hm =>
    have hmacro : macroCall value false (bare []) ⟨0, 0⟩ (bare m) (bareFeed stop (b ++ rest)) =
        .ok (bare (.macroCall ⟨false, [] ++ [j], span⟩ xs s), bareFeed stop rest) :=
      macroCall_bare hv hm hxs hvalues hnames hlength _
    rw [List.singleton_append, primary_of_macroName hm.1]
    exact hmacro
  | @qualified _ front j inner sep m h hsep hm =>
    obtain ⟨rfl, -⟩ := List.append_inj' hsegments rfl
    rw [List.append_assoc]
    cases h with
    | absolute h =>
      cases h with
      | nil =>
        have hmacro : macroSegment value true (bare []) ⟨0, 0⟩ (bareFeed stop (m :: (b ++ rest))) =
            .ok (bare (.macroCall ⟨true, [] ++ [j], span⟩ xs s), bareFeed stop rest) :=
          macroSegment_bare hv hm hxs hvalues hnames hlength _
        show primary value (bareFeed stop (sep :: m :: (b ++ rest))) = _
        rw [primary_of_pathSep hsep.1]
        unfold globalPath
        rw [bind_of_ok (nextIs_of_eq hm.1), if_pos rfl]
        exact hmacro
      | cons hsep' hk h =>
        obtain ⟨hname, hrest⟩ := List.forall_mem_cons.1 hbefore
        rw [List.cons_append, List.cons_append, primary_global hsep' hk hname]
        exact pathExpr_macro hv h hrest hsep hm hxs hvalues hnames hlength _
    | relative hk h =>
      obtain ⟨hname, hrest⟩ := List.forall_mem_cons.1 hbefore
      rw [List.cons_append, primary_relative hk hname]
      · exact pathExpr_macro hv h hrest hsep hm hxs hvalues hnames hlength _
      · cases h with
        | nil => exact nextIs_of_eq hsep.1
        | cons hsep' hk' h => exact nextIs_of_eq hsep'.1

/-- An expression without operators and suffixes is read back up to a token that does not go on with
    a path. -/
theorem primary_bare {e : Expr} (hn : e.Normal) (hown : e.left? = none) (hrank : e.rank = 14)
    (h : e.Spelled q P ls) (hlength : ls.length ≤ n) (hc : c.token ≠ .pathSep) :
    primary value (bareFeed stop (ls ++ c :: more)) =
      .ok (bare e, bareFeed stop (c :: more)) := by
  have hnode := hn.node
  cases h with
  | lit hv' hs => exact literal_bare hv' hnode _
  | @var i s l hl hs =>
    have hname : l.token.isName = true := by rw [hl.1]; exact isName_wordToken hnode
    rw [List.singleton_append, primary_of_name hname]
    rw [named, nameOf_bind_feed, bind_of_ok (nextIs_of_ne hc), if_neg Bool.false_ne_true, identOf,
      text_bare, hl.2, String.ofList_toList]
    rfl
  | path hp hs => exact path_bare hnode hp hc
  | @array es trailing s inner o c' ho hes hc' hs =>
    simp only [List.length_cons, List.length_append, List.length_nil] at hlength
    rw [List.cons_append, List.append_assoc, List.singleton_append, primary_of_lbracket ho.1]
    unfold bracketed
    rw [bind_of_ok (exprs_bare hv hes (fun x hx => hn.child hx) (by omega) rfl (by decide) hc'.1),
      Expr.bare_array]
    rfl
  | @tuple es trailing s inner o c' ho hes hc' hone hs =>
    simp only [List.length_cons, List.length_append, List.length_nil] at hlength
    rw [List.cons_append, List.append_assoc, List.singleton_append, primary_of_lparen ho.1]
    refine parenthesized_bare hv hes (fun x hx => hn.child hx) (by omega) hc'.1 ?_
    rw [Expr.bare_tuple]
    obtain _ | ⟨x, _ | ⟨y, xs⟩⟩ := es
    · exact absurd rfl hnode
    · cases trailing with
      | false => cases hone rfl
      | true => rfl
    · rfl
  | @unit s o c' ho hc' hs =>
    simp only [List.length_cons, List.length_nil] at hlength
    rw [List.cons_append, primary_of_lparen ho.1]
    exact parenthesized_bare hv .none (fun x hx => by cases hx) (by rw [List.length_nil]; omega)
      hc'.1 rfl
  | @group x s a o c' ho hx hc' hs =>
    simp only [List.length_cons, List.length_append, List.length_nil] at hlength
    rw [List.cons_append, List.append_assoc, List.singleton_append, primary_of_lparen ho.1]
    exact parenthesized_bare hv (.last hx) (fun y hy => hn.child hy) (by omega) hc'.1 rfl
  | @macroCall p xs s a b hp hxs hs =>
    rw [List.length_append] at hlength
    rw [List.append_assoc]
    exact macroPath_bare hv hnode.1 hp hxs (fun x hx => hn.child hx) hnode.2 (by omega) _
  | unary ho hx hs => exact absurd hrank (show ¬ 12 = 14 by decide)
  | ref ho hx hs => exact absurd hrank (show ¬ 12 = 14 by decide)
  | rangeFull ho hs => exact absurd hrank (show ¬ 0 = 14 by decide)
  | rangeTo ho hy hs => exact absurd hrank (show ¬ 0 = 14 by decide)
  | _ => cases hown

end

/-! ## Suffixes -/

theorem key_bare [Letters] {k : Key} {l : Lexeme} (h : k.Spelled P l) (hk : k.IsWritten)
    (rest : List Lexeme) :
    key (bareFeed stop (l :: rest)) = .ok (bare k, bareFeed stop rest) := by
  unfold key
  rw [bind_of_ok next_bare]
  dsimp only
  rw [token_bare]
  cases h with
  | @name i l hi =>
    -- Any word will do, so it does not matter which token it has.
    have hword : l.token = .ident ∨ ∃ w, l.token = .keyword w := by
      rw [hi.1.1]
      unfold wordToken
      split
      · exact .inr ⟨_, rfl⟩
      · exact .inl rfl
    rcases hword with ht | ⟨w, ht⟩
    · rw [ht]
      dsimp only
      rw [nameOf_bind_feed, hi.identOf]
      rfl
    · rw [ht]
      dsimp only
      rw [nameOf_bind_feed, hi.identOf]
      rfl
  | @index v s l ht hne hd hv hs =>
    rw [ht]
    dsimp only
    rw [indexOf_bind_feed, text_bare, hd, hv, if_pos (by rw [Bool.true_and]; exact decide_eq_true hk)]
    rfl

section

variable {limit : Nat} {full : Nat → Reader Expr} {x y : Expr} {l : Lexeme} {rest : List Lexeme}

theorem suffixes_done {budget : Nat} (h : isSuffix l.token = false) :
    suffixes limit full budget x (bareFeed stop (l :: ls)) = .ok (x, bareFeed stop (l :: ls)) := by
  unfold suffixes
  rw [bind_of_ok peek_bare]
  dsimp only
  rw [token_bare, if_neg (by rw [h]; exact Bool.false_ne_true)]
  rfl

theorem suffixes_step {budget : Nat} (h : isSuffix l.token = true)
    (hy : suffix (full budget) x (bare l) (bareFeed stop (l :: ls)) = .ok (y, bareFeed stop rest)) :
    suffixes limit full (budget + 1) x (bareFeed stop (l :: ls)) =
      suffixes limit full budget y (bareFeed stop rest) := by
  rw [suffixes, bind_of_ok peek_bare]
  dsimp only
  rw [token_bare, if_pos h, within_feed, bind_of_ok hy]

end

section

variable [Letters] {limit bound : Nat} {full : Nat → Reader Expr}
  (hfull : ∀ k ≤ bound, ReadsBack q P stop (full k) k)

include hfull

/-- After a primary with suffixes the loop over suffixes has it, with enough budget for what is as
    long as the budget was before. -/
theorem suffixes_bare {e : Expr} (hn : e.Normal) (hrank : e.rank = 14) (h : e.Spelled q P ls)
    {budget : Nat} (hbudget : budget ≤ bound) (hlength : ls.length ≤ budget)
    (hc : c.token ≠ .pathSep) :
    ∃ left, left ≤ budget ∧ budget ≤ left + ls.length ∧
      (primary (full budget) >>= suffixes limit full budget) (bareFeed stop (ls ++ c :: more)) =
        suffixes limit full left (bare e) (bareFeed stop (c :: more)) := by
  induction hn using Expr.Normal.left_induction generalizing ls c more with
  | own e hn hown =>
    refine ⟨budget, Nat.le_refl _, Nat.le_add_right _ _, ?_⟩
    exact bind_of_ok (primary_bare (hfull budget hbudget) hn hown hrank h hlength hc)
  | left e x hn hleft ih =>
    have hxrank : x.rank = 14 := (Expr.rank_left hn hleft).2 (by rw [hrank]; decide)
    -- The operand is read first; then one more round of the loop takes the suffix.
    have hround : ∀ {a b : List Lexeme} {o : Lexeme}, x.Spelled q P a → ls = a ++ o :: b →
        isSuffix o.token = true →
        (∀ left, left ≤ bound → b.length ≤ left →
          suffix (full left) (bare x) (bare o) (bareFeed stop (o :: (b ++ c :: more))) =
            .ok (bare e, bareFeed stop (c :: more))) →
        ∃ left, left ≤ budget ∧ budget ≤ left + ls.length ∧
          (primary (full budget) >>= suffixes limit full budget) (bareFeed stop (ls ++ c :: more)) =
            suffixes limit full left (bare e) (bareFeed stop (c :: more)) := by
      rintro a b o hx rfl ho hsuffix
      simp only [List.length_append, List.length_cons] at hlength ⊢
      have hsep : o.token ≠ .pathSep := by intro heq; rw [heq] at ho; cases ho
      obtain ⟨left, hle, hge, hread⟩ := ih hxrank hx (by omega) hsep
      obtain ⟨left, rfl⟩ : ∃ k, left = k + 1 := ⟨left - 1, by omega⟩
      refine ⟨left, by omega, by omega, ?_⟩
      rw [List.append_assoc, List.cons_append, hread]
      exact suffixes_step ho (hsuffix left (by omega) (by omega))
    cases h with
    | @attempt x s a o hx ho hs =>
      cases hleft
      refine hround hx rfl (by rw [ho.1]; rfl) fun left _ _ => ?_
      unfold suffix
      rw [token_bare, ho.1]
      dsimp only
      rw [bind_of_ok next_bare, Expr.span_bare]
      rfl
    | @call f xs s a b hf hxs hs =>
      cases hleft
      obtain ⟨o, b', rfl, ho⟩ : ∃ o b', b = o :: b' ∧ o.token = .lparen := by
        cases hxs with
        | mk ho hitems hc hs => exact ⟨_, _, rfl, ho.1⟩
      refine hround hf rfl (by rw [ho]; rfl) fun left hle hlen => ?_
      have hargs := args_bare (hfull left hle) hxs (fun y hy => hn.child (List.mem_cons_of_mem _ hy))
        hn.node.2 (by rw [List.length_cons]; omega) (c :: more)
      unfold suffix
      rw [token_bare, ho]
      dsimp only
      rw [← List.cons_append, bind_of_ok hargs, Expr.span_bare, Args.span_bare]
      rfl
    | @field x k s a o l hx ho hk hs =>
      cases hleft
      refine hround hx rfl (by rw [ho.1]; rfl) fun left _ _ => ?_
      unfold suffix
      rw [token_bare, ho.1]
      dsimp only
      rw [bind_of_ok next_bare, List.singleton_append, bind_of_ok (key_bare hk hn.node.2 _),
        Expr.span_bare, Key.span_bare]
      rfl
    | @index x i s a b o c' hx ho hi hc' hs =>
      cases hleft
      refine hround hx rfl (by rw [ho.1]; rfl) fun left hle hlen => ?_
      rw [List.length_append, List.length_singleton] at hlen
      have hindex := hfull left hle i b c' (c :: more) (hn.child (by simp [Expr.children])) hi
        (by omega) (by rw [hc'.1]; rfl)
      unfold suffix
      rw [token_bare, ho.1]
      dsimp only
      rw [bind_of_ok next_bare, List.append_assoc, List.singleton_append, bind_of_ok hindex,
        bind_of_ok (expect_of_eq hc'.1), Expr.span_bare]
      rfl
    | @binary op x y s a b o hx ho hy hs =>
      have hlevel := Expr.rank_binary_le op
      have htop : op.level + 1 = 14 := hrank
      omega
    | filter hx hfs hs => exact absurd hrank (show ¬ 11 = 14 by decide)
    | isDefined hx ho hc hs => exact absurd hrank (show ¬ 13 = 14 by decide)
    | isNotDefined hx ho hn hc hs => exact absurd hrank (show ¬ 13 = 14 by decide)
    | rangeFrom hx ho hs => exact absurd hrank (show ¬ 0 = 14 by decide)
    | rangeBetween hx ho hy hs => exact absurd hrank (show ¬ 0 = 14 by decide)
    | _ => cases hleft

/-! ## Tests and unary operators -/

/-- A primary with suffixes is read back up to a token that ends operands, or a test. -/
theorem postfix_bare {e : Expr} (hn : e.Normal) (hrank : e.rank = 14) (h : e.Spelled q P ls)
    {budget : Nat} (hbudget : budget ≤ bound) (hlength : ls.length ≤ budget)
    (hsuffix : isSuffix c.token = false) (hpath : c.token ≠ .pathSep) :
    ∃ x mid, primary (full budget) (bareFeed stop (ls ++ c :: more)) = .ok (x, mid) ∧
      suffixes limit full budget x mid = .ok (bare e, bareFeed stop (c :: more)) := by
  obtain ⟨left, -, -, hread⟩ := suffixes_bare hfull hn hrank h hbudget hlength hpath
  rw [suffixes_done hsuffix] at hread
  exact bind_eq_ok_iff.1 hread

theorem tested_bare {e : Expr} (hn : e.Normal) (hrank : 13 ≤ e.rank) (h : e.Spelled q P ls)
    {budget : Nat} (hbudget : budget ≤ bound) (hlength : ls.length ≤ budget) (hc : c.token.Ends) :
    tested limit full budget (bareFeed stop (ls ++ c :: more)) =
      .ok (bare e, bareFeed stop (c :: more)) := by
  unfold tested
  by_cases hpostfix : e.rank = 14
  · obtain ⟨x, mid, hprimary, hsuffixes⟩ :=
      postfix_bare hfull hn hpostfix h hbudget hlength hc.suffix hc.path
    rw [bind_of_ok hprimary, bind_of_ok hsuffixes, bind_of_ok (eats_of_ne hc.test)]
    rfl
  · obtain ⟨y, negated, s, rfl⟩ : ∃ y negated s, e = .isDefined y negated s :=
      Expr.exists_isDefined (by have := e.rank_le; omega)
    cases h with
    | @isDefined y s a o c' hy ho hc' hs =>
      rw [List.length_append] at hlength
      obtain ⟨x, mid, hprimary, hsuffixes⟩ := postfix_bare hfull (hn.child List.mem_cons_self)
        hn.node hy hbudget (by omega) (by rw [ho.1]; rfl) (by rw [ho.1]; decide)
      rw [List.append_assoc, List.cons_append, List.singleton_append, bind_of_ok hprimary,
        bind_of_ok hsuffixes, bind_of_ok (eats_of_eq ho.1), if_pos rfl,
        bind_of_ok (eats_of_ne (by rw [hc'.1]; decide)), bind_of_ok (expect_of_eq hc'.1),
        Expr.span_bare]
      rfl
    | @isNotDefined y s a o n c' hy ho hn' hc' hs =>
      rw [List.length_append] at hlength
      obtain ⟨x, mid, hprimary, hsuffixes⟩ := postfix_bare hfull (hn.child List.mem_cons_self)
        hn.node hy hbudget (by omega) (by rw [ho.1]; rfl) (by rw [ho.1]; decide)
      rw [List.append_assoc, List.cons_append, List.cons_append, List.singleton_append,
        bind_of_ok hprimary, bind_of_ok hsuffixes, bind_of_ok (eats_of_eq ho.1), if_pos rfl,
        bind_of_ok (eats_of_eq hn'.1), bind_of_ok (expect_of_eq hc'.1), Expr.span_bare]
      rfl

omit [Letters] hfull in
theorem unary?_of_token {u : Unary} {l m : Lexeme} (hl : l.token = u.token)
    (hm : u = .op .neg → m.token ≠ .number) :
    unary? (bareFeed stop (l :: m :: ls)) =
      .ok (some (u, ⟨0, 0⟩), bareFeed stop (l :: m :: ls)) := by
  unfold unary?
  rw [bind_of_ok peek_bare]
  dsimp only
  rw [token_bare, hl]
  match u with
  | .ref => rfl
  | .op .not => rfl
  | .op .deref => rfl
  | .op .neg =>
    have hsecond : secondIs .number (bareFeed stop (l :: m :: ls)) =
        .ok (false, bareFeed stop (l :: m :: ls)) := by
      rw [secondIs_bare, beq_eq_false_iff_ne.2 (hm rfl)]
    show (do if ← secondIs .number then return none else return some (.op .neg, (bare l).span) :
      Reader (Option (Unary × Span))) _ = _
    rw [bind_of_ok hsecond]
    rfl

/-- An operand with unary operators before it is read back up to a token that ends operands. -/
theorem unary_bare {e : Expr} (hn : e.Normal) (hrank : 12 ≤ e.rank) (h : e.Spelled q P ls)
    {budget : Nat} (hbudget : budget ≤ bound) (hlength : ls.length ≤ budget) (hc : c.token.Ends) :
    unary limit full budget (bareFeed stop (ls ++ c :: more)) =
      .ok (bare e, bareFeed stop (c :: more)) := by
  induction hn generalizing ls budget with
  | @mk e node children ih =>
    have hn : e.Normal := .mk node children
    by_cases htested : 13 ≤ e.rank
    · unfold unary
      rw [bind_of_ok (unary?_bare hn htested h _)]
      exact tested_bare hfull hn htested h hbudget hlength hc
    · -- One operator comes off the front, and one level of the budget.
      have hround : ∀ {x : Expr} {u : Unary} {o : Lexeme} {a : List Lexeme}, x ∈ e.children →
          12 ≤ x.rank → x.Spelled q P a → ls = o :: a → o.token = u.token →
          (u = .op .neg → x.firstToken ≠ .number) → u.apply (bare x) ⟨0, 0⟩ = bare e →
          unary limit full budget (bareFeed stop (ls ++ c :: more)) =
            .ok (bare e, bareFeed stop (c :: more)) := by
        rintro x u o a hmem hxrank hx rfl ho hneg happly
        rw [List.length_cons] at hlength
        obtain ⟨budget, rfl⟩ : ∃ k, budget = k + 1 := ⟨budget - 1, by omega⟩
        have hoperand := ih x hmem hxrank hx (by omega) (by omega : a.length ≤ budget)
        obtain ⟨l, b, rfl, hl⟩ := hx.head (children x hmem)
        unfold unary
        rw [List.cons_append, List.cons_append,
          bind_of_ok (unary?_of_token ho (by rw [hl]; exact hneg))]
        dsimp only
        rw [bind_of_ok next_bare, within_feed, ← List.cons_append, bind_of_ok hoperand, Expr.span_bare,
          Span.join_zero, happly]
        rfl
      rcases Expr.exists_unary (e := e) (by omega) with ⟨op, x, s, rfl⟩ | ⟨x, s, rfl⟩
      · cases h with
        | unary ho hx hs =>
          refine hround (u := .op op) List.mem_cons_self node.1 hx rfl ho.1 ?_ rfl
          intro hop
          cases hop
          exact node.2 rfl
      · cases h with
        | ref ho hx hs =>
          exact hround (u := .ref) List.mem_cons_self node hx rfl ho.1 (fun h => by cases h) rfl

end

/-! ## Operators -/

theorem operator?_token (op : BinOp) : operator? op.token = some (.binary op) := by
  cases op <;> rfl

section

variable {limit budget min : Nat} {full : Nat → Reader Expr} {x y : Expr} {l : Lexeme}
  {rest : List Lexeme}

theorem operatorFrom?_of_some {op : Operator} (hop : operator? l.token = some op)
    (hmin : min ≤ op.level) :
    operatorFrom? min (bareFeed stop (l :: ls)) = .ok (some op, bareFeed stop (l :: ls)) := by
  show Except.ok ((operator? l.token).filter (fun op => min ≤ op.level), _) = _
  rw [hop, Option.filter_some, if_pos (decide_eq_true hmin)]

/-- The loop ends before an operator that is looser than it asks for. -/
theorem operators_done (h : ∀ op ∈ operator? l.token, op.level < min) :
    operators limit full budget min x (bareFeed stop (l :: ls)) =
      .ok (x, bareFeed stop (l :: ls)) := by
  have hnone : operatorFrom? min (bareFeed stop (l :: ls)) =
      .ok (none, bareFeed stop (l :: ls)) := by
    show Except.ok ((operator? l.token).filter (fun op => min ≤ op.level), _) = _
    rw [Option.filter_eq_none_iff.2 fun op hop => by have := h op hop; simpa using this]
  unfold operators
  rw [bind_of_ok hnone]
  rfl

theorem operators_binary {op : BinOp} (hop : l.token = op.token) (hmin : min ≤ op.level)
    (hy : (unary limit full budget >>= operators limit full budget (op.level + 1))
      (bareFeed stop ls) = .ok (y, bareFeed stop rest)) :
    operators limit full (budget + 1) min x (bareFeed stop (l :: ls)) =
      operators limit full budget min (.binary op x y (x.span.join y.span))
        (bareFeed stop rest) := by
  have hfound := operator?_token op
  rw [← hop] at hfound
  obtain ⟨operand, mid, hunary, hright⟩ := bind_eq_ok_iff.1 hy
  rw [operators, bind_of_ok (operatorFrom?_of_some hfound hmin)]
  dsimp only
  rw [within_feed, bind_of_ok next_bare, bind_of_ok hunary, bind_of_ok hright]

theorem operators_filter {f : Filter} {fs : List Filter} {mid : List Lexeme}
    (hop : l.token = .pipe) (hmin : min ≤ filterLevel)
    (hf : filter (full budget) (bareFeed stop ls) = .ok (f, bareFeed stop mid))
    (hfs : many (filter? (full budget)) (bareFeed stop mid) = .ok (fs, bareFeed stop rest)) :
    operators limit full (budget + 1) min x (bareFeed stop (l :: ls)) =
      operators limit full budget min (filtered x f fs) (bareFeed stop rest) := by
  have hfound : operator? l.token = some .filter := by rw [hop]; rfl
  rw [operators, bind_of_ok (operatorFrom?_of_some hfound hmin)]
  dsimp only
  rw [within_feed, bind_of_ok next_bare, bind_of_ok hf, bind_of_ok hfs]

end

theorem filtered_bare (x : Expr) (f : Filter) (fs : List Filter) (s : Span) :
    filtered (bare x) (bare f) (bare fs) = bare (.filter x (f :: fs) s) := by
  have hfold : (bare fs).foldl (fun (s : Span) f => s.join f.span) ⟨0, 0⟩ = ⟨0, 0⟩ := by
    induction fs with
    | nil => rfl
    | cons g gs ih =>
      show ((bare gs).foldl _ (Span.join ⟨0, 0⟩ (bare g).span)) = _
      rw [Filter.span_bare, Span.join_zero]
      exact ih
  unfold filtered
  rw [Expr.span_bare, Filter.span_bare, Span.join_zero, hfold, Expr.bare_filter]
  rfl

/-- Reading a listing of `e` leaves the loop over operators where it has `e`, whatever its least level
    and if the operator that follows can take `e` as its left operand.  No more of the budget is used
    than there are lexemes. -/
def LoopReaches (q : Quoting) (P : Span → List Lexeme → Prop) (stop : Lexer.Stop) (limit bound : Nat)
    (full : Nat → Reader Expr) (e : Expr) : Prop :=
  ∀ (ls : List Lexeme) (c : Lexeme) (budget min : Nat), e.Spelled q P ls → budget ≤ bound →
    ls.length ≤ budget → min < e.rank → c.token.Ends → (∀ op ∈ operator? c.token, op.Accepts e) →
    ∀ more : List Lexeme, ∃ left, left ≤ budget ∧ budget ≤ left + ls.length ∧
      (unary limit full budget >>= operators limit full budget min)
        (bareFeed stop (ls ++ c :: more)) =
          operators limit full left min (bare e) (bareFeed stop (c :: more))

section

variable [Letters] {limit bound : Nat} {full : Nat → Reader Expr}
  (hfull : ∀ k ≤ bound, ReadsBack q P stop (full k) k)

/-- The loop has the left operand, then takes the operator and reads the right operand. -/
theorem LoopReaches.binary {op : BinOp} {x y : Expr} {s : Span}
    (hx : LoopReaches q P stop limit bound full x) (hy : LoopReaches q P stop limit bound full y)
    (hnode : (Expr.binary op x y s).NodeNormal) :
    LoopReaches q P stop limit bound full (.binary op x y s) := by
  intro ls c budget min h hbudget hlength hmin hc haccepts more
  obtain ⟨hxrank, hyrank⟩ := hnode
  cases h with
  | @binary op x y s a b o hxs ho hys hs =>
    simp only [List.length_append, List.length_cons] at hlength ⊢
    have hlevel : min ≤ op.level := Nat.le_of_lt_succ hmin
    have hown : ∀ op' ∈ operator? o.token, op'.Accepts x := by
      intro op' hop'
      rw [ho.1, operator?_token] at hop'
      cases hop'
      exact ⟨hxrank, fun heq => by cases heq⟩
    obtain ⟨left, hle, hge, hread⟩ := hx a o budget min hxs hbudget (by omega)
      (Nat.lt_of_le_of_lt hlevel hxrank) (by rw [ho.1]; exact op.ends_token) hown (b ++ c :: more)
    obtain ⟨left, rfl⟩ : ∃ k, left = k + 1 := ⟨left - 1, by omega⟩
    -- What follows is no tighter than this operator, so the right operand ends there.
    have hloose : ∀ op' ∈ operator? c.token, op'.level < op.level + 1 := fun op' hop' =>
      Nat.lt_of_succ_le (haccepts op' hop').1
    have hafter : ∀ op' ∈ operator? c.token, op'.Accepts y := by
      intro op' hop'
      obtain ⟨hlevel', hfilter'⟩ := haccepts op' hop'
      have htop : op'.level + 1 ≤ op.level + 1 := hlevel'
      refine ⟨by omega, fun heq => ?_⟩
      have hlarge : 12 ≤ op.level + 1 := hfilter' heq
      have := Expr.rank_binary_le op
      omega
    obtain ⟨left', -, -, hright⟩ := hy b c left (op.level + 1) hys (by omega) (by omega) hyrank hc
      hafter more
    rw [operators_done hloose] at hright
    refine ⟨left, by omega, by omega, ?_⟩
    rw [List.append_assoc, List.cons_append, hread, operators_binary ho.1 hlevel hright,
      Expr.span_bare, Expr.span_bare]
    rfl

include hfull

/-- The loop has the value, then takes the bar and all filters. -/
theorem LoopReaches.filter {x : Expr} {fs : List Filter} {s : Span}
    (hx : LoopReaches q P stop limit bound full x) (hnode : (Expr.filter x fs s).NodeNormal)
    (hvalues : ∀ f ∈ fs, ∀ z ∈ f.values, z.Normal) :
    LoopReaches q P stop limit bound full (.filter x fs s) := by
  intro ls c budget min h hbudget hlength hmin hc haccepts more
  obtain ⟨hxrank, hne, hnames⟩ := hnode
  cases h with
  | @filter x fs s a b hxs hfs hs =>
    cases hfs with
    | nil => exact absurd rfl hne
    | @cons f fs bar fa b hbar hf hfs =>
      simp only [List.length_append, List.length_cons] at hlength ⊢
      have hbarEnds : bar.token.Ends := by
        rw [hbar.1]
        exact ⟨rfl, by decide, by decide⟩
      have hlevel : min ≤ filterLevel := Nat.le_of_lt_succ hmin
      obtain ⟨left, hle, hge, hread⟩ := hx a bar budget min hxs hbudget (by omega)
        (Nat.lt_of_lt_of_le hmin (Nat.le_of_succ_le hxrank)) hbarEnds
        (fun op _ => op.accepts_operand hxrank) (fa ++ (b ++ c :: more))
      obtain ⟨left, rfl⟩ : ∃ k, left = k + 1 := ⟨left - 1, by omega⟩
      have hpipe : c.token ≠ .pipe := by
        intro heq
        have hfilter := (haccepts .filter (by rw [heq]; rfl)).2 rfl
        exact absurd hfilter (show ¬ 12 ≤ 11 by decide)
      have hparen : c.token ≠ .lparen := by
        intro heq
        have hsuffix := hc.suffix
        rw [heq] at hsuffix
        cases hsuffix
      obtain ⟨l, rest, hnext, hl⟩ := hfs.next hparen more
      have hfirst : Reader.filter (full left) (bareFeed stop (fa ++ l :: rest)) =
          .ok (bare f, bareFeed stop (l :: rest)) :=
        filter_bare (hfull left (by omega)) hf (hvalues f List.mem_cons_self)
          (hnames f List.mem_cons_self) (by omega) hl
      have hmore : many (filter? (full left)) (bareFeed stop (b ++ c :: more)) =
          .ok (bare fs, bareFeed stop (c :: more)) :=
        filters_bare (hfull left (by omega)) hfs
          (fun g hg => hvalues g (List.mem_cons_of_mem f hg))
          (fun g hg => hnames g (List.mem_cons_of_mem f hg)) (by omega) hpipe hparen
      rw [← hnext] at hfirst
      refine ⟨left, by omega, by omega, ?_⟩
      rw [List.append_assoc, List.cons_append, List.append_assoc, hread,
        operators_filter hbar.1 hlevel hfirst hmore, filtered_bare]

variable (limit) in
/-- The loop over operators reaches every operation. -/
theorem operators_bare {e : Expr} (hn : e.Normal) : LoopReaches q P stop limit bound full e := by
  induction hn with
  | @mk e node children ih =>
    by_cases hoperand : 12 ≤ e.rank
    · intro ls c budget min h hbudget hlength hmin hc haccepts more
      refine ⟨budget, Nat.le_refl _, Nat.le_add_right _ _, ?_⟩
      exact bind_of_ok (unary_bare hfull (.mk node children) hoperand h hbudget hlength hc)
    by_cases hfilter : e.rank = 11
    · obtain ⟨x, fs, s, rfl⟩ := Expr.exists_filter hfilter
      refine (ih x List.mem_cons_self).filter hfull node fun f hf z hz => ?_
      exact children z (List.mem_cons_of_mem x (List.mem_flatMap.2 ⟨f, hf, hz⟩))
    · intro ls c budget min h hbudget hlength hmin
      obtain ⟨op, x, y, s, rfl⟩ := Expr.exists_binary (e := e) (by omega) (by omega)
      exact (ih x List.mem_cons_self).binary (ih y (by simp [Expr.children])) node ls c budget min h
        hbudget hlength hmin

theorem operation_bare {e : Expr} (hn : e.Normal) (hpos : 0 < e.rank) (h : e.Spelled q P ls)
    {budget : Nat} (hbudget : budget ≤ bound) (hlength : ls.length ≤ budget) (hc : c.token.Ends)
    (hnone : operator? c.token = none) :
    operation limit full budget (bareFeed stop (ls ++ c :: more)) =
      .ok (bare e, bareFeed stop (c :: more)) := by
  obtain ⟨left, -, -, hread⟩ := operators_bare limit hfull hn ls c budget 0 h hbudget hlength hpos hc
    (fun op hop => by rw [hnone] at hop; cases hop) more
  unfold operation
  rw [hread]
  exact operators_done fun op hop => by rw [hnone] at hop; cases hop

end

/-! ## Ranges and full expressions -/

theorem range?_of_token {inclusive : Bool} {l : Lexeme} (h : l.token = rangeToken inclusive) :
    range? (bareFeed stop (l :: ls)) = .ok (some inclusive, bareFeed stop (l :: ls)) := by
  unfold range?
  rw [bind_of_ok peek_bare]
  dsimp only
  rw [token_bare, h]
  cases inclusive <;> rfl

theorem range?_of_ne {l : Lexeme} (h : ∀ inclusive, l.token ≠ rangeToken inclusive) :
    range? (bareFeed stop (l :: ls)) = .ok (none, bareFeed stop (l :: ls)) := by
  unfold range?
  rw [bind_of_ok peek_bare]
  dsimp only
  rw [token_bare]
  cases ht : l.token with
  | dotDot => exact absurd ht (h false)
  | dotDotEq => exact absurd ht (h true)
  | _ => rfl

theorem operandFollows_bare {l : Lexeme} :
    operandFollows (bareFeed stop (l :: ls)) =
      .ok (startsOperand l.token, bareFeed stop (l :: ls)) := rfl

theorem operator?_rangeToken (inclusive : Bool) : operator? (rangeToken inclusive) = none := by
  cases inclusive <;> rfl

section

variable [Letters] {operand : Reader Expr} {n : Nat}
  (hoperand : ∀ (e : Expr) (ls : List Lexeme) (c : Lexeme) (more : List Lexeme), e.Normal →
    0 < e.rank → e.Spelled q P ls → ls.length ≤ n → c.token.Ends → operator? c.token = none →
    operand (bareFeed stop (ls ++ c :: more)) = .ok (bare e, bareFeed stop (c :: more)))

omit [Letters] hoperand in
/-- A range without an end ends before a token that no operand begins with. -/
theorem rangeFrom_open (start : Option Expr) {o : Lexeme} {s : Span}
    (hc : startsOperand c.token = false) :
    rangeFrom operand (bare start) false (bareFeed stop (o :: c :: more)) =
      .ok (bare (.range start none false s), bareFeed stop (c :: more)) := by
  unfold rangeFrom
  rw [bind_of_ok next_bare, bind_of_ok last_bare]
  dsimp only
  rw [if_neg Bool.false_ne_true, bind_of_ok operandFollows_bare, hc, if_neg Bool.false_ne_true,
    Expr.bare_range]
  cases start with
  | none => rfl
  | some x =>
    show Except.ok (Expr.range (some (bare x)) none false ⟨(bare x).span.start, 0⟩, _) = _
    rw [Expr.span_bare]
    rfl

include hoperand

theorem rangeFrom_closed (start : Option Expr) {y : Expr} {inclusive : Bool} {o : Lexeme}
    {s : Span} (hn : y.Normal) (hpos : 0 < y.rank) (h : y.Spelled q P ls) (hlength : ls.length ≤ n)
    (hif : inclusive = false → y.firstToken ≠ .keyword .ifKw) (hc : c.token.Ends)
    (hnone : operator? c.token = none) :
    rangeFrom operand (bare start) inclusive (bareFeed stop (o :: (ls ++ c :: more))) =
      .ok (bare (.range start (some y) inclusive s), bareFeed stop (c :: more)) := by
  have hend : ∀ first, first = 0 → (do
      let stop ← operand
      return .range (bare start) (some stop) inclusive ⟨first, stop.span.stop⟩ : Reader Expr)
        (bareFeed stop (ls ++ c :: more)) =
          .ok (bare (.range start (some y) inclusive s), bareFeed stop (c :: more)) := by
    rintro _ rfl
    rw [bind_of_ok (hoperand y ls c more hn hpos h hlength hc hnone), Expr.span_bare,
      Expr.bare_range]
    rfl
  unfold rangeFrom
  rw [bind_of_ok next_bare, bind_of_ok last_bare]
  dsimp only
  -- An end follows: it must for an inclusive range, and else it begins like one.
  split
  · rw [bind_of_ok (pure_apply true _), if_pos rfl]
    refine hend _ ?_
    cases start with
    | none => rfl
    | some x => exact congrArg Span.start (Expr.span_bare x)
  · next hopen =>
    obtain ⟨l, b, rfl, hl⟩ := h.head hn
    have hstarts : startsOperand l.token = true := by
      rw [hl]
      rcases hn.startsOperand hpos with hstarts | hword
      · exact hstarts
      · exact absurd hword (hif (Bool.eq_false_iff.2 hopen))
    rw [List.cons_append, bind_of_ok operandFollows_bare, hstarts, if_pos rfl]
    refine hend _ ?_
    cases start with
    | none => rfl
    | some x => exact congrArg Span.start (Expr.span_bare x)

omit hoperand in
/-- An operand does not begin like a range. -/
theorem range?_of_operand {x : Expr} {a rest : List Lexeme} (hx : x.Normal) (hpos : 0 < x.rank)
    (ha : x.Spelled q P a) :
    range? (bareFeed stop (a ++ rest)) = .ok (none, bareFeed stop (a ++ rest)) := by
  obtain ⟨l, b, rfl, hl⟩ := ha.head hx
  refine range?_of_ne fun inclusive heq => ?_
  rw [hl] at heq
  rcases hx.startsOperand hpos with hs | hs
  · rw [heq] at hs; cases inclusive <;> cases hs
  · rw [heq] at hs; cases inclusive <;> cases hs

/-- An operand is a full expression, before a token that goes on with no operator and no range. -/
theorem ranged_operand {e : Expr} (hn : e.Normal) (hpos : 0 < e.rank) (h : e.Spelled q P ls)
    (hlength : ls.length ≤ n) (hends : c.token.Ends) (hnone : operator? c.token = none)
    (hrange : ∀ inclusive, c.token ≠ rangeToken inclusive) :
    ranged operand (bareFeed stop (ls ++ c :: more)) =
      .ok (bare e, bareFeed stop (c :: more)) := by
  unfold ranged
  rw [bind_of_ok (range?_of_operand hn hpos h)]
  dsimp only
  rw [bind_of_ok (hoperand e ls c more hn hpos h hlength hends hnone),
    bind_of_ok (range?_of_ne hrange)]
  rfl

/-- A full expression is read back up to a token that can stand after one. -/
theorem ranged_bare {e : Expr} (hn : e.Normal) (h : e.Spelled q P ls) (hlength : ls.length ≤ n)
    (hc : c.token.isStop = true) :
    ranged operand (bareFeed stop (ls ++ c :: more)) =
      .ok (bare e, bareFeed stop (c :: more)) := by
  obtain ⟨hends, hnone, hstarts⟩ := Token.of_isStop hc
  have hrange : ∀ inclusive, c.token ≠ rangeToken inclusive := by
    intro inclusive heq
    rw [heq] at hc
    cases inclusive <;> cases hc
  by_cases hpos : 0 < e.rank
  · exact ranged_operand hoperand hn hpos h hlength hends hnone hrange
  unfold ranged
  obtain ⟨start, finish, inclusive, s, rfl⟩ : ∃ start finish inclusive s,
      e = .range start finish inclusive s := Expr.exists_range (by omega)
  obtain ⟨hstart, hfinish, hincl, hif⟩ := hn.node
  cases h with
  | @rangeFull inclusive s o ho hs =>
    have hexcl : inclusive = false := by
      cases inclusive with
      | false => rfl
      | true => cases hincl rfl
    subst hexcl
    rw [List.singleton_append, bind_of_ok (range?_of_token ho.1)]
    exact rangeFrom_open none hstarts
  | @rangeTo y inclusive s b o ho hy hs =>
    rw [List.length_cons] at hlength
    rw [List.cons_append, bind_of_ok (range?_of_token ho.1)]
    exact rangeFrom_closed hoperand none (hn.child List.mem_cons_self)
      (hfinish y rfl) hy (by omega) (fun h => hif h y rfl) hends hnone
  | @rangeFrom x inclusive s a o hx ho hs =>
    have hexcl : inclusive = false := by
      cases inclusive with
      | false => rfl
      | true => cases hincl rfl
    subst hexcl
    rw [List.length_append] at hlength
    have hread := hoperand x a o (c :: more) (hn.child List.mem_cons_self) (hstart x rfl) hx
      (by omega) (by rw [ho.1]; exact Token.ends_rangeToken _)
      (by rw [ho.1]; exact operator?_rangeToken _)
    rw [List.append_assoc, List.singleton_append,
      bind_of_ok (range?_of_operand (hn.child List.mem_cons_self) (hstart x rfl) hx)]
    dsimp only
    rw [bind_of_ok hread, bind_of_ok (range?_of_token ho.1)]
    exact rangeFrom_open (some x) hstarts
  | @rangeBetween x y inclusive s a b o hx ho hy hs =>
    rw [List.length_append, List.length_cons] at hlength
    have hread := hoperand x a o (b ++ c :: more) (hn.child List.mem_cons_self) (hstart x rfl) hx
      (by omega) (by rw [ho.1]; exact Token.ends_rangeToken _)
      (by rw [ho.1]; exact operator?_rangeToken _)
    rw [List.append_assoc, List.cons_append,
      bind_of_ok (range?_of_operand (hn.child List.mem_cons_self) (hstart x rfl) hx)]
    dsimp only
    rw [bind_of_ok hread, bind_of_ok (range?_of_token ho.1)]
    exact rangeFrom_closed hoperand (some x) (hn.child (by simp [Expr.children]))
      (hfinish y rfl) hy (by omega) (fun h => hif h y rfl) hends hnone

end

/-- Full expressions are read back with a budget larger than the length of their listing. -/
theorem exprWithin_readsBack [Letters] (limit budget : Nat) :
    ReadsBack q P stop (exprWithin limit budget) budget := by
  induction budget using Nat.strongRecOn with
  | ind budget ih =>
    intro e ls c more hn h hlength hc
    cases budget with
    | zero => exact absurd hlength (Nat.not_lt_zero _)
    | succ budget =>
      rw [exprWithin_succ]
      refine ranged_bare (n := budget) (fun x a c' more' hx hpos ha hlen hends hnone => ?_) hn h
        (Nat.le_of_lt_succ hlength) hc
      have hfull : ∀ k ≤ budget, ReadsBack q P stop
          (if k ≤ budget then exprWithin limit k else tooDeep limit) k := by
        intro k hk
        rw [if_pos hk]
        exact ih k (Nat.lt_succ_of_le hk)
      exact operation_bare hfull hx hpos ha (Nat.le_refl _) hlen hends hnone

/-- Operands are read back as full expressions before every token that goes on with none. -/
theorem exprWithin_operand [Letters] (limit : Nat) {budget : Nat} {e : Expr} (hn : e.Normal)
    (hpos : 0 < e.rank) (h : e.Spelled q P ls) (hlength : ls.length < budget) (hends : c.token.Ends)
    (hnone : operator? c.token = none) (hrange : ∀ inclusive, c.token ≠ rangeToken inclusive) :
    exprWithin limit budget (bareFeed stop (ls ++ c :: more)) =
      .ok (bare e, bareFeed stop (c :: more)) := by
  cases budget with
  | zero => exact absurd hlength (Nat.not_lt_zero _)
  | succ budget =>
    have hfull : ∀ k ≤ budget, ReadsBack q P stop
        (if k ≤ budget then exprWithin limit k else tooDeep limit) k := by
      intro k hk
      rw [if_pos hk]
      exact exprWithin_readsBack limit k
    rw [exprWithin_succ]
    refine ranged_operand (n := budget) (fun x a c' more' hx hpos ha hlen hends hnone => ?_) hn hpos h
      (Nat.le_of_lt_succ hlength) hends hnone hrange
    exact operation_bare hfull hx hpos ha (Nat.le_refl _) hlen hends hnone

end Reader

end Stencil
