/-
  Exprs — every expression of a template is normal and listed by the lexemes under it.

  `Stencil.Proofs.Expr.Soundness` is about one expression at the front of a feed.  The expressions of
  a template stand deeper: in conditions, default values, the arguments of filter blocks, between
  patterns and names.  `Holds given p f` follows them through a statement: each expression in what `p`
  gives was given before or is listed by a stretch of the lexemes that `p` takes.  It passes through
  sequencing like `Moves` does, so the readers of statements are done by following their definitions.

  A stretch of the lexemes of a tag can be found again from the span over it: it is what lies within
  the span (`filter_within`).  So the listing in the theorem is not any stretch, it is what the lexer
  gives over the span of the expression.
-/
import Stencil.Proofs.Expr.Soundness
import Stencil.Proofs.Template.Memoryless

namespace Stencil

/-! ## The expressions of a node -/

/-- The expression of a condition. -/
def Cond.value : Cond → Expr
  | expr c => c
  | bind _ v => v

/-- The full expressions of a statement. -/
def StmtKind.exprs : StmtKind → List Expr
  | assign _ _ _ value => value.toList
  | forLoop _ iterable cond => iterable :: cond.toList
  | ifCond c | elseIf c => [c.value]
  | matchOn subject => [subject]
  | macroDef _ params => params.flatMap (·.default.toList)
  | callBlock _ call => [call]
  | filterBlock filters => filters.flatMap Filter.values
  | _ => []

/-- The full expressions of a node. -/
def Node.exprs : Node → List Expr
  | expr e _ _ => [e]
  | tag stmt _ _ => stmt.kind.exprs
  | _ => []

/-! ## Lexemes under a span -/

/-- Whether the lexeme lies within the span. -/
def Lexeme.isWithin (s : Span) (l : Lexeme) : Bool :=
  decide (s.start ≤ l.span.start) && decide (l.span.stop ≤ s.stop)

/-- The lexemes that the lexer gives inside the tag at the offset `p`, its closing delimiter
    included. -/
def tagLexemes [Letters] (d : Delims) (source : String) (p : Nat) : List Lexeme :=
  match splitAtByte? p source.toList with
  | none => []
  | some (_, rest) =>
    match (Lexer.mk p rest .template).step d with
    | .token _ next => (next.feed d).1
    | _ => []

/-- A stretch of a row is what lies within the span over it. -/
theorem filter_within {p q : Nat} {ls part : List Lexeme} {s : Span}
    (hrow : Lexeme.InRow p ls q) (hpart : part <:+: ls) (hs : s.Over part) :
    ls.filter (Lexeme.isWithin s) = part := by
  obtain ⟨a, b, rfl⟩ := hpart
  obtain ⟨first, last, hfirst, hlast, rfl⟩ := hs
  obtain ⟨r, hpartrow⟩ := hrow.append_left
  -- What comes before the stretch ends where its first lexeme starts, at the latest.
  have hbefore : ∀ l ∈ a, Lexeme.isWithin ⟨first.span.start, last.span.stop⟩ l = false := by
    intro l hl
    obtain ⟨hlt, hle, -⟩ := hpartrow.apart hl (List.mem_of_mem_head? hfirst)
    simp only [Lexeme.isWithin, Bool.and_eq_false_iff, decide_eq_false_iff_not]
    omega
  have hafter : ∀ l ∈ b, Lexeme.isWithin ⟨first.span.start, last.span.stop⟩ l = false := by
    intro l hl
    have hmem : last ∈ a ++ part := List.mem_append_right a (List.mem_of_mem_getLast? hlast)
    obtain ⟨-, hle, hlt⟩ := hrow.apart hmem hl
    simp only [Lexeme.isWithin, Bool.and_eq_false_iff, decide_eq_false_iff_not]
    omega
  have hinside : ∀ l ∈ part, Lexeme.isWithin ⟨first.span.start, last.span.stop⟩ l = true := by
    intro l hl
    obtain ⟨r', hr'⟩ := hpartrow.append_right
    have := hr'.head_le hfirst hl
    have := hr'.le_last hlast hl
    simp only [Lexeme.isWithin, Bool.and_eq_true, decide_eq_true_eq]
    omega
  rw [List.filter_append, List.filter_append, List.filter_eq_self.2 hinside,
    List.filter_eq_nil_iff.2 (by simpa using hbefore),
    List.filter_eq_nil_iff.2 (by simpa using hafter), List.nil_append, List.append_nil]

/-! ## Following expressions through readers -/

/-- The lexemes of a tag are regular for staying in place: their text literals can be decoded. -/
theorem Orderly.regular [Letters] {feed : Feed} (h : Orderly feed.lexemes) : feed.Regular id := by
  intro l hl
  refine ⟨fun _ => rfl, fun htoken => ?_⟩
  have hspells := h.spells hl (by rw [htoken]; rfl)
  rw [htoken] at hspells
  obtain ⟨value, body, htext, -, hvalue⟩ := hspells
  exact ⟨value, by rw [quotedBody_of_eq htext]; exact hvalue⟩

namespace Reader

variable {α β : Type}

/-- Each expression in what the reader gives was given before, or is listed by a stretch of the
    lexemes taken. -/
def Holds [Letters] (given : List Expr) (p : Reader α) (f : α → List Expr) : Prop :=
  Takes p fun a ls => ∀ e ∈ f a, e ∈ given ∨ ∃ part, part <:+: ls ∧ e.ReadFrom part

theorem Holds.pure [Letters] {given : List Expr} {a : α} {f : α → List Expr} (h : ∀ e ∈ f a, e ∈ given) :
    Holds given (Pure.pure a : Reader α) f := by
  intro feed x rest _ hx
  cases hx
  exact ⟨[], rfl, fun e he => .inl (h e he)⟩

theorem Holds.bind [Letters] {given : List Expr} {p : Reader α} {k : α → Reader β} {f : α → List Expr}
    {g : β → List Expr} (hp : Holds [] p f) (hk : ∀ a, Holds (f a ++ given) (k a) g) :
    Holds given (p >>= k) g := by
  intro feed x rest hord hx
  obtain ⟨a, mid, ha, hb⟩ := bind_eq_ok_iff.1 hx
  obtain ⟨used, hls, hfound⟩ := hp _ _ _ hord ha
  rw [hls] at hord
  obtain ⟨used', hls', hfound'⟩ := hk a _ _ _ hord.right hb
  refine ⟨used ++ used', by rw [hls, hls', List.append_assoc], fun e he => ?_⟩
  rcases hfound' e he with hgiven | ⟨part, hpart, hread⟩
  · rcases List.mem_append.1 hgiven with hmem | hmem
    · rcases hfound e hmem with hnil | ⟨part, hpart, hread⟩
      · cases hnil
      · exact .inr ⟨part, hpart.trans (List.prefix_append _ _).isInfix, hread⟩
    · exact .inl hmem
  · exact .inr ⟨part, hpart.trans (List.suffix_append _ _).isInfix, hread⟩

theorem Holds.map [Letters] {p : Reader α} {f : α → List Expr} {h : α → β} {g : β → List Expr}
    (hp : Holds [] p f) (hg : ∀ a, g (h a) = f a) : Holds [] (h <$> p) g :=
  hp.bind fun a => .pure fun e he => by rw [List.append_nil, ← hg]; exact he

theorem Holds.ite [Letters] {given : List Expr} {c : Prop} [Decidable c] {p q : Reader α}
    {f : α → List Expr} (hp : Holds given p f) (hq : Holds given q f) :
    Holds given (if c then p else q) f := by
  split
  · exact hp
  · exact hq

theorem Holds.fail [Letters] {given : List Expr} {p : Reader α} {f : α → List Expr}
    (h : ∀ feed r, p feed ≠ .ok r) : Holds given p f :=
  fun _ _ _ _ hx => absurd hx (h _ _)

theorem unexpected_holds [Letters] {given : List Expr} (expected : List Expected) (found : Option Lexeme)
    (f : α → List Expr) : Holds given (unexpected expected found) f :=
  .fail fun _ _ => unexpected_ne_ok

/-- What a reader takes that gives no expressions need not be known. -/
theorem Holds.of_moves [Letters] [Placed α] {p : Reader α} (h : Moves id p p) : Holds [] p fun _ => [] := by
  intro feed x rest hord hx
  obtain ⟨-, ⟨used, hls⟩, -⟩ := h.of_ok hord.regular hx
  exact ⟨used, hls.symm, fun e he => by cases he⟩

theorem Holds.of_takes [Letters] {p : Reader α} {f : α → List Expr} {R : α → List Lexeme → Prop}
    (h : Takes p R) (hf : ∀ a ls, R a ls → ∀ e ∈ f a, ∃ part, part <:+: ls ∧ e.ReadFrom part) :
    Holds [] p f := by
  intro feed x rest hord hx
  obtain ⟨used, hls, hr⟩ := h _ _ _ hord hx
  exact ⟨used, hls, fun e he => .inr (hf x used hr e he)⟩

theorem seq_holds [Letters] {item : Reader α} {f : α → List Expr} (hitem : Holds [] item f) (close : Token) :
    Holds [] (seq close item) fun s => s.items.flatMap f := by
  intro feed s rest hord hs
  obtain ⟨used, c, hls, -, -, hcommas⟩ := seq_takes hitem hord hs
  refine ⟨used ++ [c], by rw [hls]; simp, fun e he => ?_⟩
  obtain ⟨x, hx, he⟩ := List.mem_flatMap.1 he
  obtain ⟨part, hpart, hfound⟩ := hcommas.part hx
  rcases hfound e he with hnil | ⟨part', hpart', hread⟩
  · cases hnil
  · exact .inr ⟨part', (hpart'.trans hpart).trans (List.prefix_append _ _).isInfix, hread⟩

theorem expr_holds [Letters] (limit : Nat) : Holds [] (expr limit) fun e => [e] := by
  refine .of_takes (expr_takes limit) fun x ls hx e he => ?_
  rw [List.mem_singleton.1 he]
  exact ⟨ls, List.infix_refl ls, hx⟩

theorem filter_holds [Letters] (limit : Nat) : Holds [] (filter (expr limit)) Filter.values := by
  refine .of_takes (filter_takes (expr_takes limit)) fun f ls hf e he => ?_
  obtain ⟨part, hpart, hspelled⟩ := hf.spelled.value he
  exact ⟨part, hpart, hspelled, hf.normal e he⟩

theorem filters_holds [Letters] (limit : Nat) :
    Holds [] (many (filter? (expr limit))) fun fs => fs.flatMap Filter.values := by
  intro feed fs rest hord h
  obtain ⟨used, hls, hfs, -⟩ := filters_take (expr_takes limit) hord h
  refine ⟨used, hls, fun e he => ?_⟩
  obtain ⟨part, hpart, hspelled⟩ := hfs.spelled.value he
  exact .inr ⟨part, hpart, hspelled, hfs.normal e he⟩

/-! ## Statements -/

variable (limit : Nat)

theorem after?_holds [Letters] {item : Reader α} {f : α → List Expr} (hitem : Holds [] item f)
    (token : Token) : Holds [] (after? token item) fun x => x.toList.flatMap f := by
  refine (Holds.of_moves (eats_moves id token)).bind fun _ => .ite ?_ ?_
  · exact hitem.map fun a => by simp
  · exact .pure fun e he => by cases he

theorem pattern_holds [Letters] : Holds [] (pattern limit) fun _ => [] :=
  .of_moves (pattern_moves monotone_id limit)

theorem cond_holds [Letters] : Holds [] (cond limit) fun c => [c.value] := by
  refine (Holds.of_moves (eats_moves id _)).bind fun _ => .ite ?_ ?_
  · refine (pattern_holds limit).bind fun p => (Holds.of_moves (expect_moves id _)).bind fun _ => ?_
    exact (expr_holds limit).bind fun e => .pure fun e he => List.mem_append_left _ he
  · exact (expr_holds limit).bind fun e => .pure fun e he => List.mem_append_left _ he

theorem param_holds [Letters] : Holds [] (param limit) fun p => p.default.toList := by
  refine (Holds.of_moves (ident_moves id)).bind fun name => ?_
  refine (after?_holds (expr_holds limit) _).bind fun value => .pure fun e he => ?_
  cases value with
  | none => cases he
  | some v => exact List.mem_append_left _ he

theorem assign_holds [Letters] (word : LetWord) : Holds [] (assign limit word) StmtKind.exprs := by
  refine (Holds.of_moves (eats_moves id _)).bind fun _ => (pattern_holds limit).bind fun p => ?_
  refine (after?_holds (expr_holds limit) _).bind fun value => .pure fun e he => ?_
  cases value with
  | none => cases he
  | some v => exact List.mem_append_left _ he

theorem forLoop_holds [Letters] : Holds [] (forLoop limit) StmtKind.exprs := by
  refine (pattern_holds limit).bind fun p => (Holds.of_moves (expect_moves id _)).bind fun _ => ?_
  refine (expr_holds limit).bind fun iterable => ?_
  refine (after?_holds (expr_holds limit) _).bind fun cond => .pure fun e he => ?_
  rcases List.mem_cons.1 he with rfl | he
  · simp
  · cases cond with
    | none => cases he
    | some c => exact List.mem_append_left _ he

theorem macroDef_holds [Letters] : Holds [] (macroDef limit) StmtKind.exprs := by
  refine (Holds.of_moves (ident_moves id)).bind fun name => ?_
  refine (Holds.of_moves (expect_moves id _)).bind fun _ => ?_
  exact (seq_holds (param_holds limit) _).bind fun s => .pure fun e he => List.mem_append_left _ he

theorem callBlock_holds [Letters] : Holds [] (callBlock limit) StmtKind.exprs := by
  refine (Holds.of_moves (after?_moves (seq_moves (ident_moves id) _) _)).bind fun bindings => ?_
  refine (expr_holds limit).bind fun call => .ite ?_ ?_
  · exact .pure fun e he => List.mem_append_left _ he
  · exact (Holds.of_moves (peek_moves id)).bind fun found => unexpected_holds _ found _

theorem filterBlock_holds [Letters] : Holds [] (filterBlock limit) StmtKind.exprs := by
  refine (filter_holds limit).bind fun first => (filters_holds limit).bind fun more => ?_
  refine .pure fun e he => ?_
  have hmem : e ∈ first.values ++ more.flatMap Filter.values := he
  rcases List.mem_append.1 hmem with he | he
  · exact List.mem_append_right _ (List.mem_append_left _ he)
  · exact List.mem_append_left _ he

theorem stmtKind?_holds [Letters] {k : Keyword} {body : Reader StmtKind}
    (h : stmtKind? limit k = some body) : Holds [] body StmtKind.exprs := by
  unfold stmtKind? at h
  split at h <;> cases h
  case h_1 => exact (Holds.of_moves (ident_moves id)).map fun _ => rfl
  case h_2 => exact (Holds.of_moves (ident?_moves id)).map fun _ => rfl
  case h_3 => exact (Holds.of_moves (textLit_moves id)).map fun _ => rfl
  case h_4 => exact (Holds.of_moves (textLit_moves id)).map fun _ => rfl
  case h_5 =>
    refine (Holds.of_moves (textLit_moves id)).bind fun path => ?_
    refine (Holds.of_moves (expect_moves id _)).bind fun _ => ?_
    exact (Holds.of_moves (ident_moves id)).bind fun _ => .pure fun e he => by cases he
  case h_6 => exact assign_holds limit _
  case h_7 => exact assign_holds limit _
  case h_8 => exact forLoop_holds limit
  case h_12 => exact (cond_holds limit).map fun _ => rfl
  case h_13 =>
    refine (after?_holds (cond_holds limit) _).bind fun
      | none => .pure fun e he => by cases he
      | some c => .pure fun e he => List.mem_append_left _ he
  case h_14 => exact (cond_holds limit).map fun _ => rfl
  case h_16 => exact (expr_holds limit).map fun _ => rfl
  case h_18 => exact (Holds.of_moves (armPattern_moves monotone_id limit)).map fun _ => rfl
  case h_20 => exact macroDef_holds limit
  case h_21 => exact (Holds.of_moves (ident?_moves id)).map fun _ => rfl
  case h_22 => exact callBlock_holds limit
  case h_24 => exact filterBlock_holds limit
  all_goals exact .pure fun e he => by cases he

theorem stmt_holds [Letters] : Holds [] (stmt limit) fun s => s.kind.exprs := by
  refine (Holds.of_moves (next_moves id)).bind fun found => ?_
  cases found with
  | none => exact unexpected_holds _ none _
  | some l =>
    dsimp only
    split
    · split
      · exact unexpected_holds _ (some l) _
      · next body hbody =>
        refine (stmtKind?_holds limit hbody).bind fun kind => ?_
        refine (Holds.of_moves (last_moves id)).bind fun s => .pure fun e he => ?_
        exact List.mem_append_right _ (List.mem_append_left _ he)
    · exact unexpected_holds _ (some l) _

end Reader

/-! ## Templates -/

namespace Region

open Reader

/-- Whatever stands in the inside of a tag is listed by a stretch of its lexemes. -/
theorem exprs_of_body [Letters] {limit : Nat} {kind : TagKind} {feed rest : Feed} {b : Body}
    {closing : Lexeme} {trims : Trims} {span : Span} (hord : Orderly feed.lexemes)
    (h : body limit kind feed = .ok ((b, closing), rest)) :
    ∀ e ∈ (b.toNode trims span).exprs, ∃ part, part <:+: feed.lexemes ∧ e.ReadFrom part := by
  have hbody : Holds [] (body limit kind) fun r => (r.1.toNode trims span).exprs := by
    cases kind with
    | expr =>
      have hexpr : Holds [] (Body.expr <$> expr limit) fun b => (b.toNode trims span).exprs :=
        (expr_holds limit).map fun _ => rfl
      refine hexpr.bind fun b => (Holds.of_moves (expect_moves id _)).bind fun l => ?_
      exact .pure fun e he => List.mem_append_right _ (List.mem_append_left _ he)
    | block =>
      have hstmt : Holds [] (Body.stmt <$> stmt limit) fun b => (b.toNode trims span).exprs :=
        (stmt_holds limit).map fun _ => rfl
      refine hstmt.bind fun b => (Holds.of_moves (expect_moves id _)).bind fun l => ?_
      exact .pure fun e he => List.mem_append_right _ (List.mem_append_left _ he)
  intro e he
  obtain ⟨used, hls, hfound⟩ := hbody _ _ _ hord h
  rcases hfound e he with hnil | ⟨part, hpart, hread⟩
  · cases hnil
  · exact ⟨part, hpart.trans ⟨[], rest.lexemes, by rw [hls]; rfl⟩, hread⟩

/-- The lexemes of a tag are orderly. -/
theorem orderly_feed [Letters] {d : Delims} {lx : Lexer} {kind : TagKind} {afterDot : Bool}
    (hm : lx.mode = .tag kind afterDot) : Orderly (lx.feed d).1 where
  row := ⟨_, _, Lexer.inRow_feed (by rw [hm]; exact Mode.noConfusion)⟩
  spelled := by
    intro l hl
    rcases Lexer.spells_of_mem_feed hm hl with htoken | hspells
    · exact .inl (by rw [htoken]; exact Token.isClosing_closes kind)
    · exact .inr hspells

/-- Expressions come from tags only, and are listed by a stretch of the lexemes of their tag. -/
theorem Turn.exprs [Letters] {s : Settings} {lx next : Lexer} {r : Region} (h : Turn s lx r next)
    (hout : lx.inTag = false) {n : Node} (hn : r.node = some n) {e : Expr} (he : e ∈ n.exprs) :
    ∃ l inside kind, lx.step s.delims = .token l inside ∧ inside.mode = .tag kind false ∧
      ∃ part, part <:+: (inside.feed s.delims).1 ∧ e.ReadFrom part := by
  cases h with
  | @fault diagnostic next h =>
    unfold ofFault at hn
    dsimp only at hn
    split at hn
    · cases hn
    · cases hn
      split at he <;> cases he
  | @tag l kind next h hl =>
    obtain ⟨-, hmode⟩ := mode_of_opening hout (Lexer.emits_of_step h) hl
    refine ⟨l, next, kind, h, hmode, ?_⟩
    cases hbody : body s.limit kind (feedOf s l next) with
    | ok result =>
      obtain ⟨⟨b, closing⟩, rest⟩ := result
      rw [readTag_of_ok hbody] at hn
      cases hn
      exact exprs_of_body (orderly_feed hmode) hbody e he
    | error diagnostic =>
      rw [readTag_of_error hbody] at hn
      cases hn
      cases he
  | @lexeme l next h hl =>
    unfold ofLexeme at hn
    split at hn <;> cases hn <;> cases he

end Region

namespace Template

/-- Every expression of a template, however deep inside of a tag, is normal, and its listing is what
    the lexer gives over its span: neither more nor less, except that a comma may stand after the last
    item of a list in brackets. -/
theorem exprs_normal_and_listed [Letters] (s : Settings) (source : String) (n : Node)
    (hn : n ∈ (s.parse source).template.nodes) (root e : Expr) (hroot : root ∈ n.exprs)
    (he : root.HasPart e) :
    e.Normal ∧ e.Spelled Quoting.any Span.Over
      ((tagLexemes s.delims source n.span.start).filter (Lexeme.isWithin e.span)) := by
  obtain ⟨i, hi⟩ := List.mem_iff_getElem?.1 hn
  obtain ⟨before, r, after, hsplit, hr, -, -⟩ := exists_split_of_node hi
  obtain ⟨used, place, hreach, hplace, hregions, -⟩ :=
    exists_place_of_split (Lexer.start source.toList) rfl before after r hsplit
  have hraw : n.isRaw = false := by
    cases n with
    | raw text span => cases hroot
    | _ => rfl
  obtain ⟨hstart, hmode⟩ := mode_of_node hplace hregions hr hraw
  -- The node was read in one turn at that place, from the lexemes of its tag.
  have hturn : ∃ next, Region.Turn s place r next := by
    rcases done_or_turn s place with hdone | ⟨r', next, hturn⟩
    · rw [regions_of_done hdone] at hregions
      cases hregions
    · rw [hturn.regions_eq] at hregions
      cases hregions
      exact ⟨next, hturn⟩
  obtain ⟨next, hturn⟩ := hturn
  obtain ⟨l, inside, kind, hstep, hinside, part, hpart, hread⟩ := hturn.exprs hplace hr hroot
  have hlexemes : tagLexemes s.delims source n.span.start = (inside.feed s.delims).1 := by
    have htext : source.toList = used ++ place.rest := hreach.text
    have hpos : n.span.start = byteLen used := by
      rw [hstart, hreach.pos]
      exact Nat.zero_add _
    unfold tagLexemes
    rw [hpos, htext, splitAtByte?_append]
    dsimp only
    rw [← hpos, hstart, ← hmode, hstep]
  obtain ⟨part', hpart', hspelled⟩ := hread.spelled.part he
  have hrow : Lexeme.InRow inside.pos (inside.feed s.delims).1 (inside.feed s.delims).2.2.pos :=
    Lexer.inRow_feed (by rw [hinside]; exact Mode.noConfusion)
  rw [hlexemes, filter_within hrow (hpart'.trans hpart) hspelled.place]
  exact ⟨hread.normal.part he, hspelled⟩

/-- In a loop over `a + b * c` the product is an expression of its own. -/
theorem product_normal_and_listed :
    let source := "\x7b% for x in a + b * c %\x7d"
    ∃ n ∈ (parse source).template.nodes, ∃ root ∈ n.exprs, ∃ e, root.HasPart e ∧ e.rank = 10 ∧
      e.Normal ∧ e.Spelled Quoting.any Span.Over
        ((tagLexemes Delims.standard source n.span.start).filter (Lexeme.isWithin e.span)) := by
  intro source
  have hproduct : (parse source).template.nodes.any (fun n =>
      n.exprs.any fun root => root.children.any fun e => e.rank == 10) = true := by
    decide +kernel
  obtain ⟨n, hn, hexprs⟩ := List.any_eq_true.1 hproduct
  obtain ⟨root, hroot, hchildren⟩ := List.any_eq_true.1 hexprs
  obtain ⟨e, hchild, hrank⟩ := List.any_eq_true.1 hchildren
  have he : root.HasPart e := .child hchild (.self e)
  exact ⟨n, hn, root, hroot, e, he, eq_of_beq hrank,
    exprs_normal_and_listed Settings.standard source n hn root e hroot he⟩

end Template

end Stencil
