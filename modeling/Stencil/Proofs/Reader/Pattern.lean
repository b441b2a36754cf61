/-
  Pattern — patterns are read back from their lexemes.

  `p.ReadAtom ls` says that the lexemes `ls` are read as the pattern `p` by the reader of patterns without
  alternatives, `p.ReadFull ls` that they are by the reader of all patterns, in each case before every
  token that does not go on with what stands there.  For each kind of pattern there is a lemma that puts
  `ReadAtom` together from `ReadFull` of the patterns inside; alternatives are atoms with bars between
  them (`ReadBranches`) and give `ReadFull`.

  As for expressions, no list of lexemes is shorter than the budget that its reading needs.
-/
import Stencil.Proofs.Expr.Completeness
import Stencil.Proofs.Expr.Writing
import Stencil.Proofs.Stmt.Normal
import Stencil.Proofs.Stmt.Shown

namespace Stencil

/-- The tokens that go on with a pattern without alternatives: with its path, or with what a structure
    is taken apart by. -/
def Token.onAtom : List Token := [.pathSep, .lparen, .lbrace]

/-- The tokens that go on with a pattern. -/
def Token.onPattern : List Token := [.pipe, .keyword .orKw, .pathSep, .lparen, .lbrace]

theorem Token.not_mem_onAtom {t : Token} (h : t ∉ onPattern) : t ∉ onAtom :=
  fun hmem => h (List.mem_cons_of_mem _ (List.mem_cons_of_mem _ hmem))

/-- No pattern begins with one of these tokens. -/
def Token.notPattern : List Token := [.comma, .rparen, .rbracket, .rbrace, .keyword .mutKw]

@[simp] theorem Pattern.span_bare (p : Pattern) : (bare p).span = ⟨0, 0⟩ := Pattern.span_move _ p

namespace Pattern

open Reader

/-- The lexemes are read as the pattern where one without alternatives is read. -/
def ReadAtom (p : Pattern) (ls : List Lexeme) : Prop :=
  ∀ (limit budget : Nat) (stop : Lexer.Stop) (c : Lexeme) (more : List Lexeme),
    ls.length ≤ budget + 1 → c.token ∉ Token.onAtom →
    patternAtom (patternWithin limit budget) (bareFeed stop (ls ++ c :: more)) =
      .ok (bare p, bareFeed stop (c :: more))

/-- The lexemes are read as the pattern. -/
def ReadFull (p : Pattern) (ls : List Lexeme) : Prop :=
  ∀ (limit budget : Nat) (stop : Lexer.Stop) (c : Lexeme) (more : List Lexeme),
    ls.length ≤ budget → c.token ∉ Token.onPattern →
    patternWithin limit budget (bareFeed stop (ls ++ c :: more)) =
      .ok (bare p, bareFeed stop (c :: more))

end Pattern

/-- The lexemes are read as the field of a structure. -/
def FieldPattern.ReadField (f : FieldPattern) (ls : List Lexeme) : Prop :=
  ∀ (limit budget : Nat) (stop : Lexer.Stop) (c : Lexeme) (more : List Lexeme),
    ls.length ≤ budget → c.token = .comma ∨ c.token = .rbrace →
    Reader.fieldPattern (Reader.patternWithin limit budget) (bareFeed stop (ls ++ c :: more)) =
      .ok (bare f, bareFeed stop (c :: more))

namespace Reader

variable {P : Span → List Lexeme → Prop} {inner : Reader Pattern} {stop : Lexer.Stop} {l c : Lexeme}
  {ls rest : List Lexeme}

/-! ## What a pattern begins with -/

theorem patternAtom_notPattern (h : l.token ∈ Token.notPattern) {r : Pattern × Feed} :
    patternAtom inner (bareFeed stop (l :: ls)) ≠ .ok r := by
  intro hok
  simp only [Token.notPattern, List.mem_cons, List.not_mem_nil, or_false] at h
  unfold patternAtom at hok
  rw [bind_of_ok next_bare] at hok
  dsimp only at hok
  rw [token_bare] at hok
  rcases h with h | h | h | h | h <;> rw [h] at hok <;> dsimp only at hok <;>
    rw [isUnderscore_bind_feed, token_bare, h] at hok <;> cases hok

theorem patternAtom_of_literal (h : isLiteral l.token = true) :
    patternAtom inner (bareFeed stop (l :: ls)) =
      (do return .lit (← literalOf (bare l) false) (bare l).span : Reader Pattern)
        (bareFeed stop ls) := by
  unfold patternAtom
  rw [bind_of_ok next_bare]
  dsimp only
  have hbar : (isUnderscore (bare l) : Reader Bool) = pure false := by
    rw [isUnderscore_feed, token_bare, decide_eq_false]
    rintro ⟨ht, -⟩
    rw [ht] at h
    cases h
  rw [token_bare, hbar]
  cases ht : l.token with
  | number => rfl
  | str => rfl
  | char => rfl
  | keyword k =>
    rw [ht] at h
    show (if false = true then _ else _ : Reader Pattern) _ = _
    rw [if_neg Bool.false_ne_true, if_pos h]
  | _ => rw [ht] at h; cases h

/-- A name begins a path, unless it is an underscore. -/
theorem patternAtom_of_name [Letters] {i : Ident} (hi : i.Spelled P l) (hname : isName i.name = true)
    (hbar : i.name ≠ "_") :
    patternAtom inner (bareFeed stop (l :: ls)) =
      structPattern inner false (bare i) ⟨0, 0⟩ (bareFeed stop ls) := by
  have htoken : l.token.isName = true := by rw [hi.1.1]; exact isName_wordToken hname
  have htext : l.text ≠ ['_'] := by
    intro heq
    rw [hi.1.2] at heq
    exact hbar (String.toList_inj.1 heq)
  unfold patternAtom
  rw [bind_of_ok next_bare]
  dsimp only
  have hunderscore : (isUnderscore (bare l) : Reader Bool) = pure false := by
    rw [isUnderscore_feed, text_bare, decide_eq_false fun h => htext h.2]
  rw [token_bare, span_bare, nameOf_bind_feed, hi.identOf, hunderscore]
  cases ht : l.token with
  | ident => rfl
  | keyword k =>
    rw [ht] at htoken
    -- The truth values are reserved, so no name is a constant.
    have hliteral : isLiteral (.keyword k) = false := by
      revert htoken
      cases k <;> decide
    show (if false = true then _ else _ : Reader Pattern) _ = _
    rw [if_neg Bool.false_ne_true, if_neg (by rw [hliteral]; exact Bool.false_ne_true), if_pos htoken]
  | _ => rw [ht] at htoken; cases htoken

/-! ## Paths -/

/-- The lexemes of a path are read as its first name and then the rest of it. -/
theorem patternAtom_of_path [Letters] {p : Path} (hp : p.IsPattern)
    (h : PathSpelled P p.global p.segments ls) :
    ∃ i more a, p.segments = i :: more ∧ SegmentsSpelled P more a ∧
      ∀ (inner : Reader Pattern) (stop : Lexer.Stop) (rest : List Lexeme),
        patternAtom inner (bareFeed stop (ls ++ rest)) =
          structPattern inner p.global (bare i) ⟨0, 0⟩ (bareFeed stop (a ++ rest)) := by
  obtain ⟨global, segments, span⟩ := p
  obtain ⟨hnames, hne, hfirst⟩ := hp
  dsimp only at h hnames hne hfirst ⊢
  cases h with
  | absolute h =>
    cases h with
    | nil => exact absurd rfl hne
    | @cons i more sep l a hsep hi h =>
      refine ⟨i, more, a, rfl, h, fun inner stop rest => ?_⟩
      have hident : ident (bareFeed stop (l :: (a ++ rest))) = .ok (bare i, bareFeed stop (a ++ rest)) :=
        ident_of_spelled hi (hnames i List.mem_cons_self)
      unfold patternAtom
      rw [List.cons_append, List.cons_append, bind_of_ok next_bare]
      dsimp only
      rw [token_bare, hsep.1]
      dsimp only
      rw [bind_of_ok hident]
      rfl
  | @relative i more l a hi h =>
    exact ⟨i, more, a, rfl, h, fun inner stop rest =>
      patternAtom_of_name hi (hnames i List.mem_cons_self) (hfirst rfl i rfl)⟩

theorem pathSegments_bare [Letters] {more : List Ident} (h : SegmentsSpelled P more ls)
    (hnames : ∀ i ∈ more, isName i.name = true) (hc : c.token ≠ .pathSep) :
    many pathSegment? (bareFeed stop (ls ++ c :: rest)) = .ok (bare more, bareFeed stop (c :: rest)) := by
  have hnone : pathSegment? (bareFeed stop (c :: rest)) = .ok (none, bareFeed stop (c :: rest)) := by
    unfold pathSegment?
    rw [bind_of_ok (eats_of_ne hc)]
    rfl
  refine many_bare (G := fun _ => True) ?_ (fun _ _ _ _ => trivial) trivial hnone h.row.bounded
  rintro i _ rest' ⟨⟨sep, l, rfl, hsep, hi⟩, hmem, -⟩ -
  unfold pathSegment?
  rw [List.cons_append, List.singleton_append, bind_of_ok (eats_of_eq hsep.1), if_pos rfl,
    map_of_ok (ident_of_spelled hi (hnames i hmem))]

/-- A path that nothing is taken apart of. -/
theorem patternAtom_path [Letters] {p : Path} (hp : p.IsPattern) (h : PathSpelled P p.global p.segments ls)
    (hc : c.token ∉ Token.onAtom) :
    patternAtom inner (bareFeed stop (ls ++ c :: rest)) =
      .ok (pathPattern (bare p), bareFeed stop (c :: rest)) := by
  obtain ⟨i, more, a, hsegments, ha, hread⟩ := patternAtom_of_path hp h
  have hnames := hp.names
  rw [hsegments, List.forall_mem_cons] at hnames
  simp only [Token.onAtom, List.mem_cons, List.not_mem_nil, or_false, not_or] at hc
  have hbare : bare p = ⟨p.global, bare (i :: more), ⟨0, 0⟩⟩ := by rw [← hsegments]; rfl
  rw [hread, hbare]
  unfold structPattern
  rw [bind_of_ok (pathSegments_bare ha hnames.2 hc.1)]
  dsimp only
  rw [bind_of_ok (eats_of_ne hc.2.1), if_neg Bool.false_ne_true, bind_of_ok (eats_of_ne hc.2.2),
    if_neg Bool.false_ne_true, span_getLastD_bare]
  rfl

end Reader

namespace Pattern

open Reader

variable {P : Span → List Lexeme → Prop} {ls : List Lexeme} {s : Span}

theorem ReadFull.head {p : Pattern} (h : p.ReadFull ls) :
    ∃ l a, ls = l :: a ∧ l.token ∉ Token.notPattern := by
  -- What begins in another way is not read at all.
  have hnone : ∀ {l : Lexeme} {a : List Lexeme} {budget : Nat} {r : Pattern × Feed},
      l.token ∈ Token.notPattern →
      patternWithin 0 (budget + 1) (bareFeed (.atEnd 0) (l :: a)) ≠ .ok r := by
    intro l a budget r hl hok
    obtain ⟨first, mid, hfirst, -⟩ := bind_eq_ok_iff.1 hok
    exact patternAtom_notPattern hl hfirst
  have hread := h 0 (ls.length + 1) (.atEnd 0) Token.comma.lexeme [] (Nat.le_succ _) (by decide)
  cases ls with
  | nil => exact absurd hread (hnone (by decide))
  | cons l a => exact ⟨l, a, rfl, fun hl => hnone hl hread⟩

/-! ## Patterns with nothing inside -/

theorem placeholder_read : (placeholder s).ReadAtom [wordLexeme "_"] := by
  intro limit budget stop c more _ _
  unfold patternAtom
  rw [List.singleton_append, bind_of_ok next_bare]
  dsimp only
  rw [token_bare, show (wordLexeme "_").token = .ident from wordToken_underscore]
  rfl

theorem rest_read : (rest s).ReadAtom [Token.dotDot.lexeme] := fun _ _ _ _ _ _ _ => rfl

theorem lit_read {q : Quoting} {v : Literal} (h : v.Spelled q ls)
    (hn : ∀ n, v = .num n → n.IsWritten) : (lit v s).ReadAtom ls := by
  intro limit budget stop c more _ _
  have hone : ∀ {l : Lexeme}, v.Spelled q [l] →
      patternAtom (patternWithin limit budget) (bareFeed stop ([l] ++ c :: more)) =
        .ok (bare (lit v s), bareFeed stop (c :: more)) := by
    intro l hl
    obtain ⟨hliteral, hvalue⟩ := literalOf_bare hl hn (bareFeed stop (c :: more))
    rw [List.singleton_append, patternAtom_of_literal hliteral, bind_of_ok hvalue]
    rfl
  cases h with
  | str ht hv => exact hone (.str ht hv)
  | char ht hv => exact hone (.char ht hv)
  | num hneg ht hr => exact hone (.num hneg ht hr)
  | bool hb => exact hone (.bool hb)
  | @negative m minus l hneg hminus ht hr =>
    have hvalue : literalOf (bare l) true (bareFeed stop (c :: more)) =
        .ok (.num m, bareFeed stop (c :: more)) := by
      rw [← hneg]
      exact literalOf_number ht hr (hn m rfl)
    unfold patternAtom
    rw [List.cons_append, List.singleton_append, bind_of_ok next_bare]
    dsimp only
    rw [token_bare, hminus.1]
    dsimp only
    unfold negativePattern
    rw [bind_of_ok next_bare]
    dsimp only
    rw [token_bare, if_pos ht, bind_of_ok hvalue]
    rfl

theorem path_read [Letters] {p : Path} (hp : p.IsPattern) (hlong : p.global = false → p.segments.length ≠ 1)
    (h : PathSpelled P p.global p.segments ls) : (path p s).ReadAtom ls := by
  intro limit budget stop c more _ hc
  have hpath : pathPattern (bare p) = bare (path p s) := by
    unfold pathPattern
    split
    · next i hglobal hsegments =>
      have hlength : (List.map (move fun _ => 0) p.segments).length = 1 := by
        rw [show List.map _ p.segments = [i] from hsegments]
        rfl
      rw [List.length_map] at hlength
      exact absurd hlength (hlong hglobal)
    · rfl
  rw [patternAtom_path hp h hc, hpath]

theorem ident_read [Letters] {n : String} (hname : isName n = true) (hbar : n ≠ "_") :
    (ident n s).ReadAtom [wordLexeme n] := by
  intro limit budget stop c more _ hc
  have hp : Path.IsPattern ⟨false, [⟨n, s⟩], s⟩ :=
    ⟨List.forall_mem_singleton.2 hname, List.cons_ne_nil _ _,
      fun _ i hi => by cases hi; exact hbar⟩
  exact patternAtom_path hp (.relative (Ident.spelled_wordLexeme ⟨n, s⟩) .nil) hc

/-! ## Patterns in brackets -/

/-- Patterns in brackets are read back as a list. -/
theorem list_read {ps : List Pattern} {trailing : Bool} {close : Token} {c : Lexeme}
    (h : Commas ReadFull ps trailing ls) (hclose : close ∈ [Token.rparen, .rbracket])
    (hc : c.token = close) (limit budget : Nat) (hlength : ls.length ≤ budget)
    (stop : Lexer.Stop) (more : List Lexeme) :
    seq close (patternWithin limit budget) (bareFeed stop (ls ++ c :: more)) =
      .ok (⟨bare ps, trailing, ⟨0, 0⟩⟩, bareFeed stop more) := by
  have hkinds : ∀ t ∈ [Token.rparen, .rbracket],
      t ≠ .comma ∧ t ∉ Token.onPattern ∧ t ∈ Token.notPattern := by decide
  obtain ⟨hcomma, hend, hnot⟩ := hkinds close hclose
  refine seq_bare ?_ ?_ hcomma h.bounded hc
  · rintro p a c' more' ⟨hp, -, hle⟩ hc'
    refine hp limit budget stop c' more' (Nat.le_trans hle hlength) ?_
    rcases hc' with hc' | hc' <;> rw [hc']
    · decide
    · exact hend
  · rintro p a ⟨hp, -⟩
    obtain ⟨l, b, rfl, hl⟩ := hp.head
    exact ⟨l, b, rfl, fun heq => hl (by rw [heq]; exact hnot)⟩

/-- A list in parentheses is a tuple, if it is not a single pattern without a comma. -/
theorem tuple_read {ps : List Pattern} {trailing : Bool} {o c : Lexeme}
    (ho : o.Is .lparen) (h : Commas ReadFull ps trailing ls) (hc : c.Is .rparen)
    (hone : ps.length = 1 → trailing = true) : (tuple ps s).ReadAtom (o :: (ls ++ [c])) := by
  intro limit budget stop c' more hlength _
  simp only [List.length_cons, List.length_append, List.length_nil] at hlength
  have hitems := list_read h (by decide) hc.1 limit budget (by omega) stop (c' :: more)
  unfold patternAtom
  rw [List.cons_append, List.append_assoc, List.singleton_append, bind_of_ok next_bare]
  dsimp only
  rw [token_bare, ho.1]
  dsimp only
  unfold tuplePattern
  rw [bind_of_ok hitems, show bare (tuple ps s) = tuple (bare ps) ⟨0, 0⟩ from move_tuple _ ps s]
  match ps, trailing with
  | [], _ => rfl
  | [p], true => rfl
  | [p], false => cases hone rfl
  | p :: q :: ps, _ => rfl

theorem slice_read {ps : List Pattern} {trailing : Bool} {o c : Lexeme} (ho : o.Is .lbracket)
    (h : Commas ReadFull ps trailing ls) (hc : c.Is .rbracket) :
    (slice ps s).ReadAtom (o :: (ls ++ [c])) := by
  intro limit budget stop c' more hlength _
  simp only [List.length_cons, List.length_append, List.length_nil] at hlength
  have hitems := list_read h (by decide) hc.1 limit budget (by omega) stop (c' :: more)
  unfold patternAtom
  rw [List.cons_append, List.append_assoc, List.singleton_append, bind_of_ok next_bare]
  dsimp only
  rw [token_bare, ho.1]
  dsimp only
  unfold slicePattern
  rw [bind_of_ok hitems, show bare (slice ps s) = slice (bare ps) ⟨0, 0⟩ from move_slice _ ps s]
  rfl

end Pattern

/-! ## Fields -/

namespace FieldPattern

open Reader

variable {ls : List Lexeme} {s : Span}

/-- A field begins with a name or with two dots. -/
theorem ReadField.head {f : FieldPattern} (h : f.ReadField ls) :
    ∃ l a, ls = l :: a ∧ l.token ≠ .rbrace := by
  have hnone : ∀ {inner : Reader Pattern} {l : Lexeme} {a : List Lexeme} {r : FieldPattern × Feed},
      l.token = .comma ∨ l.token = .rbrace →
      fieldPattern inner (bareFeed (.atEnd 0) (l :: a)) ≠ .ok r := by
    intro inner l a r hl hok
    have hdots : l.token ≠ .dotDot := by rcases hl with hl | hl <;> rw [hl] <;> decide
    have hname : ¬ l.token.isName = true := by rcases hl with hl | hl <;> rw [hl] <;> decide
    unfold fieldPattern at hok
    rw [bind_of_ok (eat_of_ne hdots)] at hok
    obtain ⟨name, mid, hident, -⟩ := bind_eq_ok_iff.1 hok
    obtain ⟨l', hl', -, hls⟩ := ident_eq_ok hident
    obtain rfl : bare l = l' := (List.cons.inj hls).1
    exact hname hl'
  have hread := h 0 ls.length (.atEnd 0) Token.comma.lexeme [] (Nat.le_refl _) (.inl rfl)
  cases ls with
  | nil => exact absurd hread (hnone (.inl rfl))
  | cons l a => exact ⟨l, a, rfl, fun hl => hnone (.inr hl) hread⟩

theorem wordLexeme_ne_dotDot (n : String) : (wordLexeme n).token ≠ .dotDot := by
  show wordToken n ≠ .dotDot
  unfold wordToken
  split <;> exact Token.noConfusion

theorem rest_read : (rest s).ReadField [Token.dotDot.lexeme] := fun _ _ _ _ _ _ _ => rfl

theorem name_read [Letters] {n : Ident} (hname : isName n.name = true) :
    (field n none).ReadField [wordLexeme n.name] := by
  intro limit budget stop c more _ hc
  have hcolon : c.token ≠ .colon := by rcases hc with hc | hc <;> rw [hc] <;> decide
  unfold fieldPattern
  rw [List.singleton_append, bind_of_ok (eat_of_ne (wordLexeme_ne_dotDot n.name))]
  dsimp only
  rw [bind_of_ok (ident_of_spelled n.spelled_wordLexeme hname), bind_of_ok (eats_of_ne hcolon)]
  rfl

theorem named_read [Letters] {n : Ident} {p : Pattern} {m : Lexeme} (hname : isName n.name = true)
    (hm : m.Is .colon) (h : p.ReadFull ls) :
    (field n (some p)).ReadField (wordLexeme n.name :: m :: ls) := by
  intro limit budget stop c more hlength hc
  simp only [List.length_cons] at hlength
  have hend : c.token ∉ Token.onPattern := by rcases hc with hc | hc <;> rw [hc] <;> decide
  unfold fieldPattern
  rw [List.cons_append, List.cons_append, bind_of_ok (eat_of_ne (wordLexeme_ne_dotDot n.name))]
  dsimp only
  rw [bind_of_ok (ident_of_spelled n.spelled_wordLexeme hname), bind_of_ok (eats_of_eq hm.1),
    if_pos rfl, bind_of_ok (h limit budget stop c more (by omega) hend)]
  rfl

end FieldPattern

namespace Pattern

open Reader

variable {P : Span → List Lexeme → Prop} {ls : List Lexeme} {s : Span}

/-! ## Structures taken apart -/

theorem tupleStruct_read [Letters] {p : Path} {ps : List Pattern} {trailing : Bool} {a : List Lexeme}
    {o c : Lexeme} (hp : p.IsPattern) (ha : PathSpelled P p.global p.segments a) (ho : o.Is .lparen)
    (h : Commas ReadFull ps trailing ls) (hc : c.Is .rparen) :
    (tupleStruct p ps s).ReadAtom (a ++ o :: (ls ++ [c])) := by
  intro limit budget stop c' more hlength _
  obtain ⟨i, segments, b, hsegments, hb, hread⟩ := patternAtom_of_path hp ha
  have hnames := hp.names
  rw [hsegments, List.forall_mem_cons] at hnames
  simp only [List.length_append, List.length_cons, List.length_nil] at hlength
  have hitems := list_read h (by decide) hc.1 limit budget (by omega) stop (c' :: more)
  have hsep : o.token ≠ .pathSep := by rw [ho.1]; decide
  have hbare : bare (tupleStruct p ps s) =
      tupleStruct ⟨p.global, bare (i :: segments), ⟨0, 0⟩⟩ (bare ps) ⟨0, 0⟩ := by
    rw [← hsegments]
    exact move_tupleStruct _ p ps s
  rw [List.append_assoc, List.cons_append, List.append_assoc, List.singleton_append, hread, hbare]
  unfold structPattern
  rw [bind_of_ok (pathSegments_bare hb hnames.2 hsep)]
  dsimp only
  rw [bind_of_ok (eats_of_eq ho.1), if_pos rfl, bind_of_ok hitems, span_getLastD_bare]
  rfl

theorem struct_read [Letters] {p : Path} {fs : List FieldPattern} {a : List Lexeme} {o c : Lexeme}
    (hp : p.IsPattern) (ha : PathSpelled P p.global p.segments a) (ho : o.Is .lbrace)
    (h : Commas FieldPattern.ReadField fs false ls) (hc : c.Is .rbrace) :
    (struct p fs s).ReadAtom (a ++ o :: (ls ++ [c])) := by
  intro limit budget stop c' more hlength _
  obtain ⟨i, segments, b, hsegments, hb, hread⟩ := patternAtom_of_path hp ha
  have hnames := hp.names
  rw [hsegments, List.forall_mem_cons] at hnames
  simp only [List.length_append, List.length_cons, List.length_nil] at hlength
  have hfields : seq .rbrace (fieldPattern (patternWithin limit budget))
      (bareFeed stop (ls ++ c :: c' :: more)) =
        .ok (⟨bare fs, false, ⟨0, 0⟩⟩, bareFeed stop (c' :: more)) := by
    refine seq_bare ?_ ?_ (by decide) h.bounded hc.1
    · rintro f b c'' more' ⟨hf, -, hle⟩ hc''
      exact hf limit budget stop c'' more' (by omega) hc''
    · rintro f b ⟨hf, -⟩
      exact hf.head
  have hsep : o.token ≠ .pathSep := by rw [ho.1]; decide
  have hparen : o.token ≠ .lparen := by rw [ho.1]; decide
  have hbare : bare (struct p fs s) =
      struct ⟨p.global, bare (i :: segments), ⟨0, 0⟩⟩ (bare fs) ⟨0, 0⟩ := by
    rw [← hsegments]
    exact move_struct _ p fs s
  rw [List.append_assoc, List.cons_append, List.append_assoc, List.singleton_append, hread, hbare]
  unfold structPattern
  rw [bind_of_ok (pathSegments_bare hb hnames.2 hsep)]
  dsimp only
  rw [bind_of_ok (eats_of_ne hparen), if_neg Bool.false_ne_true, bind_of_ok (eats_of_eq ho.1),
    if_pos rfl, bind_of_ok hfields, span_getLastD_bare]
  rfl

/-! ## Alternatives -/

/-- The lexemes are read as the alternatives: the first one, and the others with bars before them. -/
def ReadBranches (qs : List Pattern) (ls : List Lexeme) : Prop :=
  ∃ first others a b, qs = first :: others ∧ ls = a ++ b ∧ first.ReadAtom a ∧
    Row (fun q c => ∃ bar d, c = bar :: d ∧ bar.Is .pipe ∧ q.ReadAtom d) others b

theorem ReadAtom.branches {p : Pattern} (h : p.ReadAtom ls) : ReadBranches [p] ls :=
  ⟨p, [], ls, [], rfl, (List.append_nil ls).symm, h, .nil⟩

/-- Alternatives after alternatives, with a bar between them. -/
theorem ReadBranches.append {qs qs' : List Pattern} {a b : List Lexeme} {bar : Lexeme}
    (h : ReadBranches qs a) (hbar : bar.Is .pipe) (h' : ReadBranches qs' b) :
    ReadBranches (qs ++ qs') (a ++ bar :: b) := by
  obtain ⟨first, others, c, d, rfl, rfl, hfirst, hothers⟩ := h
  obtain ⟨first', others', c', d', rfl, rfl, hfirst', hothers'⟩ := h'
  refine ⟨first, others ++ first' :: others', c, d ++ (bar :: c') ++ d', rfl, by simp, hfirst, ?_⟩
  rw [List.append_assoc]
  exact hothers.append (.cons ⟨bar, c', rfl, hbar, hfirst'⟩ (List.cons_ne_nil _ _) hothers')

/-- Alternatives are read back as one pattern. -/
theorem ReadBranches.full {p : Pattern} (h : ReadBranches p.branches ls)
    (htwo : ∀ ps s, p = alternatives ps s → 2 ≤ ps.length) : p.ReadFull ls := by
  intro limit budget stop c more hlength hc
  obtain ⟨first, others, a, b, hqs, rfl, hfirst, hothers⟩ := h
  have hnotAtom := Token.not_mem_onAtom hc
  simp only [Token.onPattern, List.mem_cons, List.not_mem_nil, or_false, not_or] at hc
  obtain ⟨hpipe, hor, -⟩ := hc
  cases budget with
  | zero =>
    -- Without any levels left there is nothing to read.
    obtain rfl : a = [] := List.length_eq_zero_iff.1 (by rw [List.length_append] at hlength; omega)
    have hread := hfirst limit 0 stop Token.comma.lexeme [] (Nat.zero_le _) (by decide)
    exact absurd hread (patternAtom_notPattern (by decide))
  | succ budget =>
    rw [List.length_append] at hlength
    -- An atom is followed by a bar or by what comes after the pattern.
    let G : List Lexeme → Prop := fun rest => ∃ l rest', rest = l :: rest' ∧ l.token ∉ Token.onAtom
    have hnext : ∀ (q : Pattern) (d rest : List Lexeme),
        ((∃ bar e, d = bar :: e ∧ bar.Is .pipe ∧ q.ReadAtom e) ∧ q ∈ others ∧ d.length ≤ b.length) →
        G (d ++ rest) := by
      rintro q _ rest ⟨⟨bar, e, rfl, hbar, -⟩, -⟩
      exact ⟨bar, e ++ rest, rfl, by rw [hbar.1]; decide⟩
    have hend : G (c :: more) := ⟨c, more, rfl, hnotAtom⟩
    have hatom : ∀ {q : Pattern} {d rest : List Lexeme}, q.ReadAtom d → d.length ≤ budget + 1 → G rest →
        patternAtom (patternWithin limit budget) (bareFeed stop (d ++ rest)) =
          .ok (bare q, bareFeed stop rest) := by
      rintro q d _ hq hle ⟨l, rest', rfl, hl⟩
      exact hq limit budget stop l rest' hle hl
    have hmany : many (alternative? (patternAtom (patternWithin limit budget)))
        (bareFeed stop (b ++ c :: more)) = .ok (bare others, bareFeed stop (c :: more)) := by
      refine many_bare ?_ hnext hend ?_ hothers.bounded
      · rintro q _ rest ⟨⟨bar, e, rfl, hbar, hq⟩, -, hle⟩ hrest
        rw [List.length_cons] at hle
        unfold alternative?
        rw [List.cons_append, bind_of_ok (eats_of_eq hbar.1), if_pos rfl,
          map_of_ok (hatom hq (by omega) hrest)]
      · unfold alternative?
        rw [bind_of_ok (eats_of_ne hpipe), if_neg Bool.false_ne_true, bind_of_ok (eats_of_ne hor)]
        rfl
    have hafter : G (b ++ c :: more) := by
      cases hothers with
      | nil => exact hend
      | cons hx _ _ =>
        obtain ⟨bar, e, rfl, hbar, -⟩ := hx
        exact ⟨bar, _, rfl, by rw [hbar.1]; decide⟩
    unfold patternWithin
    rw [within_feed, alternatives_feed, List.append_assoc, bind_of_ok (hatom hfirst (by omega) hafter), bind_of_ok hmany]
    -- One alternative is no alternative at all.
    cases p with
    | alternatives ps s' =>
      obtain rfl : ps = first :: others := hqs
      have hne : others ≠ [] := by
        have hlong := htwo _ _ rfl
        rintro rfl
        exact absurd hlong (show ¬ 2 ≤ 1 by decide)
      have hlast : (bare others).getLast? = some (bare (others.getLast hne)) := by
        show (others.map _).getLast? = _
        rw [List.getLast?_map, List.getLast?_eq_some_getLast hne]
        rfl
      rw [hlast]
      dsimp only
      rw [span_bare, span_bare]
      exact congrArg (fun p => Except.ok (p, bareFeed stop (c :: more)))
        (move_alternatives _ (first :: others) s').symm
    | _ =>
      cases hqs
      rfl

end Pattern

end Stencil
