/-
  Extent — the way through a tag.

  A tag is read by the grammar, and the grammar may give up anywhere.  Where reading goes on behind the tag does not
  depend on that: it is where skipping from behind the opening delimiter ends (`Region.pos_readTag`).

  `lx.Passes d place` says that the lexer comes by the place on its way through the tag.  Skipping from any such
  place ends where skipping from the start does (`Passes.skipTag_eq`): each step inside the tag is one round of the
  skip.  Collecting the lexemes of a tag is one way of passing through it (`passes_feed`); if a reader accepts them,
  the last one is the closing delimiter, after which there is nothing to skip.
-/
import Stencil.Proofs.Template.Memoryless

namespace Stencil

variable [Letters]

/-- Whether the node stands for a tag, one that could not be read included. -/
def Node.isTag : Node → Bool
  | tag .. | expr .. | error .. => true
  | _ => false

/-! ## On the way through a tag -/

namespace Lexer

variable {d : Delims}

/-- The lexer comes by the other place while it is inside the tag, or when it leaves it. -/
inductive Passes (d : Delims) : Lexer → Lexer → Prop
  | here (lx : Lexer) : Passes d lx lx
  | token {lx next place : Lexer} {l : Lexeme} (hin : lx.inTag = true)
      (h : lx.step d = .token l next) (hnext : Passes d next place) : Passes d lx place
  | fault {lx next place : Lexer} {diagnostic : Diagnostic} (hin : lx.inTag = true)
      (h : lx.step d = .fault diagnostic next) (hnext : Passes d next place) : Passes d lx place

/-- Wherever skipping begins on the way through a tag, it ends at the same place. -/
theorem Passes.skipTag_eq {lx place : Lexer} (h : lx.Passes d place) :
    place.skipTag d = lx.skipTag d := by
  induction h with
  | here lx => rfl
  | token hin h _ ih => rw [ih, skipTag_of_token hin h]
  | fault hin h _ ih => rw [ih, skipTag_of_fault hin h]

/-- Collecting the lexemes of a tag goes no further than the tag. -/
theorem passes_feed {lx : Lexer} {kind : TagKind} {afterDot : Bool}
    (hm : lx.mode = .tag kind afterDot) : lx.Passes d (lx.feed d).2.2 := by
  fun_induction feed d lx generalizing afterDot with
  | case1 lx h => exact .here lx
  | case2 lx diagnostic next h => exact .fault (Lexer.inTag_of_mode hm) h (.here next)
  | case3 lx l next h hclose => exact .token (Lexer.inTag_of_mode hm) h (.here next)
  | case4 lx l next h hclose ls stop after heq ih =>
    rw [heq] at ih
    rcases (emits_of_step h).mode_of_tag hm with ⟨htoken, -⟩ | ⟨-, dot, hnext⟩
    · rw [htoken] at hclose
      exact absurd (Token.isClosing_closes kind) hclose
    · exact .token (Lexer.inTag_of_mode hm) h (ih hnext)

end Lexer

/-! ## Regions of tags -/

namespace Region

variable {s : Settings} {lx next : Lexer} {l : Lexeme} {r : Region}

/-- If the inside of a tag can be read, its lexemes lead out of the tag. -/
theorem outside_of_body {kind : TagKind} {b : Body} {closing : Lexeme} {rest : Feed}
    (hm : next.mode = .tag kind false)
    (h : body s.limit kind (feedOf s l next) = .ok ((b, closing), rest)) :
    (next.feed s.delims).2.2.inTag = false := by
  obtain ⟨hmem, htoken⟩ := closing_mem_of_body (Lexer.regular_feed (fun _ _ => rfl) hm _ _) h
  have hclosing : closing.token.isClosing = true := by rw [htoken]; exact Token.isClosing_closes kind
  have hafter := (Lexer.closing_of_mem_feed hm hmem hclosing).2
  unfold Lexer.inTag
  rw [hafter]

/-- After a tag, reading goes on where skipping it ends, whether the tag could be read or not. -/
theorem pos_readTag {kind : TagKind} (hm : next.mode = .tag kind false) :
    (readTag s kind l next).2.pos = (next.skipTag s.delims).pos := by
  have hskip := (Lexer.passes_feed (d := s.delims) hm).skipTag_eq
  cases hbody : body s.limit kind (feedOf s l next) with
  | ok result =>
    obtain ⟨⟨b, closing⟩, rest⟩ := result
    rw [Lexer.skipTag_of_outside (outside_of_body hm hbody)] at hskip
    rw [readTag_of_ok hbody, ← hskip]
    dsimp only
    split <;> rfl
  | error diagnostic => rw [readTag_of_error hbody, hskip]

/-- The node of a tag comes from an opening delimiter and what follows it. -/
theorem Turn.tag_of_isTag (h : Turn s lx r next) (hout : lx.inTag = false) {n : Node}
    (hn : r.node = some n) (htag : n.isTag = true) :
    ∃ l kind inside, lx.step s.delims = .token l inside ∧ l.token.opens? = some kind ∧
      next = (readTag s kind l inside).2 := by
  cases h with
  | @fault diagnostic next h =>
    -- Outside a tag only a comment or a raw block can be at fault.
    cases (Lexer.refuses_of_step h).outside hout with
    | comment hm =>
      simp only [ofFault] at hn
      split at hn <;> cases hn
      cases htag
    | raw hm =>
      simp only [ofFault] at hn
      split at hn <;> cases hn
      cases htag
  | @tag l kind inside h hl => exact ⟨l, kind, inside, h, hl, rfl⟩
  | lexeme h hl =>
    unfold ofLexeme at hn
    split at hn <;> cases hn <;> cases htag

omit [Letters] in
theorem toNode_inj {b b' : Body} {trims trims' : Trims} {span span' : Span}
    (h : b.toNode trims span = b'.toNode trims' span') : b = b' ∧ trims = trims' ∧ span = span' := by
  cases b <;> cases b' <;> cases h <;> exact ⟨rfl, rfl, rfl⟩

/-- A tag that could be read was read from the lexemes behind its opening delimiter, and lies between
    the two delimiters. -/
theorem Turn.read_of_node {b : Body} {trims : Trims} {span : Span} (h : Turn s lx r next)
    (hout : lx.inTag = false) (hn : r.node = some (b.toNode trims span)) :
    ∃ l inside kind closing rest, lx.step s.delims = .token l inside ∧
      l.token.opens? = some kind ∧ inside.mode = .tag kind false ∧
      body s.limit kind (feedOf s l inside) = .ok ((b, closing), rest) ∧
      trims = ⟨l.trim, closing.trim⟩ ∧ span = l.span.join closing.span := by
  cases h with
  | @fault diagnostic next h =>
    unfold ofFault at hn
    dsimp only at hn
    split at hn
    · cases hn
    · split at hn <;> cases b <;> cases hn
  | @tag l kind inside h hl =>
    obtain ⟨-, hmode⟩ := mode_of_opening hout (Lexer.emits_of_step h) hl
    cases hbody : body s.limit kind (feedOf s l inside) with
    | ok result =>
      obtain ⟨⟨b', closing⟩, rest⟩ := result
      rw [readTag_of_ok hbody] at hn
      obtain ⟨rfl, htrims, hspan⟩ := toNode_inj (Option.some.inj hn)
      exact ⟨l, inside, kind, closing, rest, h, hl, hmode, hbody, htrims.symm, hspan.symm⟩
    | error diagnostic =>
      rw [readTag_of_error hbody] at hn
      cases b <;> cases hn
  | @lexeme l next h hl =>
    unfold ofLexeme at hn
    split at hn <;> cases b <;> cases hn

theorem Turn.body_of_node {b : Body} {trims : Trims} {span : Span} (h : Turn s lx r next)
    (hout : lx.inTag = false) (hn : r.node = some (b.toNode trims span)) :
    ∃ l inside kind closing rest, lx.step s.delims = .token l inside ∧
      l.token.opens? = some kind ∧ inside.mode = .tag kind false ∧
      body s.limit kind (feedOf s l inside) = .ok ((b, closing), rest) := by
  obtain ⟨l, inside, kind, closing, rest, hstep, hl, hmode, hbody, -⟩ := h.read_of_node hout hn
  exact ⟨l, inside, kind, closing, rest, hstep, hl, hmode, hbody⟩

end Region

/-! ## Nodes of a source -/

namespace Template

/-- Every region of a source was read in one turn, at a place of the source outside a tag. -/
theorem exists_turn_of_split {s : Settings} {source : String} {before after : List Region}
    {r : Region} (h : regions s (Lexer.start source.toList) = before ++ r :: after) :
    ∃ used place next, (Lexer.start source.toList).Reaches used place ∧ place.inTag = false ∧
      Region.Turn s place r next := by
  obtain ⟨used, place, hreach, hplace, hregions, -⟩ :=
    exists_place_of_split (Lexer.start source.toList) rfl before after r h
  rcases done_or_turn s place with hdone | ⟨r', next, hturn⟩
  · rw [regions_of_done hdone] at hregions
    cases hregions
  · rw [hturn.regions_eq] at hregions
    cases hregions
    exact ⟨used, place, next, hreach, hplace, hturn⟩

/-- Every node of a source is the node of a turn. -/
theorem exists_turn_of_node {s : Settings} {source : String} {n : Node}
    (hn : n ∈ (s.parse source).template.nodes) :
    ∃ used place r next, (Lexer.start source.toList).Reaches used place ∧ place.inTag = false ∧
      Region.Turn s place r next ∧ r.node = some n := by
  obtain ⟨i, hi⟩ := List.mem_iff_getElem?.1 hn
  obtain ⟨before, r, after, hsplit, hr, -, -⟩ := exists_split_of_node hi
  obtain ⟨used, place, next, hreach, hplace, hturn⟩ := exists_turn_of_split hsplit
  exact ⟨used, place, r, next, hreach, hplace, hturn, hr⟩

end Template

end Stencil
