/-
  Parts — everything in a tag stands in the source where and as it says.

  The readers lay out what they read as rows of parts (`Reader.expr_lays`, `Reader.stmt_lays`).  Here the
  row of a whole tag is put between its delimiters: the lexemes of a tag stand in a line behind the
  opening delimiter (`Lexer.lined_feed`), what is read from them ends before the closing one
  (`Region.body_laysOn`), and the node reaches from the one delimiter to the other.  What `Part.Sits`
  says of the part in between holds of all parts inside it.
-/
import Stencil.Proofs.Part.Stmt
import Stencil.Proofs.Template.Cover
import Stencil.Proofs.Template.EndTag

namespace Stencil

/-! ## The part of a node -/

/-- The kind and the modifiers of a tag that could be read, and the part between its delimiters. -/
def Node.inner? : Node → Option (TagKind × Trims × Part)
  | tag s trims _ => some (.block, trims, .stmt s)
  | expr e trims _ => some (.expr, trims, .expr e)
  | _ => none

/-- The text that a node holds as it stands. -/
def Node.text? : Node → Option String
  | content text _ | raw text _ => some text
  | _ => none

/-- The part stands between the delimiters of the node. -/
def Node.StandsAround (d : Delims) (source : List Char) (n : Node) (kind : TagKind) (trims : Trims)
    (p : Part) : Prop :=
  ∃ (pair : DelimPair) (opening closing : Span), d.pair (.tag kind) = some pair ∧
    slice? opening source = some (pair.opening.text ++ Trim.text trims.opening) ∧
    slice? closing source = some (Trim.text trims.closing ++ pair.closing.text) ∧
    n.span = ⟨opening.start, closing.stop⟩ ∧ opening.stop ≤ p.span.start ∧ p.span.stop ≤ closing.start

namespace Region

variable {d : Delims} {source : List Char} {s : Settings} {lx next : Lexer} {l : Lexeme}

def Body.kind : Body → TagKind
  | expr _ => .expr
  | stmt _ => .block

def Body.part : Body → Part
  | expr e => .expr e
  | stmt s => .stmt s

/-! ## Between the delimiters -/

/-- What is read inside a tag is laid out before the closing delimiter. -/
theorem body_laysOn [Letters] (limit : Nat) (kind : TagKind) (feed : Feed) :
    Reader.LaysOn d source feed (body limit kind) fun found _ =>
      found.1.kind = kind ∧ Part.Row d source feed.last.stop [found.1.part] found.2.span.start ∧
        found.2.token = Token.closes kind ∧ found.2.Sits d source := by
  have closes : ∀ {p : Reader Body}, (Reader.LaysOn d source feed p fun b mid =>
        b.kind = kind ∧ Part.Row d source feed.last.stop [b.part] mid.last.stop) →
      Reader.LaysOn d source feed (do return (← p, ← Reader.expect (Token.closes kind)))
        fun found _ => found.1.kind = kind ∧
          Part.Row d source feed.last.stop [found.1.part] found.2.span.start ∧
          found.2.token = Token.closes kind ∧ found.2.Sits d source := by
    intro p hp
    refine hp.bind fun b mid hb => ?_
    obtain ⟨hkind, hrow⟩ := hb
    refine (Reader.expect_laysOn (Token.closes kind) mid).bind fun l rest hl => .pure ?_
    obtain ⟨htoken, hbetween⟩ := hl
    exact ⟨hkind, hrow.weaken (Nat.le_refl _) hbetween.le, htoken, hbetween.sits⟩
  cases kind with
  | expr => exact closes ((Reader.expr_lays limit feed).map fun e mid he => ⟨rfl, he⟩)
  | block => exact closes ((Reader.stmt_lays limit feed).map fun st mid hst => ⟨rfl, hst⟩)

theorem isClosing_of_closes [Letters] {kind : TagKind} (h : l.Sits d source) (ht : l.token = Token.closes kind) :
    l.IsClosing d kind := by
  rcases h.spelled with ⟨kind', hkind, hclosing⟩ | hspells
  · rw [ht] at hkind
    cases kind <;> cases kind' <;> first | exact hclosing | cases hkind
  · have hopen := hspells.isClosing
    rw [ht, Token.isClosing_closes] at hopen
    cases hopen

theorem isOpening_of_opens [Letters] {kind : TagKind} (h : lx.Emits d l next) (hl : l.token.opens? = some kind)
    (hout : lx.inTag = false) : l.IsOpening d kind := by
  obtain ⟨-, o, ho, hk, rfl, -⟩ := h.opening_of_opens hl hout
  obtain ⟨pair, hpair, -, htext⟩ := Delims.opening_text ho hk
  exact ⟨pair, hpair, htext⟩

/-- The part of a tag that could be read sits in the source, between the delimiters of the tag. -/
theorem Turn.part_of_node [Letters] {r : Region} {b : Body} {trims : Trims} {span : Span} {used : List Char}
    (h : Turn s lx r next) (hout : lx.inTag = false) (hreach : (Lexer.start source).Reaches used lx)
    (hn : r.node = some (b.toNode trims span)) :
    (b.toNode trims span).StandsAround s.delims source b.kind trims b.part ∧ b.part.Sits s.delims source := by
  obtain ⟨opening, inside, kind, closing, rest, hstep, hopens, hmode, hbody, rfl, rfl⟩ :=
    h.read_of_node hout hn
  have hemits := Lexer.emits_of_step hstep
  obtain ⟨hused, hspan⟩ := hemits.reaches
  have hne : opening.text ≠ [] := by
    refine hemits.text_ne_nil ?_
    intro hraw
    rw [(mode_of_opening hout hemits hopens).1] at hraw
    cases hraw
  have hopening : slice? opening.span source = some opening.text := by
    rw [hspan]
    exact hreach.slice hused
  -- The lexemes stand in a line behind the opening delimiter.
  have hinside := hreach.trans hused
  have hblank : BlanksBetween source opening.span.stop inside.pos := by
    rw [hspan]
    exact ⟨[], hinside.slice (.refl inside), List.forall_mem_nil _⟩
  have hopens' := isOpening_of_opens hemits hopens hout
  have hscanned : (feedOf s opening inside).Scanned s.delims source :=
    ⟨⟨opening.text, hopening, hne, hopens'.tight⟩, Lexer.lined_feed hinside hmode hblank⟩
  obtain ⟨-, -, hkind, hrow, htoken, hsits⟩ := body_laysOn s.limit kind _ hscanned _ _ hbody
  obtain rfl : b.kind = kind := hkind
  obtain ⟨pair, hpair, htext⟩ := hopens'
  obtain ⟨pair', hpair', htext'⟩ := isClosing_of_closes hsits htoken
  rw [hpair] at hpair'
  cases hpair'
  have hsit : b.part.Sits s.delims source := hrow.sits b.part List.mem_cons_self
  obtain ⟨hfirst, hlast⟩ : opening.span.stop ≤ b.part.span.start ∧ b.part.span.stop ≤ closing.span.start :=
    hrow.inOrder.within List.mem_cons_self
  have hopenLt : opening.span.start < opening.span.stop := hscanned.last.lt
  have hpartLt := hsit.marks.lt
  have hcloseLt : closing.span.start < closing.span.stop := hsits.marks.lt
  refine ⟨⟨pair, opening.span, closing.span, hpair, by rw [hopening, htext],
    by rw [hsits.text, htext'], ?_, hfirst, hlast⟩, hsit⟩
  rw [span_toNode]
  exact Span.join_eq (by omega) (by omega)

/-- Content and the bodies of raw blocks hold the text under their spans. -/
theorem Turn.text_of_node [Letters] {r : Region} {n : Node} {text : String} {used : List Char}
    (h : Turn s lx r next) (hout : lx.inTag = false) (hreach : (Lexer.start source).Reaches used lx)
    (hn : r.node = some n) (htext : n.text? = some text) :
    slice? n.span source = some text.toList := by
  cases h with
  | @fault diagnostic next h =>
    cases (Lexer.refuses_of_step h).outside hout with
    | raw hm =>
      have hall := (hreach.slice (Lexer.reaches_advance lx lx.rest.length .template))
      rw [List.take_length] at hall
      simp only [ofFault] at hn
      split at hn <;> cases hn
      cases htext
      rw [String.toList_ofList]
      exact hall
    | comment hm =>
      simp only [ofFault] at hn
      split at hn <;> cases hn
      cases htext
  | @tag l kind inside h hl =>
    cases hbody : body s.limit kind (feedOf s l inside) with
    | ok result =>
      obtain ⟨⟨b, closing⟩, rest⟩ := result
      rw [readTag_of_ok hbody] at hn
      cases b <;> cases hn <;> cases htext
    | error e =>
      rw [readTag_of_error hbody] at hn
      cases hn
      cases htext
  | @lexeme l next h hl =>
    have hemits := Lexer.emits_of_step h
    obtain ⟨hused, hspan⟩ := hemits.reaches
    have hslice := hreach.slice hused
    rw [← hspan] at hslice
    unfold ofLexeme at hn
    split at hn <;> cases hn <;> cases htext <;> rw [String.toList_ofList] <;> exact hslice

end Region

namespace Template

/-- Texts and places in a template are those of its source, for all delimiters, limits and sources.
    Content and the bodies of raw blocks hold the text under their spans.  Between the delimiters of a
    tag stands the part that was read from it; every part in there has a text of its own, with its ends
    between characters, and agrees with that text where it records it; and what a part consists of stands
    inside it, in order and without overlaps. -/
theorem parts_sit_in_source [Letters] (s : Settings) (source : String) (n : Node)
    (hn : n ∈ (s.parse source).template.nodes) :
    (∀ text, n.text? = some text → slice? n.span source.toList = some text.toList) ∧
    ∀ kind trims root, n.inner? = some (kind, trims, root) →
      n.StandsAround s.delims source.toList kind trims root ∧
      ∀ p, root.HasPart p →
        (∃ cs, slice? p.span source.toList = some cs ∧ cs ≠ [] ∧ p.Records cs) ∧
        (String.Pos.Raw.mk p.span.start).IsValid source ∧
        (String.Pos.Raw.mk p.span.stop).IsValid source ∧
        (∀ c ∈ p.children, p.span.start ≤ c.span.start ∧ c.span.stop ≤ p.span.stop) ∧
        p.children.Pairwise fun c c' => c.span.stop ≤ c'.span.start := by
  obtain ⟨used, lx, r, next, hreach, hout, hturn, hnode⟩ := exists_turn_of_node hn
  refine ⟨fun text htext => hturn.text_of_node hout hreach hnode htext, ?_⟩
  intro kind trims root hinner
  obtain ⟨hstands, hsits⟩ :
      n.StandsAround s.delims source.toList kind trims root ∧ root.Sits s.delims source.toList := by
    cases n with
    | tag st trims' span =>
      cases hinner
      exact hturn.part_of_node (b := .stmt st) hout hreach hnode
    | expr e trims' span =>
      cases hinner
      exact hturn.part_of_node (b := .expr e) hout hreach hnode
    | _ => cases hinner
  refine ⟨hstands, fun p hp => ?_⟩
  cases hsits.of_hasPart hp with
  | @mk _ cs text some records inOrder below =>
    obtain ⟨front, back, hsource, hstart, hstop⟩ := slice?_eq_some text
    refine ⟨⟨cs, text, some, records⟩, ?_, ?_, fun c hc => inOrder.within hc, inOrder.pairwise⟩
    · rw [hstart]
      exact isValid_byteLen hsource
    · rw [hstop, ← byteLen_append]
      rw [← List.append_assoc] at hsource
      exact isValid_byteLen hsource

/-- A call with a negative number and a tuple access in it, between delimiters with modifiers. -/
theorem call_sits_in_source :
    let source := "a\x7b\x7b- f(- 1u8, x.0) +\x7d\x7d"
    ∃ n ∈ (parse source).template.nodes, n.span = ⟨1, 22⟩ ∧
      ∃ kind trims root, n.inner? = some (kind, trims, root) ∧
        n.StandsAround Delims.standard source.toList kind trims root ∧
        ∀ p, root.HasPart p →
          (∃ cs, slice? p.span source.toList = some cs ∧ cs ≠ [] ∧ p.Records cs) ∧
          (String.Pos.Raw.mk p.span.start).IsValid source ∧
          (String.Pos.Raw.mk p.span.stop).IsValid source ∧
          (∀ c ∈ p.children, p.span.start ≤ c.span.start ∧ c.span.stop ≤ p.span.stop) ∧
          p.children.Pairwise fun c c' => c.span.stop ≤ c'.span.start := by
  intro source
  have hfound : (parse source).template.nodes.any
      (fun n => n.span == ⟨1, 22⟩ && n.inner?.isSome) = true := by
    decide +kernel
  obtain ⟨n, hn, hcheck⟩ := List.any_eq_true.1 hfound
  rw [Bool.and_eq_true, beq_iff_eq] at hcheck
  obtain ⟨hspan, hsome⟩ := hcheck
  obtain ⟨⟨kind, trims, root⟩, hinner⟩ := Option.isSome_iff_exists.1 hsome
  exact ⟨n, hn, hspan, kind, trims, root, hinner,
    (parts_sit_in_source Settings.standard source n hn).2 kind trims root hinner⟩

end Template

end Stencil
