/-
  Reread — a part of a tag is read again from the text under its place.

  Let a span be over a stretch of the lexemes of a tag.  The text under the span, put between blanks in a
  tag of its own, is read from the same lexemes as the stretch, only elsewhere.  The two sources are
  compared with so many bytes in front of each that the text stands at the same offset
  (`Region.exists_inside_of_node`, `shift_of_regions`); then the lexemes are equal, and nothing has to be moved.
-/
import Stencil.Proofs.Cut.Stretch
import Stencil.Proofs.Printing.Tag
import Stencil.Proofs.Template.Exprs
import Stencil.Proofs.Template.Extent
import Stencil.Proofs.Template.Height

namespace Stencil

/-! ## Moved trees -/

theorem Expr.HasPart.move {e x : Expr} (h : e.HasPart x) (g : Nat → Nat) :
    (Stencil.move g e).HasPart (Stencil.move g x) := by
  induction h with
  | self e => exact .self _
  | child hc _ ih =>
    refine .child ?_ ih
    rw [Expr.children_move]
    exact List.mem_map_of_mem hc

theorem StmtKind.exprs_move (g : Nat → Nat) (k : StmtKind) :
    (move g k).exprs = k.exprs.map (move g) := by
  cases k with
  | assign word mutable pattern value => cases value <;> rfl
  | forLoop pattern iterable cond => cases cond <;> rfl
  | ifCond c => cases c <;> rfl
  | elseIf c => cases c <;> rfl
  | macroDef name params =>
    show (params.map (move g)).flatMap (·.default.toList) = _
    rw [StmtKind.exprs, List.flatMap_map, List.map_flatMap]
    congr 1
    funext p
    obtain ⟨name, value⟩ := p
    cases value <;> rfl
  | filterBlock filters =>
    show (filters.map (move g)).flatMap Filter.values = _
    rw [StmtKind.exprs, List.flatMap_map, List.map_flatMap]
    congr 1
    funext f
    exact Filter.values_move f
  | _ => rfl

/-! ## The text under a span -/

namespace Lexer

/-- The first closing delimiter of a tag is its last lexeme. -/
theorem open_of_feed [Letters] {d : Delims} {lx : Lexer} {kind : TagKind} {afterDot : Bool}
    (hm : lx.mode = .tag kind afterDot) {used more : List Lexeme} {closing : Lexeme}
    (h : (lx.feed d).1 = used ++ closing :: more) (hclosing : closing.token.isClosing = true) :
    ∀ l ∈ used, l.token.isClosing = false := by
  intro l hl
  rw [Bool.eq_false_iff]
  intro hclose
  -- Both would end where the feed ends.
  have hmem : l ∈ (lx.feed d).1 := by rw [h]; exact List.mem_append_left _ hl
  have hmem' : closing ∈ (lx.feed d).1 := by rw [h]; exact List.mem_append_right _ List.mem_cons_self
  have hstop := (closing_of_mem_feed hm hmem hclose).1
  have hstop' := (closing_of_mem_feed hm hmem' hclosing).1
  have hrow : Lexeme.InRow lx.pos (lx.feed d).1 (lx.feed d).2.2.pos :=
    inRow_feed (by rw [hm]; exact Mode.noConfusion)
  rw [h] at hrow
  have := hrow.apart hl List.mem_cons_self
  omega

variable {source cs used : List Char} {a b : Lexer} {k : Nat} {s : Span}

/-- The text between two places is the text under the span from one to the other. -/
theorem slice_of_reaches (ha : (move (· + k) (start source)).Reaches used a) (hb : a.Reaches cs b)
    (hs : move (· + k) s = ⟨a.pos, b.pos⟩) : slice? s source = some cs := by
  have htext : source = used ++ (cs ++ b.rest) := by
    have hsource : source = used ++ a.rest := ha.text
    rw [hsource, hb.text]
  have hapos : a.pos = 0 + k + byteLen used := ha.pos
  have hbpos := hb.pos
  obtain ⟨hstart, hstop⟩ := Span.mk.inj hs
  have hspan : s = ⟨byteLen used, byteLen used + byteLen cs⟩ := by
    obtain ⟨i, j⟩ := s
    dsimp only at hstart hstop
    congr 1 <;> omega
  rw [hspan, htext]
  exact slice?_append used cs b.rest

end Lexer

/-- With `k` bytes in front of the source, the lexemes are a stretch of one of its tags that no dot comes
    before. -/
def HasStretch [Letters] (source : List Char) (k : Nat) (kind : TagKind) (part : List Lexeme) : Prop :=
  ∃ used inside before behind, (move (· + k) (Lexer.start source)).Reaches used inside ∧
    inside.mode = .tag kind false ∧ (inside.feed .standard).1 = before ++ (part ++ behind) ∧
    Settled before ∧ ∀ l ∈ before ++ part, l.token.isClosing = false

namespace HasStretch

variable {source : List Char} {k : Nat} {kind : TagKind} {part : List Lexeme}

theorem orderly [Letters] (h : HasStretch source k kind part) : Orderly part := by
  obtain ⟨used, inside, before, behind, -, hmode, hls, -⟩ := h
  have hord : Orderly (inside.feed .standard).1 := Region.orderly_feed hmode
  rw [hls] at hord
  exact hord.right.left

section

variable [Letters] {used : List Char} {inside : Lexer} {taken more : List Lexeme} {closing : Lexeme}
  (hreach : (move (· + k) (Lexer.start source)).Reaches used inside) (hmode : inside.mode = .tag kind false)
  (hls : (inside.feed .standard).1 = taken ++ closing :: more) (hclosing : closing.token.isClosing = true)
include hreach hmode hls hclosing

/-- All that stands before the closing delimiter of a tag. -/
theorem whole : HasStretch source k kind taken :=
  ⟨used, inside, [], closing :: more, hreach, hmode, hls, .nil, Lexer.open_of_feed hmode hls hclosing⟩

/-- What stands on lexemes of a tag stands on a stretch. -/
theorem of_stands {ε : Type} {A : List Lexeme → ε → Prop} {y : ε} (h : Stands A taken y) :
    ∃ part, HasStretch source k kind part ∧ A part y := by
  have hopen := Lexer.open_of_feed hmode hls hclosing
  obtain ⟨before, part, behind, rfl, hbefore, hpart⟩ := h
  refine ⟨part, ⟨used, inside, before, behind ++ closing :: more, hreach, hmode, ?_, hbefore, ?_⟩, hpart⟩
  · rw [hls, List.append_assoc, List.append_assoc]
  · intro l hl
    apply hopen
    rw [← List.append_assoc]
    exact List.mem_append_left _ hl

end

/-- The text under a span over a stretch is read as the stretch in a tag of its own. -/
theorem exists_text [Letters] (h : HasStretch source k kind part) {s : Span} (hs : (move (· + k) s).Over part)
    {kind' : TagKind} (hkind : kind' = kind ∨ kind' = .expr ∧ ∀ l ∈ part, l.token ≠ .rbrace) {p : Nat}
    (hp : p + 1 = s.start + k) :
    ∃ cs, slice? s source = some cs ∧ ∃ close,
      Lexer.Inside ⟨p, ' ' :: (cs ++ ' ' :: Delims.closeText kind'), .tag kind' false⟩ kind' part close := by
  obtain ⟨used, inside, before, behind, hreach, hmode, hls, hbefore, hopen⟩ := h
  obtain ⟨used', place, cs, next, hused, hplace, hwalks, hspan⟩ :=
    Lexer.exists_walk hmode hls hbefore hopen hs
  refine ⟨cs, Lexer.slice_of_reaches (hreach.trans hused) hwalks.reaches hspan, ?_⟩
  refine hwalks.inside hplace hkind ?_
  rw [hp]
  exact congrArg Span.start hspan

end HasStretch

/-! ## From a node to its lexemes -/

namespace Region

variable {s : Settings} {lx next : Lexer} {r : Region} {b : Body} {trims : Trims} {span : Span}

/-- With `k` bytes in front of the source, every tag that could be read is read so. -/
theorem exists_inside_of_node [Letters] {source : String}
    (hn : b.toNode trims span ∈ (s.parse source).template.nodes)
    (k : Nat) :
    ∃ used l inside kind closing rest, (move (· + k) (Lexer.start source.toList)).Reaches used inside ∧
      inside.mode = .tag kind false ∧
      body s.limit kind (feedOf s l inside) = .ok ((move (· + k) b, closing), rest) := by
  obtain ⟨used, place, r, next, hreach, hplace, hturn, hr⟩ := Template.exists_turn_of_node hn
  have hmoved := hturn.shift k s hplace
  have hnode : (move (· + k) r).node = some ((move (· + k) b).toNode trims (move (· + k) span)) := by
    rw [← toNode_move, ← show move (· + k) (some _) = some (move (· + k) _) from rfl, ← hr]
    rfl
  obtain ⟨l, inside, kind, closing, rest, hstep, -, hmode, hbody⟩ :=
    hmoved.body_of_node (by rw [Lexer.inTag_move]; exact hplace) hnode
  have hstart : (move (· + k) (Lexer.start source.toList)).Reaches used (move (· + k) place) := by
    refine ⟨hreach.text, ?_⟩
    have hpos := hreach.pos
    show place.pos + k = 0 + k + byteLen used
    rw [hpos]
    show 0 + byteLen used + k = 0 + k + byteLen used
    omega
  exact ⟨_, l, inside, kind, closing, rest, hstart.trans (Lexer.emits_of_step hstep).reaches.1, hmode, hbody⟩

end Region

/-! ## From lexemes to a node -/

/-- What moves to the node of a tag is the node of a tag. -/
theorem Region.toNode_of_move {g : Nat → Nat} {n : Node} {b : Body} {trims : Trims} {span : Span}
    (h : move g n = b.toNode trims span) : ∃ b' span', n = b'.toNode trims span' ∧ move g b' = b := by
  cases b with
  | expr e =>
    cases n with
    | expr x t s =>
      obtain ⟨he, rfl, -⟩ := Node.expr.inj h
      exact ⟨.expr x, s, rfl, congrArg Body.expr he⟩
    | _ => cases h
  | stmt st =>
    cases n with
    | tag x t s =>
      obtain ⟨hst, rfl, -⟩ := Node.tag.inj h
      exact ⟨.stmt x, s, rfl, congrArg Body.stmt hst⟩
    | _ => cases h

/-- What is read with `p` bytes in front is what is read without them, `p` bytes further on. -/
theorem shift_of_regions [Letters] {s : Settings} {source : List Char} {p : Nat} {r : Region} {rs : List Region}
    (h : regions s ⟨p, source, .template⟩ = r :: rs) :
    ∃ r' rs', regions s (Lexer.start source) = r' :: rs' ∧ move (· + p) r' = r ∧
      move (· + p) rs' = rs := by
  have hstart : Lexer.mk p source .template = move (· + p) (Lexer.start source) := by
    show _ = Lexer.mk (0 + p) source .template
    rw [Nat.zero_add]
  rw [hstart, regions_shift p s _ rfl] at h
  cases hregions : regions s (Lexer.start source) with
  | nil => rw [hregions] at h; cases h
  | cons r' rs' =>
    rw [hregions] at h
    obtain ⟨hr, hrs⟩ := List.cons.inj h
    exact ⟨r', rs', rfl, hr, hrs⟩

/-- If the body of a tag can be read from its lexemes with `p` bytes in front of the source, then the
    source begins with the node of that tag; and it is the only node, unless a raw block begins with it. -/
theorem parse_of_inside [Letters] {kind : TagKind} {p limit : Nat} {cs : List Char} {ls : List Lexeme}
    {close : Lexeme} {b : Region.Body}
    (h : Lexer.Inside ⟨p + 2, ' ' :: (cs ++ ' ' :: Delims.closeText kind), .tag kind false⟩ kind ls close)
    (hbody : ∀ stop last, ∃ closing rest,
      Region.body limit kind (⟨ls ++ [close], stop, last⟩ : Feed) = .ok ((b, closing), rest)) {source : String}
    (hsource : source.toList = tagText kind cs) :
    let read := Settings.parse ⟨.standard, limit⟩ source
    ∃ b' trims span more, read.template.nodes = b'.toNode trims span :: more ∧
      move (· + p) b' = b ∧ (b.isRaw = false → more = [] ∧ read.diagnostics = []) := by
  let start : Lexer := ⟨p, tagText kind cs, .template⟩
  let opening : Lexeme := start.lexeme (Token.opens kind) 2 none
  let inside : Lexer := ⟨p + 2, ' ' :: (cs ++ ' ' :: Delims.closeText kind), .tag kind false⟩
  -- The blank after the opening delimiter is no modifier of it.
  have hstep : start.step .standard = .token opening inside := by cases kind <;> rfl
  have hturn : Region.Turn ⟨.standard, limit⟩ start _ _ := .tag hstep (Token.opens?_opens kind)
  obtain ⟨closing, rest, hread⟩ := hbody (inside.feed .standard).2.1 opening.span
  rw [← h.lexemes] at hread
  have hregions := hturn.regions_eq
  rw [Region.readTag_of_ok hread] at hregions
  obtain ⟨⟨node, diagnostic⟩, rs, hwhole, hr, hrs⟩ := shift_of_regions hregions
  obtain ⟨hnode, hdiagnostic⟩ := Region.mk.inj hr
  have hnone : diagnostic = none := Option.map_eq_none_iff.1 hdiagnostic
  obtain ⟨n, rfl, hmove⟩ := Option.map_eq_some_iff.1 hnode
  obtain ⟨b', span', rfl, hb'⟩ := Region.toNode_of_move hmove
  subst hnone
  unfold Settings.parse
  dsimp only
  rw [hsource, hwhole]
  refine ⟨b', _, span', rs.filterMap (·.node), rfl, hb', fun hraw => ?_⟩
  rw [hraw] at hrs
  have hover : rs = [] := by
    have hnext := regions_of_rest (s := ⟨.standard, limit⟩) h.rest h.mode
    exact List.map_eq_nil_iff.1 (hrs.trans hnext)
  rw [hover]
  exact ⟨rfl, rfl⟩

end Stencil
