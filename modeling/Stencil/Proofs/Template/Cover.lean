/-
  Cover — the nodes of a template cover its source.

  Whatever the delimiters are and whatever is wrong with the source, the nodes stand side by side
  from its first byte to its last.  The invariant of the run is about texts: `Covering p nodes cs`
  says that the nodes cut the text `cs`, which begins at offset `p`, into consecutive pieces and that
  each node spans its piece.  One turn adds one piece (`Region.Turn.covers`).  What the invariant says
  about offsets, about places between characters and about the pieces themselves is read off at the
  end.
-/
import Stencil.Parse
import Stencil.Proofs.Template.Turn

namespace Stencil

/-! ## Bytes of a string -/

theorem utf8ByteSize_ofList (cs : List Char) : (String.ofList cs).utf8ByteSize = byteLen cs := by
  induction cs with
  | nil => rfl
  | cons c cs ih =>
    rw [String.ofList_cons, String.utf8ByteSize_append, String.utf8ByteSize_singleton, ih,
      byteLen_cons]

theorem utf8ByteSize_eq (s : String) : s.utf8ByteSize = byteLen s.toList := by
  rw [← utf8ByteSize_ofList, String.ofList_toList]

/-- The offset after the front part of a text falls between characters. -/
theorem isValid_byteLen {source : String} {front back : List Char}
    (h : source.toList = front ++ back) :
    (String.Pos.Raw.mk (byteLen front)).IsValid source := by
  rw [String.Pos.Raw.isValid_iff_exists_append]
  refine ⟨String.ofList front, String.ofList back, ?_, ?_⟩
  · rw [← String.ofList_append, ← h, String.ofList_toList]
  · rw [String.Pos.Raw.ext_iff, String.byteIdx_rawEndPos, utf8ByteSize_ofList]

/-! ## Covering a text -/

namespace Template

/-- The spans of the nodes stand side by side from the offset `p` to the offset `q`. -/
def Tiles : Nat → List Node → Nat → Prop
  | p, [], q => p = q
  | p, n :: nodes, q =>
    n.span.start = p ∧ n.span.start ≤ n.span.stop ∧ Tiles n.span.stop nodes q

/-- The nodes cut the text `cs`, which begins at the offset `p`, into consecutive pieces; only the
    body of a raw block can be empty. -/
def Covering : Nat → List Node → List Char → Prop
  | _, [], cs => cs = []
  | p, n :: nodes, cs => ∃ piece rest, cs = piece ++ rest ∧ n.span = ⟨p, p + byteLen piece⟩ ∧
    (n.isRaw = false → piece ≠ []) ∧ Covering (p + byteLen piece) nodes rest

/-- A run that starts outside a tag covers the text that is left to read. -/
theorem covering_regions [Letters] (s : Settings) (lx : Lexer) (hout : lx.inTag = false) :
    Covering lx.pos ((regions s lx).filterMap (·.node)) lx.rest := by
  refine regions_induction (P := fun lx rs => Covering lx.pos (rs.filterMap (·.node)) lx.rest)
    ?_ ?_ lx hout
  · exact fun lx hdone => (Lexer.rest_eq_nil_of_step hdone).1
  · intro lx next r used hlx hturn hcovers ih
    have htext := hcovers.reaches.text
    have hpos := hcovers.reaches.pos
    rw [List.filterMap_cons]
    split
    · next hnone =>
      have hused := hcovers.noNode hnone
      rw [hused] at htext hpos
      rw [htext]
      rw [hpos] at ih
      exact ih
    · next n hsome =>
      obtain ⟨hspan, hraw⟩ := hcovers.node n hsome
      refine ⟨used, next.rest, htext, by rw [hspan, hpos], fun hn => (hraw hn).2, ?_⟩
      rw [← hpos]
      exact ih

variable {p : Nat} {nodes : List Node} {cs : List Char}

theorem Covering.tiles (h : Covering p nodes cs) : Tiles p nodes (p + byteLen cs) := by
  induction nodes generalizing p cs with
  | nil =>
    obtain rfl : cs = [] := h
    exact rfl
  | cons n nodes ih =>
    obtain ⟨piece, rest, rfl, hspan, -, hrest⟩ := h
    have htiles := ih hrest
    rw [byteLen_append, ← Nat.add_assoc]
    refine ⟨by rw [hspan], by rw [hspan]; exact Nat.le_add_right _ _, ?_⟩
    rw [hspan]
    exact htiles

/-- Each node spans a piece of the text: what stands before the piece ends where its span starts. -/
theorem Covering.piece_of_mem (h : Covering p nodes cs) {n : Node} (hn : n ∈ nodes) :
    ∃ before piece after, cs = before ++ piece ++ after ∧
      n.span = ⟨p + byteLen before, p + byteLen (before ++ piece)⟩ ∧
      (n.isRaw = false → piece ≠ []) := by
  induction nodes generalizing p cs with
  | nil => cases hn
  | cons m nodes ih =>
    obtain ⟨first, rest, rfl, hspan, hne, hrest⟩ := h
    rcases List.mem_cons.1 hn with rfl | hmem
    · exact ⟨[], first, rest, rfl, hspan, hne⟩
    · obtain ⟨before, piece, after, rfl, hspan', hne'⟩ := ih hrest hmem
      refine ⟨first ++ before, piece, after, by simp only [List.append_assoc], ?_, hne'⟩
      rw [hspan']
      simp only [byteLen_append, Nat.add_assoc]

/-- Cutting the source at the spans of the nodes gives the pieces, and these make up the text. -/
theorem Covering.slices (front : List Char) (h : Covering (byteLen front) nodes cs) :
    ∃ pieces : List (List Char),
      nodes.map (fun n => slice? n.span (front ++ cs)) = pieces.map some ∧
      pieces.flatten = cs := by
  induction nodes generalizing front cs with
  | nil => exact ⟨[], rfl, h.symm⟩
  | cons n nodes ih =>
    obtain ⟨piece, rest, rfl, hspan, -, hrest⟩ := h
    rw [← byteLen_append] at hrest
    obtain ⟨pieces, hmap, hflat⟩ := ih _ hrest
    refine ⟨piece :: pieces, ?_, by rw [List.flatten_cons, hflat]⟩
    rw [List.append_assoc] at hmap
    rw [List.map_cons, List.map_cons, hmap, hspan, slice?_append]

/-! ## The template of a source -/

/-- The nodes of a parsed source cover it. -/
theorem covering_parse [Letters] (s : Settings) (source : String) :
    Covering 0 (s.parse source).template.nodes source.toList :=
  covering_regions s (Lexer.start source.toList) rfl

/-- For all delimiters, limits and sources, the nodes stand side by side from the first byte of the
    source to its last; there are none only if the source is empty.  Every span begins and ends
    between characters, only the body of a raw block can be empty, and the texts under the spans
    make up the source. -/
theorem nodes_tile_source [Letters] (s : Settings) (source : String) :
    Tiles 0 (s.parse source).template.nodes source.utf8ByteSize ∧
      ((s.parse source).template.nodes = [] ↔ source = "") ∧
      (∀ n ∈ (s.parse source).template.nodes,
        (String.Pos.Raw.mk n.span.start).IsValid source ∧
        (String.Pos.Raw.mk n.span.stop).IsValid source ∧
        (n.isRaw = false → n.span.start < n.span.stop)) ∧
      ∃ pieces : List (List Char),
        (s.parse source).template.nodes.map (fun n => slice? n.span source.toList)
          = pieces.map some ∧
        pieces.flatten = source.toList := by
  have hcovering := covering_parse s source
  refine ⟨?_, ⟨?_, ?_⟩, ?_, Covering.slices [] hcovering⟩
  · have htiles := hcovering.tiles
    rw [Nat.zero_add, ← utf8ByteSize_eq] at htiles
    exact htiles
  · intro hnil
    rw [hnil] at hcovering
    exact String.toList_eq_nil_iff.1 hcovering
  · rintro rfl
    exact congrArg (List.filterMap (·.node)) (regions_nil s 0)
  · intro n hn
    obtain ⟨before, piece, after, hsource, hspan, hne⟩ := hcovering.piece_of_mem hn
    rw [Nat.zero_add, Nat.zero_add] at hspan
    rw [hspan]
    refine ⟨?_, isValid_byteLen hsource, fun hraw => ?_⟩
    · rw [List.append_assoc] at hsource
      exact isValid_byteLen hsource
    · have := byteLen_pos (hne hraw)
      show byteLen before < byteLen (before ++ piece)
      rw [byteLen_append]
      omega

end Template

end Stencil
