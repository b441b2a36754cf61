/-
  Memoryless — nothing is carried over from one node to the next.

  Take a source and cut off everything before a node that is no raw body.  Then the rest is read as
  before: the same nodes from there on, and the same diagnostics from there on, only with smaller
  offsets.  So a tag that cannot be read spoils nothing after it.

  The argument has two parts.  A run that is split at a region splits at a place outside a tag
  (`exists_place_of_split`); such a place holds the rest of the text and the mode, and the mode is
  content unless a raw body follows.  From a place in content, reading is reading the rest of the
  text as a source of its own, shifted (`regions_shift`).

  What was said before the cut is one diagnostic for each error node.  A comment or raw block that is
  never closed has a diagnostic, too, but it reaches to the end of the source, so no node follows it.
-/
import Stencil.Proofs.Template.Cover
import Stencil.Proofs.Template.Shift

namespace Stencil

namespace Template

variable {s : Settings}

/-! ## Diagnostics -/

/-- A region has a diagnostic exactly when it is an error, unless it is the last one. -/
theorem isSome_diagnostic_of_turn [Letters] {lx next : Lexer} {r : Region} (hout : lx.inTag = false)
    (h : Region.Turn s lx r next) :
    regions s next = [] ∨ r.diagnostic.isSome = r.node.any Node.isError := by
  cases h with
  | fault h =>
    left
    have hend : regions s (lx.advance lx.rest.length .template) = [] := by
      rw [Lexer.advance, List.drop_length]
      exact regions_nil s _
    cases (Lexer.refuses_of_step h).outside hout with
    | comment hm => exact hend
    | raw hm => exact hend
  | @tag l kind next h hl =>
    right
    cases hbody : Region.body s.limit kind (Region.feedOf s l next) with
    | ok r =>
      obtain ⟨⟨b, closing⟩, rest⟩ := r
      rw [Region.readTag_of_ok hbody]
      cases b <;> rfl
    | error diagnostic =>
      rw [Region.readTag_of_error hbody]
      rfl
  | @lexeme l next h hl =>
    right
    unfold Region.ofLexeme
    split <;> rfl

/-! ## Splitting a run -/

/-- Where a run is split before a region there is a place outside a tag, and up to there each error
    has one diagnostic and nothing else has any. -/
theorem exists_place_of_split [Letters] (lx : Lexer) (hout : lx.inTag = false) (before after : List Region)
    (r : Region) (h : regions s lx = before ++ r :: after) :
    ∃ used place, lx.Reaches used place ∧ place.inTag = false ∧
      regions s place = r :: after ∧
      (before.filterMap (·.diagnostic)).length =
        (before.filterMap (·.node)).countP Node.isError := by
  revert before h
  -- A region that is not the last has a diagnostic exactly if it is an error, so the counts agree turn by
  -- turn.
  refine regions_induction (P := fun lx rs => ∀ before, rs = before ++ r :: after →
    ∃ used place, lx.Reaches used place ∧ place.inTag = false ∧ regions s place = r :: after ∧
      (before.filterMap (·.diagnostic)).length =
        (before.filterMap (·.node)).countP Node.isError) ?_ ?_ lx hout
  · intro lx hdone before h
    cases before <;> cases h
  · intro lx next first used hlx hturn hcovers ih before h
    cases before with
    | nil =>
      cases h
      exact ⟨[], lx, Lexer.Reaches.refl lx, hlx, hturn.regions_eq, rfl⟩
    | cons first' before =>
      obtain ⟨rfl, hrest⟩ := List.cons.inj h
      obtain ⟨more, place, hreach, hplace, hregions, hcount⟩ := ih before hrest
      refine ⟨used ++ more, place, hcovers.reaches.trans hreach, hplace, hregions, ?_⟩
      rcases isSome_diagnostic_of_turn hlx hturn with hnil | hfirst
      · rw [hrest] at hnil
        cases before <;> cases hnil
      · rw [List.filterMap_cons, List.filterMap_cons]
        cases hd : first.diagnostic with
        | none =>
          rw [hd] at hfirst
          cases hn : first.node with
          | none => exact hcount
          | some n =>
            rw [hn] at hfirst
            have hnot : ¬ n.isError = true := by rw [show n.isError = false from hfirst.symm]; decide
            rw [List.countP_cons_of_neg hnot]
            exact hcount
        | some diagnostic =>
          rw [hd] at hfirst
          cases hn : first.node with
          | none => rw [hn] at hfirst; cases hfirst
          | some n =>
            rw [hn] at hfirst
            have hyes : n.isError = true := hfirst.symm
            rw [List.countP_cons_of_pos hyes, List.length_cons, hcount]

/-! ## Reading on from a node -/

/-- A node in a list of regions stands at one of them. -/
theorem exists_split_of_node {rs : List Region} {i : Nat} {n : Node}
    (h : (rs.filterMap (·.node))[i]? = some n) :
    ∃ before r after, rs = before ++ r :: after ∧ r.node = some n ∧
      before.filterMap (·.node) = (rs.filterMap (·.node)).take i ∧
      (r :: after).filterMap (·.node) = (rs.filterMap (·.node)).drop i := by
  obtain ⟨hi, hget⟩ := List.getElem?_eq_some_iff.1 h
  have hsplit := (List.take_append_drop i (rs.filterMap (·.node))).symm
  obtain ⟨front, back, hrs, hfront, hback⟩ := List.filterMap_eq_append_iff.1 hsplit
  have hcons := hback
  rw [List.drop_eq_getElem_cons hi, hget] at hcons
  obtain ⟨empty, r, after, rfl, hempty, hr, -⟩ := List.filterMap_eq_cons_iff.1 hcons
  have hnone : empty.filterMap (·.node) = [] := List.filterMap_eq_nil_iff.2 hempty
  refine ⟨front ++ empty, r, after, by rw [hrs, List.append_assoc], hr, ?_, ?_⟩
  · rw [List.filterMap_append, hnone, List.append_nil, hfront]
  · rw [← hback, List.filterMap_append, hnone, List.nil_append]

/-- The first node of a run begins where the run does, and is a raw body unless the run begins in
    content. -/
theorem mode_of_node [Letters] {place : Lexer} (hout : place.inTag = false) {r : Region} {after : List Region}
    {n : Node} (h : regions s place = r :: after) (hn : r.node = some n) (hraw : n.isRaw = false) :
    n.span.start = place.pos ∧ place.mode = .template := by
  rcases done_or_turn s place with hdone | ⟨r', next, hturn⟩
  · rw [regions_of_done hdone] at h
    cases h
  · rw [hturn.regions_eq] at h
    cases h
    obtain ⟨used, hcovers⟩ := hturn.covers hout
    obtain ⟨hspan, hmode⟩ := hcovers.node n hn
    exact ⟨by rw [hspan], (hmode hraw).1⟩

/-- Reading is memoryless at nodes: for every node that is no raw body, cut the source where the node
    begins.  The nodes of the part from there on are the nodes of the source from this one on, and
    its diagnostics end the diagnostics of the source, all offsets being smaller by the length of the
    part before; and before them stands one diagnostic for each error before the node. -/
theorem parse_from_node [Letters] (s : Settings) (source : String) (i : Nat) (n : Node)
    (hn : (s.parse source).template.nodes[i]? = some n) (hraw : n.isRaw = false) :
    ∃ front back : String, source = front ++ back ∧ front.utf8ByteSize = n.span.start ∧
      (s.parse source).template.nodes.drop i =
        (s.parse back).template.nodes.map (move (· + n.span.start)) ∧
      ∃ earlier : List Diagnostic,
        earlier.length = ((s.parse source).template.nodes.take i).countP Node.isError ∧
        (s.parse source).diagnostics =
          earlier ++ (s.parse back).diagnostics.map (Diagnostic.shift n.span.start) := by
  obtain ⟨before, r, after, hsplit, hr, htake, hdrop⟩ := exists_split_of_node hn
  obtain ⟨used, place, hreach, hplace, hregions, hcount⟩ :=
    exists_place_of_split (Lexer.start source.toList) rfl before after r hsplit
  obtain ⟨hstart, hmode⟩ := mode_of_node hplace hregions hr hraw
  -- The place holds the rest of the text, in content, so it is the start of that text shifted.
  have hpos : byteLen used = n.span.start := by rw [hstart, hreach.pos]; exact (Nat.zero_add _).symm
  have hmoved : place = move (· + n.span.start) (Lexer.start place.rest) := by
    show place = ⟨0 + n.span.start, place.rest, .template⟩
    rw [Nat.zero_add, hstart, ← hmode]
  have hrest : r :: after =
      (regions s (Lexer.start (String.ofList place.rest).toList)).map (move (· + n.span.start)) := by
    rw [String.toList_ofList, ← hregions]
    exact (congrArg (regions s) hmoved).trans (regions_shift _ s _ rfl)
  refine ⟨String.ofList used, String.ofList place.rest, ?_, ?_, ?_,
    before.filterMap (·.diagnostic), ?_, ?_⟩
  · have htext : source.toList = used ++ place.rest := hreach.text
    rw [← String.ofList_append, ← htext, String.ofList_toList]
  · rw [utf8ByteSize_ofList, hpos]
  · refine hdrop.symm.trans ?_
    rw [hrest, List.filterMap_map]
    exact List.map_filterMap.symm
  · rw [hcount, htake]
    rfl
  · show (regions s (Lexer.start source.toList)).filterMap (·.diagnostic) = _
    rw [hsplit, List.filterMap_append, hrest, List.filterMap_map]
    exact congrArg (_ ++ ·) List.map_filterMap.symm

/-- In a source with an unknown statement and, after it, a text literal without its closing quote,
    the second fault is reported as if the source began with it. -/
theorem parse_from_second_error :
    let source := "\x7b% bogus %\x7d\x7b\x7b \"x \x7d\x7dy"
    ∃ n : Node, (parse source).template.nodes[1]? = some n ∧ n.isRaw = false ∧
      ∃ front back : String, source = front ++ back ∧ front.utf8ByteSize = n.span.start ∧
        (parse source).template.nodes.drop 1 =
          (parse back).template.nodes.map (move (· + n.span.start)) ∧
        ∃ earlier : List Diagnostic,
          earlier.length = ((parse source).template.nodes.take 1).countP Node.isError ∧
          (parse source).diagnostics =
            earlier ++ (parse back).diagnostics.map (Diagnostic.shift n.span.start) := by
  intro source
  have hsecond : ((parse source).template.nodes[1]?).any (fun n => !n.isRaw) = true := by
    decide +kernel
  obtain ⟨n, hn, hnot⟩ := (Option.any_eq_true _ _).1 hsecond
  have hraw : n.isRaw = false := by simpa using hnot
  exact ⟨n, hn, hraw, parse_from_node Settings.standard source 1 n hn hraw⟩

end Template

end Stencil
