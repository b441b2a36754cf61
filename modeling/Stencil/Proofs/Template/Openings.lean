/-
  Openings — where nodes begin.

  Content goes on to the next opening delimiter, and everything else but the body of a raw block
  begins with one.  Reading comes back to content from many places: behind a tag, behind a skipped
  tag, before an opening delimiter in a tag that was never closed, behind a raw block or a comment.
  What is read next never depends on which of them it was: a node is the work of one turn, and a turn
  asks for an opening delimiter at its own place (`Region.Turn.opens`).

  For content two facts of the search are needed: no opening delimiter begins before the one that is
  found (`noneIn_contentLength`), and one does begin there (`openingAt_contentLength`).  The first says
  that there is none inside of the content, the second that the next node is no content again.

  Opening delimiters are asked for by byte offsets, those inside of a character included, so the
  theorem is about `beginAt?`.
-/
import Mathlib.Data.List.Chain
import Stencil.Proofs.Checked.Delims
import Stencil.Proofs.Lexer.StaysOpen
import Stencil.Proofs.Reader.Gives
import Stencil.Proofs.Template.Extent

namespace Stencil

/-- Whether the node is content. -/
def Node.isContent : Node → Bool
  | content .. => true
  | _ => false

/-- Whether the node is one that begins with an opening delimiter of the kind. -/
def Node.BeginsWith (kind : DelimKind) : Node → Prop
  | comment .. => kind = .comment
  | expr .. => kind = .tag .expr
  | tag .. => kind = .tag .block
  | error .. => kind = .tag .expr ∨ kind = .tag .block
  | content .. | raw .. => False

/-! ## The length of content -/

namespace Delims

variable (d : Delims)

theorem contentLength_of_some {cs : List Char} {o : Opening} (h : d.openingAt cs = some o) :
    d.contentLength cs = 0 := by
  cases cs with
  | nil => rfl
  | cons c cs => rw [contentLength, Checked.findOpening_cons, h]

theorem contentLength_of_none {c : Char} {cs : List Char} (h : d.openingAt (c :: cs) = none) :
    d.contentLength (c :: cs) = d.contentLength cs + 1 := by
  rw [contentLength, Checked.findOpening_cons, h, contentLength]
  cases d.findOpening cs <;> rfl

/-- No opening delimiter begins in content. -/
theorem noneIn_contentLength (cs : List Char) :
    NoneIn d.openingAt (cs.take (d.contentLength cs)) (cs.drop (d.contentLength cs)) := by
  induction cs with
  | nil => exact noneIn_nil
  | cons c cs ih =>
    cases ho : d.openingAt (c :: cs) with
    | some o =>
      rw [d.contentLength_of_some ho]
      exact noneIn_nil
    | none =>
      rw [d.contentLength_of_none ho, List.take_succ_cons, List.drop_succ_cons]
      exact noneIn_cons.2 ⟨by rw [List.take_append_drop]; exact ho, ih⟩

/-- Content goes on until an opening delimiter, or to the end. -/
theorem openingAt_contentLength (cs : List Char) (hne : cs.drop (d.contentLength cs) ≠ []) :
    d.openingAt (cs.drop (d.contentLength cs)) ≠ none := by
  induction cs with
  | nil => exact absurd rfl hne
  | cons c cs ih =>
    cases ho : d.openingAt (c :: cs) with
    | some o =>
      rw [d.contentLength_of_some ho, List.drop_zero, ho]
      exact Option.some_ne_none o
    | none =>
      rw [d.contentLength_of_none ho] at hne ⊢
      exact ih hne

end Delims

/-! ## One turn -/

namespace Region

variable {s : Settings} {lx next : Lexer} {r : Region} {n : Node}

theorem body_beginsWith (limit : Nat) (kind : TagKind) (trims : Trims) (span : Span) :
    Reader.Gives (body limit kind) fun b => (b.1.toNode trims span).BeginsWith (.tag kind) := by
  cases kind with
  | expr =>
    have hexpr : Reader.Gives (Body.expr <$> Reader.expr limit) fun b =>
        (b.toNode trims span).BeginsWith (.tag .expr) :=
      (Reader.Gives.any (Reader.expr limit)).map fun _ _ => rfl
    exact hexpr.bind fun _ hb => .after fun _ => .pure hb
  | block =>
    have hstmt : Reader.Gives (Body.stmt <$> Reader.stmt limit) fun b =>
        (b.toNode trims span).BeginsWith (.tag .block) :=
      (Reader.Gives.any (Reader.stmt limit)).map fun _ _ => rfl
    exact hstmt.bind fun _ hb => .after fun _ => .pure hb

theorem readTag_beginsWith [Letters] {kind : TagKind} {opening : Lexeme} {lx : Lexer}
    (hn : (readTag s kind opening lx).1.node = some n) : n.BeginsWith (.tag kind) := by
  cases hbody : body s.limit kind (feedOf s opening lx) with
  | ok result =>
    obtain ⟨⟨b, closing⟩, rest⟩ := result
    rw [readTag_of_ok hbody] at hn
    cases hn
    exact body_beginsWith s.limit kind _ _ _ _ _ hbody
  | error diagnostic =>
    rw [readTag_of_error hbody] at hn
    cases hn
    cases kind
    · exact .inl rfl
    · exact .inr rfl

/-- The text `used` from one place to the next is not empty, no opening delimiter begins in it, and
    it ends before one or with the source. -/
structure IsPlain (d : Delims) (lx next : Lexer) (used : List Char) : Prop where
  reaches : lx.Reaches used next
  ne_nil : used ≠ []
  none : Delims.NoneIn d.openingAt used next.rest
  stops : next.rest = [] ∨ d.openingAt next.rest ≠ Option.none

/-- What a turn finds at its place, by the node it gives. -/
inductive Opens (d : Delims) (lx next : Lexer) (n : Node) : Prop
  /-- The body of a raw block is read without a look at its first character. -/
  | raw (h : n.isRaw = true)
  | delimiter (o : Opening) (ho : d.openingAt lx.rest = some o) (hkind : n.BeginsWith o.kind)
  | content (h : n.isContent = true) (used : List Char) (hplain : IsPlain d lx next used)

theorem Opens.plain {d : Delims} (h : Opens d lx next n) (hn : n.isContent = true) :
    ∃ used, IsPlain d lx next used := by
  cases h with
  | raw h =>
    cases n with
    | content => cases h
    | _ => cases hn
  | delimiter o ho hkind =>
    cases n with
    | content => cases hkind
    | _ => cases hn
  | content h used hplain => exact ⟨used, hplain⟩

theorem isPlain_content {d : Delims} {c : Char} {cs : List Char} (hr : lx.rest = c :: cs)
    (ho : d.openingAt lx.rest = none) :
    IsPlain d lx (lx.advance (d.contentLength cs + 1) .template)
      (lx.rest.take (d.contentLength cs + 1)) := by
  have hrest : (lx.advance (d.contentLength cs + 1) .template).rest =
      cs.drop (d.contentLength cs) := by
    show lx.rest.drop _ = _
    rw [hr, List.drop_succ_cons]
  rw [hr] at ho
  refine ⟨Lexer.reaches_advance lx _ _, ?_, ?_, ?_⟩
  · rw [hr]
    exact List.cons_ne_nil _ _
  · rw [hrest, hr, List.take_succ_cons]
    exact Delims.noneIn_cons.2
      ⟨by rw [List.take_append_drop]; exact ho, d.noneIn_contentLength cs⟩
  · rw [hrest]
    by_cases hne : cs.drop (d.contentLength cs) = []
    · exact .inl hne
    · exact .inr (d.openingAt_contentLength cs hne)

/-- Outside of a tag, the node of a turn begins with an opening delimiter of its kind, unless it is
    content or the body of a raw block. -/
theorem Turn.opens [Letters] (h : Turn s lx r next) (hout : lx.inTag = false) (hn : r.node = some n) :
    Opens s.delims lx next n := by
  cases h with
  | fault h =>
    simp only [ofFault] at hn
    split at hn
    · cases hn
    · cases hn
      cases (Lexer.refuses_of_step h).outside hout with
      | @comment o hm hr ho hk hc => exact .delimiter o ho hk
      | raw hm hfound => exact .raw rfl
  | @tag l kind inside h hl =>
    have hbegins := readTag_beginsWith hn
    obtain ⟨-, o, ho, hk, -⟩ := (Lexer.emits_of_step h).opening_of_opens hl hout
    exact .delimiter o ho (by rw [hk]; exact hbegins)
  | lexeme h hl =>
    cases (Lexer.emits_of_step h).outside hout hl with
    | content hm hr ho =>
      cases hn
      exact .content rfl _ (isPlain_content hr ho)
    | @comment o m hm hr ho hk hc =>
      cases hn
      exact .delimiter o ho hk
    | raw =>
      cases hn
      exact .raw rfl

end Region

/-! ## Nodes of a source -/

namespace Template

open Checked

variable {d : Delims} {source used tail rest : List Char} {i p : Nat}

/-- A place of the reader is a place of the source. -/
theorem at_of_reaches {lx : Lexer} (h : (Lexer.start source).Reaches used lx) :
    At source lx.pos lx.rest := by
  refine ⟨used, h.text, ?_⟩
  rw [h.pos]
  exact Nat.zero_add _

/-- No opening delimiter is found at any byte of a text in which none begins. -/
theorem beginAt?_of_noneIn (h : At source i (used ++ tail))
    (hnone : Delims.NoneIn d.openingAt used tail) (hfrom : i ≤ p) (hto : p < i + byteLen used) :
    beginAt? d source p = some none := by
  cases hp : from? p source with
  | none => exact beginAt?_of_none hp
  | some rest =>
    obtain ⟨⟨front, rest'⟩, hsplit, rfl⟩ := Option.map_eq_some_iff.1 hp
    obtain ⟨hsource, hlen⟩ := splitAtByte?_eq_some hsplit
    obtain ⟨before, hbefore, rfl⟩ := h
    obtain ⟨m, rfl, hm⟩ := append_eq_append_of_byteLen (hbefore.symm.trans hsource.symm) (by omega)
    rw [byteLen_append] at hlen
    -- What is left of the text at the offset is not empty, since the offset is before its end.
    obtain ⟨back, rfl, rfl⟩ := append_eq_append_of_byteLen hm.symm (by omega)
    have hback : back ≠ [] := by
      rintro rfl
      rw [List.append_nil] at hto
      omega
    have hat : At source p (back ++ tail) := ⟨before ++ m, hsource.symm, by rw [byteLen_append, hlen]⟩
    rw [beginAt?_eq hat, hnone back (List.suffix_append m back) hback]
    rfl

/-- No two of them are content, one directly after the other. -/
def Alternating (nodes : List Node) : Prop :=
  nodes.IsChain fun a b => ¬(a.isContent = true ∧ b.isContent = true)

/-- What comes first in a run is content only where no opening delimiter stands, and content does not
    follow content. -/
theorem alternating_regions [Letters] (s : Settings) (lx : Lexer) (hout : lx.inTag = false) :
    Alternating ((regions s lx).filterMap (·.node)) ∧
      ∀ n ∈ ((regions s lx).filterMap (·.node)).head?, n.isContent = true →
        lx.rest ≠ [] ∧ s.delims.openingAt lx.rest = none := by
  refine regions_induction (s := s) (P := fun lx rs => Alternating (rs.filterMap (·.node)) ∧
    ∀ n ∈ (rs.filterMap (·.node)).head?, n.isContent = true →
      lx.rest ≠ [] ∧ s.delims.openingAt lx.rest = none) ?_ ?_ lx hout
  · exact fun lx _ => ⟨.nil, fun n hn => by cases hn⟩
  · rintro lx next r used hlx hturn hcovers ⟨hchain, hhead⟩
    rw [List.filterMap_cons]
    split
    · next hnone =>
      have htext := hcovers.reaches.text
      rw [hcovers.noNode hnone, List.nil_append] at htext
      rw [htext]
      exact ⟨hchain, hhead⟩
    · next n hn =>
      have hopens := hturn.opens hlx hn
      refine ⟨List.isChain_cons.2 ⟨?_, hchain⟩, ?_⟩
      · rintro b hb ⟨hcontent, hcontent'⟩
        obtain ⟨hne, hnone⟩ := hhead b hb hcontent'
        obtain ⟨text, hplain⟩ := hopens.plain hcontent
        exact hplain.stops.elim hne fun hsome => hsome hnone
      · rintro m ⟨rfl⟩ hcontent
        obtain ⟨text, hplain⟩ := hopens.plain hcontent
        rw [hplain.reaches.text]
        exact ⟨by simp [hplain.ne_nil],
          hplain.none text (List.suffix_refl text) hplain.ne_nil⟩

/-- For all delimiters, limits and sources: an opening delimiter begins at no byte of a content node,
    content does not follow content, and every other node but the body of a raw block starts where an
    opening delimiter of its kind is found. -/
theorem nodes_at_openings [Letters] (s : Settings) (source : String) :
    (∀ text span, .content text span ∈ (s.parse source).template.nodes →
      ∀ p, span.start ≤ p → p < span.stop → beginAt? s.delims source.toList p = some none) ∧
    Alternating (s.parse source).template.nodes ∧
    ∀ n ∈ (s.parse source).template.nodes, n.isContent = false → n.isRaw = false →
      ∃ mark, beginAt? s.delims source.toList n.span.start = some (some mark) ∧
        n.BeginsWith mark.kind := by
  refine ⟨fun text span hn p hfrom hto => ?_,
    (alternating_regions s (Lexer.start source.toList) rfl).1, fun n hn hcontent hraw => ?_⟩
  · obtain ⟨used, lx, r, next, hreach, hout, hturn, hr⟩ := exists_turn_of_node hn
    obtain ⟨_, hcovers⟩ := hturn.covers hout
    have hspan : span = ⟨lx.pos, next.pos⟩ := (hcovers.node _ hr).1
    rw [hspan] at hfrom hto
    obtain ⟨plain, hplain⟩ := (hturn.opens hout hr).plain rfl
    have hat := at_of_reaches hreach
    rw [hplain.reaches.text] at hat
    rw [hplain.reaches.pos] at hto
    exact beginAt?_of_noneIn hat hplain.none hfrom hto
  · obtain ⟨used, lx, r, next, hreach, hout, hturn, hr⟩ := exists_turn_of_node hn
    obtain ⟨_, hcovers⟩ := hturn.covers hout
    rw [(hcovers.node n hr).1]
    cases hturn.opens hout hr with
    | raw h => rw [hraw] at h; cases h
    | delimiter o ho hkind =>
      refine ⟨openingMark lx.pos o, ?_, hkind⟩
      rw [beginAt?_eq (at_of_reaches hreach), ho]
      rfl
    | content h => rw [hcontent] at h; cases h

end Template

end Stencil
