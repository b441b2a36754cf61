/-
  Tag — a source that consists of one tag.

  Between the standard delimiters, and with a blank on either side, stands a text.  If that text is
  scanned as certain lexemes (`Lexes`) and the inside of a tag is read from those lexemes, places apart,
  then the source is read as that tag (`regions_of_tag`).  Nothing comes after the tag, unless it begins
  a raw block: then the empty rest of the source is missing the end of the block.
-/
import Stencil.Proofs.Printing.Pieces
import Stencil.Proofs.Template.ReadBack

namespace Stencil

/-- The text of a standard opening delimiter. -/
def Delims.openText : TagKind → List Char
  | .expr => ['\x7b', '\x7b']
  | .block => ['\x7b', '%']

/-- The text between the standard delimiters of a tag, with a blank on either side. -/
def tagText (kind : TagKind) (cs : List Char) : List Char :=
  Delims.openText kind ++ ' ' :: (cs ++ ' ' :: Delims.closeText kind)

namespace Region

/-- What is read of lexemes without places is read wherever they stand. -/
theorem body_of_bareFeed {kind : TagKind} {limit : Nat} {b : Body} {ls : List Lexeme}
    (h : ∀ stop, ∃ closing rest, body limit kind (bareFeed stop ls) = .ok ((b, closing), rest))
    {feed : Feed} (hregular : feed.Regular fun _ => 0) (hfeed : bare feed.lexemes = bare ls) :
    ∃ b' closing rest, body limit kind feed = .ok ((b', closing), rest) ∧ bare b' = b := by
  have hbare : move (fun _ => 0) feed = bareFeed (bare feed.stop) ls := by
    show Feed.mk _ _ _ = Feed.mk _ _ _
    rw [← hfeed]
    rfl
  obtain ⟨closing, rest, hbody⟩ := h (bare feed.stop)
  rw [← hbare] at hbody
  obtain ⟨⟨b', closing'⟩, rest', hread, hb'⟩ :=
    (body_moves (g := fun _ => 0) monotone_const limit kind).of_ok_move hregular hbody
  exact ⟨b', closing', rest', hread, congrArg (·.1) hb'⟩

end Region

/-- A tag whose inside is scanned and read is the first region of its source, and the only one unless a
    raw block begins with it. -/
theorem regions_of_tag [Letters] {kind : TagKind} {after : Bool} {cs : List Char} {ls : List Lexeme}
    (hlexes : Lexes kind false cs ls after (' ' :: Delims.closeText kind)) (hopens : Opens cs)
    {limit : Nat} {b : Region.Body}
    (hbody : ∀ close : Lexeme, close.token = Token.closes kind → ∀ stop, ∃ closing rest,
      Region.body limit kind (bareFeed stop (ls ++ [close])) = .ok ((b, closing), rest)) :
    ∃ b' trims span next, bare b' = b ∧
      regions ⟨.standard, limit⟩ (Lexer.start (tagText kind cs)) =
        ⟨some (b'.toNode trims span), none⟩ :: regions ⟨.standard, limit⟩ next ∧
      (b'.isRaw = false → regions ⟨.standard, limit⟩ next = []) := by
  let start : Lexer := .start (tagText kind cs)
  let opening : Lexeme := start.lexeme (Token.opens kind) 2 none
  let inside : Lexer := start.advance 2 (.tag kind false)
  -- The blank after the opening delimiter is no modifier of it.
  have hstep : start.step .standard = .token opening inside := by cases kind <;> rfl
  have hturn : Region.Turn ⟨.standard, limit⟩ start _ _ := .tag hstep (Token.opens?_opens kind)
  have hrest : inside.rest = (' ' :: cs) ++ ' ' :: Delims.closeText kind := by cases kind <;> rfl
  obtain ⟨close, hclose, hfeed, hend, hmode⟩ :=
    (hlexes.space_opens hopens).feed (show inside.mode = .tag kind false from rfl) hrest
  let feed := Region.feedOf ⟨.standard, limit⟩ opening inside
  have hregular : feed.Regular fun _ => 0 := Lexer.regular_feed (fun _ _ => rfl) rfl _ _
  obtain ⟨b', closing, left, hread, hb'⟩ :=
    Region.body_of_bareFeed (hbody close hclose) hregular hfeed
  have hregions := hturn.regions_eq
  rw [Region.readTag_of_ok hread] at hregions
  refine ⟨b', ⟨opening.trim, closing.trim⟩, opening.span.join closing.span, _, hb', hregions,
    fun hraw => ?_⟩
  rw [hraw]
  exact regions_of_rest hend hmode

end Stencil
