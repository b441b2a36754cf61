/-
  Raw — the end of a raw block.

  The body of a raw block is verbatim: it ends only at the statement tag that holds the one word
  `endraw`, with any modifiers and blanks.
-/
import Stencil.Delims.Search
import Stencil.Text.Blank

namespace Stencil

namespace Delims

/-- Whether the inside of a tag is the word `endraw` and the tag is closed after it. -/
def isEndRawBody (d : Delims) (cs : List Char) : Bool :=
  let body := cs.dropWhile isBlank
  "endraw".toList.isPrefixOf body
    && (d.closingAt .block ((body.drop "endraw".length).dropWhile isBlank)).isSome

/-- Whether `cs` starts with a tag that ends a raw block. -/
def isEndRaw (d : Delims) (cs : List Char) : Bool :=
  match d.openingAt cs with
  | some o => o.kind == .tag .block && d.isEndRawBody (cs.drop o.size)
  | none => false

/-- The number of characters before the tag that ends a raw block. -/
def rawLength (d : Delims) : List Char → Option Nat
  | [] => none
  | c :: cs => if d.isEndRaw (c :: cs) then some 0 else (d.rawLength cs).map (· + 1)

end Delims

end Stencil
