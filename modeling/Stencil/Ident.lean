/-
  Ident — names and paths.
-/
import Stencil.Span

namespace Stencil

/-- A name as it stands in the source. -/
structure Ident where
  name : String
  span : Span
  deriving DecidableEq

/-- Names joined by double colons; a global path starts with a double colon. -/
structure Path where
  global : Bool
  segments : List Ident
  span : Span
  deriving DecidableEq

/-- A text literal that stands as an operand, with its escapes resolved. -/
structure TextLit where
  value : String
  span : Span
  deriving DecidableEq

namespace Path

/-- The segments with the separators before them. -/
def renderSegments (separate : Bool) : List Ident → String
  | [] => ""
  | seg :: rest => (if separate then "::" else "") ++ seg.name ++ renderSegments true rest

/-- The path as it is written. -/
def render (p : Path) : String := renderSegments p.global p.segments

end Path

end Stencil
