/-
  Pattern — the patterns of the template language.

  Patterns bind names in loops, assignments and match arms.  Parentheses around a single pattern
  leave no trace; alternatives are one node.
-/
import Stencil.Ident
import Stencil.Literal

namespace Stencil

mutual

/-- A pattern with its place. -/
inductive Pattern where
  | lit (value : Literal) (span : Span)
  | ident (name : String) (span : Span)
  | path (path : Path) (span : Span)
  | placeholder (span : Span)
  | rest (span : Span)
  | tupleStruct (path : Path) (elems : List Pattern) (span : Span)
  | struct (path : Path) (fields : List FieldPattern) (span : Span)
  | tuple (elems : List Pattern) (span : Span)
  | slice (elems : List Pattern) (span : Span)
  | alternatives (alts : List Pattern) (span : Span)
  /-- A pattern and the names that take it apart, as only a match arm has it. -/
  | destructured (base : Pattern) (parts : List Pattern) (span : Span)

/-- A field in the pattern of a structure: a name, with a pattern of its own if it has one, or the
    mark for the fields left out. -/
inductive FieldPattern where
  | field (name : Ident) (pattern : Option Pattern)
  | rest (span : Span)

end

/-- The place of the pattern. -/
def Pattern.span : Pattern → Span
  | lit _ s | ident _ s | path _ s | placeholder s | rest s | tupleStruct _ _ s | struct _ _ s
  | tuple _ s | slice _ s | alternatives _ s | destructured _ _ s => s

end Stencil
