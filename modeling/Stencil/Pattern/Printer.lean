/-
  Printer — patterns as text.
-/
import Stencil.Expr.Printer
import Stencil.Pattern

namespace Stencil

mutual

/-- The pattern as it is written, alternatives with bars between them. -/
def Pattern.render : Pattern → String
  | .lit v _ => v.render
  | .ident n _ => n
  | .path p _ => p.render
  | .placeholder _ => "_"
  | .rest _ => ".."
  | .tupleStruct p es _ => p.render ++ "(" ++ Pattern.renderList ", " es ++ ")"
  | .struct p fs _ =>
    match fs with
    | [] => p.render ++ " \x7b\x7d"
    | fs => p.render ++ " \x7b " ++ FieldPattern.renderList fs ++ " \x7d"
  | .tuple es _ =>
    "(" ++ Pattern.renderList ", " es ++ (if es.length = 1 then "," else "") ++ ")"
  | .slice es _ => "[" ++ Pattern.renderList ", " es ++ "]"
  | .alternatives ps _ => Pattern.renderList " | " ps
  | .destructured p ps _ => p.render ++ " with (" ++ Pattern.renderList ", " ps ++ ")"

/-- The patterns with `sep` between them. -/
def Pattern.renderList (sep : String) : List Pattern → String
  | [] => ""
  | [p] => p.render
  | p :: q :: rest => p.render ++ sep ++ Pattern.renderList sep (q :: rest)

/-- The pattern of a field after its colon, or nothing. -/
def Pattern.renderOption : Option Pattern → String
  | none => ""
  | some p => ": " ++ p.render

/-- The field pattern as it is written. -/
def FieldPattern.render : FieldPattern → String
  | .field n p => n.name ++ Pattern.renderOption p
  | .rest _ => ".."

/-- The field patterns with commas between them. -/
def FieldPattern.renderList : List FieldPattern → String
  | [] => ""
  | [f] => f.render
  | f :: g :: rest => f.render ++ ", " ++ FieldPattern.renderList (g :: rest)

end

@[simp] theorem Pattern.render_slice (ps : List Pattern) (s : Span) :
    (Pattern.slice ps s).render = "[" ++ Pattern.renderList ", " ps ++ "]" := by
  rw [Pattern.render]

end Stencil
