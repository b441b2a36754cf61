/-
  Template — a parsed source as a row of nodes.

  The nodes stand side by side and cover the source: content, comments, the two kinds of tags, the
  bodies of raw blocks, and the tags that could not be read.
-/
import Stencil.Stmt
import Stencil.Trim

namespace Stencil

/-- A region of the source and what it means. -/
inductive Node where
  | content (text : String) (span : Span)
  | comment (trims : Trims) (span : Span)
  | tag (stmt : Stmt) (trims : Trims) (span : Span)
  | expr (expr : Expr) (trims : Trims) (span : Span)
  | raw (text : String) (span : Span)
  | error (span : Span)

/-- The region of the node. -/
def Node.span : Node → Span
  | content _ s | comment _ s | tag _ _ s | expr _ _ s | raw _ s | error s => s

/-- A parsed source. -/
structure Template where
  nodes : List Node

namespace Template

/-- The control tags among `nodes`, with their positions from `i` on. -/
def tagsFrom (i : Nat) : List Node → List (Nat × Stmt × Span)
  | [] => []
  | .tag stmt _ span :: rest => (i, stmt, span) :: tagsFrom (i + 1) rest
  | _ :: rest => tagsFrom (i + 1) rest

/-- The control tags in order, each with its position among the nodes. -/
def tags (t : Template) : List (Nat × Stmt × Span) := tagsFrom 0 t.nodes

end Template

end Stencil
