/-
  Equality — comparing parsed sources, places included.
-/
import Stencil.Stmt.Equality
import Stencil.Template

namespace Stencil

/-- Whether two nodes are the same. -/
def Node.same : Node → Node → Bool
  | content a s, content b t => a == b && s == t
  | comment a s, comment b t => a == b && s == t
  | tag a u s, tag b v t => a.same b && u == v && s == t
  | expr a u s, expr b v t => a.same b && u == v && s == t
  | raw a s, raw b t => a == b && s == t
  | error s, error t => s == t
  | _, _ => false

/-- Whether two lists hold the same nodes in the same order. -/
def Node.sameList : List Node → List Node → Bool
  | [], [] => true
  | a :: as, b :: bs => a.same b && sameList as bs
  | _, _ => false

/-- Whether two parsed sources are the same. -/
def Template.same (a b : Template) : Bool := Node.sameList a.nodes b.nodes

end Stencil
