/-
  Stmt — the statements of control tags.

  A control tag holds one statement.  Statements are not nested here: an opening tag and its end
  tag are two statements, and `Stencil.Balance` checks how they fit together.
-/
import Stencil.Expr
import Stencil.Pattern

namespace Stencil

/-- The word an assignment begins with. -/
inductive LetWord where
  | letWord
  | setWord
  deriving DecidableEq

/-- The condition of a branch: an expression, or a pattern that a value has to fit. -/
inductive Cond where
  | expr (cond : Expr)
  | bind (pattern : Pattern) (value : Expr)

/-- A parameter of a macro, with its default if it has one. -/
structure Param where
  name : Ident
  default : Option Expr

/-- What a statement says. -/
inductive StmtKind where
  | block (name : Ident)
  | endBlock (name : Option Ident)
  | extendFrom (path : TextLit)
  | includeFrom (path : TextLit)
  | importAs (path : TextLit) (name : Ident)
  | assign (word : LetWord) (mutable : Bool) (pattern : Pattern) (value : Option Expr)
  | forLoop (pattern : Pattern) (iterable : Expr) (cond : Option Expr)
  | endFor
  | breakLoop
  | continueLoop
  | ifCond (cond : Cond)
  | elseIf (cond : Cond)
  | elseCond
  | endIf
  | matchOn (subject : Expr)
  | endMatch
  | whenArm (pattern : Pattern)
  | endWhen
  | macroDef (name : Ident) (params : List Param)
  | endMacro (name : Option Ident)
  | callBlock (bindings : List Ident) (call : Expr)
  | endCall
  | filterBlock (filters : List Filter)
  | endFilter
  | raw
  | endRaw

/-- A statement with its place between the delimiters. -/
structure Stmt where
  kind : StmtKind
  span : Span

/-- Whether the statement begins a raw block. -/
def Stmt.isRaw (s : Stmt) : Bool :=
  match s.kind with
  | .raw => true
  | _ => false

end Stencil
