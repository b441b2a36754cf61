/-
  Expr — the expressions of the template language.

  An expression is a tree whose nodes remember their place in the source.  Parentheses that only
  group are kept as nodes; a row of filters is one node with the value they are applied to.  The
  binary operators have levels, from the loosest (`||`) to the tightest (`*`); a filter binds
  tighter than all of them.
-/
import Stencil.Ident
import Stencil.Literal

namespace Stencil

/-- A binary operator. -/
inductive BinOp where
  | mul
  | div
  | rem
  | concat
  | add
  | sub
  | shl
  | shr
  | bitAnd
  | xor
  | bitOr
  | eq
  | ne
  | lt
  | le
  | gt
  | ge
  | and
  | or
  deriving DecidableEq

namespace BinOp

/-- The operator as it is written. -/
def text : BinOp → String
  | mul => "*"
  | div => "/"
  | rem => "%"
  | concat => "~"
  | add => "+"
  | sub => "-"
  | shl => "<<"
  | shr => ">>"
  | bitAnd => "bitand"
  | xor => "xor"
  | bitOr => "bitor"
  | eq => "=="
  | ne => "!="
  | lt => "<"
  | le => "<="
  | gt => ">"
  | ge => ">="
  | and => "&&"
  | or => "||"

/-- How tightly the operator binds; looser operators have lower levels. -/
def level : BinOp → Nat
  | or => 0
  | and => 1
  | eq | ne | lt | le | gt | ge => 2
  | bitOr => 3
  | xor => 4
  | bitAnd => 5
  | shl | shr => 6
  | add | sub => 7
  | concat => 8
  | mul | div | rem => 9

end BinOp

/-- How tightly a filter binds. -/
def filterLevel : Nat := 10

theorem BinOp.level_lt_filterLevel (op : BinOp) : op.level < filterLevel := by
  cases op <;> decide

/-- A unary operator, references apart. -/
inductive UnOp where
  | not
  | deref
  | neg
  deriving DecidableEq

/-- The operator as it is written. -/
def UnOp.text : UnOp → String
  | not => "!"
  | deref => "*"
  | neg => "-"

/-- What follows the dot of a member access: a name, or the position in a tuple. -/
inductive Key where
  | name (name : Ident)
  | index (value : Nat) (span : Span)
  deriving DecidableEq

namespace Key

/-- The place of the key. -/
def span : Key → Span
  | name ident => ident.span
  | index _ span => span

/-- The key as it is written. -/
def render : Key → String
  | name ident => ident.name
  | index value _ => value.repr

end Key

mutual

/-- An expression with its place. -/
inductive Expr where
  | lit (value : Literal) (span : Span)
  | var (name : String) (span : Span)
  | path (path : Path) (span : Span)
  | binary (op : BinOp) (left right : Expr) (span : Span)
  | unary (op : UnOp) (operand : Expr) (span : Span)
  | ref (operand : Expr) (span : Span)
  | attempt (operand : Expr) (span : Span)
  | call (callee : Expr) (args : Args) (span : Span)
  | field (object : Expr) (key : Key) (span : Span)
  | index (object index : Expr) (span : Span)
  | range (start stop : Option Expr) (inclusive : Bool) (span : Span)
  | array (elems : List Expr) (span : Span)
  | tuple (elems : List Expr) (span : Span)
  | unit (span : Span)
  | group (inner : Expr) (span : Span)
  | filter (value : Expr) (filters : List Filter) (span : Span)
  | isDefined (subject : Expr) (negated : Bool) (span : Span)
  | macroCall (path : Path) (args : Args) (span : Span)

/-- An argument list in parentheses. -/
inductive Args where
  | mk (items : List Arg) (span : Span)

/-- An argument, by position or by name. -/
inductive Arg where
  | positional (value : Expr)
  | named (name : Ident) (value : Expr)

/-- A filter with its arguments, if it has any. -/
inductive Filter where
  | mk (name : Ident) (args : Option Args) (span : Span)

end

namespace Expr

/-- The place of the expression. -/
def span : Expr → Span
  | lit _ s | var _ s | path _ s | binary _ _ _ s | unary _ _ s | ref _ s | attempt _ s
  | call _ _ s | field _ _ s | index _ _ s | range _ _ _ s | array _ s | tuple _ s | unit s
  | group _ s | filter _ _ s | isDefined _ _ s | macroCall _ _ s => s

/-- Whether the expression is a call. -/
def isCall : Expr → Bool
  | call .. => true
  | _ => false

end Expr

/-- The place of the argument list, parentheses included. -/
def Args.span : Args → Span
  | mk _ s => s

/-- The place of the filter. -/
def Filter.span : Filter → Span
  | mk _ _ s => s

end Stencil
