/-
  Printer — expressions as text.

  Every operator application is put in parentheses, so the printed text shows how an expression
  was understood; grouping parentheses of the source are printed as well.
-/
import Stencil.Expr
import Stencil.Text.Quoted

namespace Stencil

/-- The constant as it is written. -/
def Literal.render : Literal → String
  | .str s => Quoted.string s
  | .char c => String.ofList (Quoted.char c)
  | .num n => (if n.negative then "-" else "") ++ n.raw
  | .bool b => if b then "true" else "false"

/-- The operand as it is written. -/
def TextLit.render (t : TextLit) : String := Quoted.string t.value

mutual

/-- The expression with every operator application in parentheses. -/
def Expr.render : Expr → String
  | .lit v _ => v.render
  | .var n _ => n
  | .path p _ => p.render
  | .binary op a b _ => "(" ++ a.render ++ " " ++ op.text ++ " " ++ b.render ++ ")"
  | .unary op a _ => "(" ++ op.text ++ a.render ++ ")"
  | .ref a _ => "(&" ++ a.render ++ ")"
  | .attempt a _ => a.render ++ "?"
  | .call f args _ => f.render ++ args.render
  | .field a key _ => a.render ++ "." ++ key.render
  | .index a i _ => a.render ++ "[" ++ i.render ++ "]"
  | .range a b inclusive _ =>
    "(" ++ Expr.renderOption a ++ (if inclusive then "..=" else "..") ++ Expr.renderOption b ++ ")"
  | .array es _ => "[" ++ Expr.renderList es ++ "]"
  | .tuple es _ => "(" ++ Expr.renderList es ++ (if es.length = 1 then "," else "") ++ ")"
  | .unit _ => "()"
  | .group a _ => "(" ++ a.render ++ ")"
  | .filter a fs _ => "(" ++ a.render ++ Filter.renderChain fs ++ ")"
  | .isDefined a negated _ =>
    "(" ++ a.render ++ " is " ++ (if negated then "not " else "") ++ "defined)"
  | .macroCall p args _ => p.render ++ "!" ++ args.render

/-- The expression, or nothing. -/
def Expr.renderOption : Option Expr → String
  | none => ""
  | some a => a.render

/-- The expressions with commas between them. -/
def Expr.renderList : List Expr → String
  | [] => ""
  | [a] => a.render
  | a :: b :: rest => a.render ++ ", " ++ Expr.renderList (b :: rest)

/-- The argument list in its parentheses. -/
def Args.render : Args → String
  | .mk items _ => "(" ++ Arg.renderList items ++ ")"

/-- The arguments with commas between them. -/
def Arg.renderList : List Arg → String
  | [] => ""
  | [a] => a.render
  | a :: b :: rest => a.render ++ ", " ++ Arg.renderList (b :: rest)

/-- The argument, after its name if it has one. -/
def Arg.render : Arg → String
  | .positional a => a.render
  | .named n a => n.name ++ " = " ++ a.render

/-- The filter with its arguments. -/
def Filter.render : Filter → String
  | .mk n args _ => n.name ++ Args.renderOption args

/-- The argument list, or nothing. -/
def Args.renderOption : Option Args → String
  | none => ""
  | some args => args.render

/-- The filters, each after a bar. -/
def Filter.renderChain : List Filter → String
  | [] => ""
  | f :: rest => " | " ++ f.render ++ Filter.renderChain rest

end

@[simp] theorem Expr.render_group (a : Expr) (s : Span) :
    (Expr.group a s).render = "(" ++ a.render ++ ")" := by
  rw [Expr.render]

end Stencil
