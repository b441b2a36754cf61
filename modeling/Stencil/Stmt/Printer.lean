/-
  Printer — statements as text, without the delimiters of the tag.
-/
import Stencil.Pattern.Printer
import Stencil.Stmt

namespace Stencil

/-- The condition as it is written. -/
def Cond.render : Cond → String
  | .expr e => e.render
  | .bind p e => "let " ++ p.render ++ " = " ++ e.render

/-- A part that follows `lead`, or nothing. -/
def renderAfter {α : Type} (lead : String) (render : α → String) : Option α → String
  | none => ""
  | some x => lead ++ render x

/-- The parameter with its default. -/
def Param.render (p : Param) : String := p.name.name ++ renderAfter " = " Expr.render p.default

/-- The words of the list with `sep` between them. -/
def joinWith (sep : String) : List String → String
  | [] => ""
  | [s] => s
  | s :: t :: rest => s ++ sep ++ joinWith sep (t :: rest)

/-- The names a call hands to its body, in parentheses. -/
def renderBindings : List Ident → String
  | [] => ""
  | bs => "(" ++ joinWith ", " (bs.map (·.name)) ++ ") "

/-- The word as it is written, with a blank after it. -/
def LetWord.lead : LetWord → String
  | letWord => "let "
  | setWord => "set "

/-- What the statement says, as it is written. -/
def StmtKind.render : StmtKind → String
  | block n => "block " ++ n.name
  | endBlock n => "endblock" ++ renderAfter " " Ident.name n
  | extendFrom p => "extends " ++ p.render
  | includeFrom p => "include " ++ p.render
  | importAs p n => "import " ++ p.render ++ " as " ++ n.name
  | assign word mutable p v =>
    word.lead ++ (if mutable then "mut " else "") ++ p.render ++ renderAfter " = " Expr.render v
  | forLoop p e c => "for " ++ p.render ++ " in " ++ e.render ++ renderAfter " if " Expr.render c
  | endFor => "endfor"
  | breakLoop => "break"
  | continueLoop => "continue"
  | ifCond c => "if " ++ c.render
  | elseIf c => "else if " ++ c.render
  | elseCond => "else"
  | endIf => "endif"
  | matchOn e => "match " ++ e.render
  | endMatch => "endmatch"
  | whenArm p => "when " ++ p.render
  | endWhen => "endwhen"
  | macroDef n ps => "macro " ++ n.name ++ "(" ++ joinWith ", " (ps.map Param.render) ++ ")"
  | endMacro n => "endmacro" ++ renderAfter " " Ident.name n
  | callBlock bs e => "call " ++ renderBindings bs ++ e.render
  | endCall => "endcall"
  | filterBlock fs => "filter " ++ joinWith " | " (fs.map Filter.render)
  | endFilter => "endfilter"
  | raw => "raw"
  | endRaw => "endraw"

/-- The statement as it is written. -/
def Stmt.render (s : Stmt) : String := s.kind.render

end Stencil
