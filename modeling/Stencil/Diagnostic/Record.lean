/-
  Record — diagnostics and delimiters spelled out field by field.

  This is the form for logs: the name of the type, and its fields in braces.
-/
import Stencil.Delims
import Stencil.Diagnostic.Snippet
import Stencil.Text.Quoted

namespace Stencil

/-- The items in square brackets with commas between them. -/
def recordItems : List String → String
  | [] => ""
  | [s] => s
  | s :: t :: rest => s ++ ", " ++ recordItems (t :: rest)

/-- A list in square brackets. -/
def recordList (items : List String) : String := "[" ++ recordItems items ++ "]"

/-- A type name and its fields in braces. -/
def recordFields (name : String) (fields : List (String × String)) : String :=
  name ++ " \x7b " ++ recordItems (fields.map fun (k, v) => k ++ ": " ++ v) ++ " \x7d"

/-- The name of a malformed lexeme. -/
def LexFault.label : LexFault → String
  | unexpectedCharacter => "UnexpectedCharacter"
  | unclosedString => "UnterminatedString"
  | unclosedChar => "UnterminatedChar"
  | emptyChar => "EmptyChar"
  | badNumber => "InvalidNumber"
  | badEscape => "InvalidEscape"

/-- The token spelled out. -/
def Token.record : Token → String
  | keyword k => "Keyword(" ++ k.label ++ ")"
  | t => t.label

/-- The alternative spelled out. -/
def Expected.record : Expected → String
  | token t => "Token(" ++ t.record ++ ")"
  | identifier => "Identifier"
  | literal => "Literal"
  | expression => "Expression"
  | pattern => "Pattern"
  | statement => "Statement"

/-- The class of a fault spelled out. -/
def FaultKind.record : FaultKind → String
  | lex f => "Lex(" ++ f.label ++ ")"
  | unclosedComment => "UnterminatedComment"
  | unclosedRaw => "UnterminatedRawBlock"
  | unexpected expected found =>
    recordFields "UnexpectedToken"
      [("expected", recordList (expected.map Expected.record)),
       ("found", match found with | some t => "Some(" ++ t.record ++ ")" | none => "None")]
  | tooDeep => "RecursionLimitExceeded"
  | unbalanced => "UnbalancedTag"

/-- The span spelled out. -/
def Span.record (s : Span) : String :=
  recordFields "Span" [("m", s.start.repr), ("n", s.stop.repr)]

namespace Diagnostic

/-- The diagnostic spelled out. -/
def record (d : Diagnostic) : String :=
  recordFields "Error"
    [("kind", d.kind.record), ("msg", Quoted.string d.message), ("span", d.span.record)]

/-- The form for logs: a snippet, or the record when there is no source to show. -/
def log? (d : Diagnostic) (source : String) : Option String :=
  if source.isEmpty then some d.record else d.snippet? source

end Diagnostic

/-- The delimiters of a kind, spelled out under the given names. -/
def DelimPair.record (opening closing : String) : Option DelimPair → List String
  | none => []
  | some p =>
    ["(" ++ opening ++ ", " ++ Quoted.string p.opening.toString ++ ")",
     "(" ++ closing ++ ", " ++ Quoted.string p.closing.toString ++ ")"]

/-- The delimiters spelled out. -/
def Delims.record (d : Delims) : String :=
  recordFields "Syntax"
    [("patterns", recordList
      (DelimPair.record "BeginExpr" "EndExpr" d.expr
        ++ DelimPair.record "BeginBlock" "EndBlock" d.block
        ++ DelimPair.record "BeginComment" "EndComment" d.comment))]

end Stencil
