/-
  Fault — what can be wrong with a template.

  A fault is a cause: it says what was found and what was allowed instead.  Its wording is in one
  place, `Fault.message`, and `Fault.kind` is the coarser class that callers may branch on.
-/
import Stencil.Token

namespace Stencil

/-- A malformed lexeme inside a tag. -/
inductive LexFault where
  | unexpectedCharacter
  | unclosedString
  | unclosedChar
  | emptyChar
  | badNumber
  | badEscape
  deriving DecidableEq

/-- Something that would have been accepted at a place. -/
inductive Expected where
  | token (token : Token)
  | identifier
  | literal
  | expression
  | pattern
  | statement
  deriving DecidableEq

/-- The tags that stay open until an end tag. -/
inductive Opener where
  | block
  | forLoop
  | ifCond
  | matchOn
  | whenArm
  | macroDef
  | callBlock
  | filterBlock
  | raw
  deriving DecidableEq

/-- A tag at a place where the open tags do not allow it, or one that is never closed. -/
inductive Imbalance where
  /-- A tag, by the words it is written with, that no open tag allows. -/
  | misplaced (tag : String)
  /-- An end tag that names another tag than the one it closes. -/
  | misnamed (opener : Opener) (expected found : String)
  /-- A loop statement, by its word, that no loop encloses. -/
  | outsideLoop (word : String)
  /-- A tag that is still open at the end. -/
  | unclosed (opener : Opener)
  deriving DecidableEq

/-- What is wrong with a template. -/
inductive Fault where
  | lex (fault : LexFault)
  /-- A tuple index that is no 64-bit number. -/
  | indexTooLarge
  | unclosedComment
  | unclosedRaw
  /-- A lexeme that fits nothing allowed at its place; `none` stands for the end of the source. -/
  | unexpected (expected : List Expected) (found : Option Token)
  /-- Nesting beyond the given limit. -/
  | tooDeep (limit : Nat)
  | unbalanced (problem : Imbalance)
  deriving DecidableEq

/-- The class of a fault. -/
inductive FaultKind where
  | lex (fault : LexFault)
  | unclosedComment
  | unclosedRaw
  | unexpected (expected : List Expected) (found : Option Token)
  | tooDeep
  | unbalanced
  deriving DecidableEq

/-- The words of the tag that opens. -/
def Opener.text : Opener → String
  | block => "block"
  | forLoop => "for"
  | ifCond => "if"
  | matchOn => "match"
  | whenArm => "when"
  | macroDef => "macro"
  | callBlock => "call"
  | filterBlock => "filter"
  | raw => "raw"

/-- The words of the tag that closes. -/
def Opener.endText : Opener → String
  | block => "endblock"
  | forLoop => "endfor"
  | ifCond => "endif"
  | matchOn => "endmatch"
  | whenArm => "endwhen"
  | macroDef => "endmacro"
  | callBlock => "endcall"
  | filterBlock => "endfilter"
  | raw => "endraw"

/-- How an allowed alternative is named in a message. -/
def Expected.describe : Expected → String
  | token t => t.describe
  | identifier => "identifier"
  | literal => "literal"
  | expression => "expression"
  | pattern => "pattern"
  | statement => "statement"

/-- Alternatives in a row: commas between them, `or` before the last. -/
def Expected.describeAll : List Expected → String
  | [] => ""
  | [e] => e.describe
  | [e, f] => e.describe ++ " or " ++ f.describe
  | e :: f :: g :: rest => e.describe ++ ", " ++ describeAll (f :: g :: rest)

/-- The wording of a malformed lexeme. -/
def LexFault.message : LexFault → String
  | unexpectedCharacter => "unexpected character"
  | unclosedString => "undelimited string"
  | unclosedChar => "undelimited character"
  | emptyChar => "empty character literal"
  | badNumber => "invalid number literal"
  | badEscape => "unknown escape character"

/-- The wording of a problem with the nesting of tags. -/
def Imbalance.message : Imbalance → String
  | misplaced tag => "unexpected `" ++ tag ++ "` tag"
  | misnamed opener expected found =>
    "expected `" ++ opener.endText ++ " " ++ expected ++ "`, found `" ++ opener.endText ++ " "
      ++ found ++ "`"
  | outsideLoop word => "`" ++ word ++ "` outside of a `for` loop"
  | unclosed opener => "unclosed `" ++ opener.text ++ "` tag"

/-- The wording of a fault. -/
def Fault.message : Fault → String
  | lex f => f.message
  | indexTooLarge => "tuple index out of range"
  | unclosedComment => "unclosed comment"
  | unclosedRaw => "unclosed raw block"
  | unexpected expected found =>
    "expected " ++ Expected.describeAll expected ++ ", found "
      ++ (match found with | some t => t.describe | none => "EOF")
  | tooDeep limit => "nesting exceeds the recursion limit of " ++ limit.repr
  | unbalanced problem => problem.message

/-- The class of a fault; an index that is too large counts as a bad number. -/
def Fault.kind : Fault → FaultKind
  | lex f => .lex f
  | indexTooLarge => .lex .badNumber
  | unclosedComment => .unclosedComment
  | unclosedRaw => .unclosedRaw
  | unexpected expected found => .unexpected expected found
  | tooDeep _ => .tooDeep
  | unbalanced _ => .unbalanced

end Stencil
