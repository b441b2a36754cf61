/-
  Token — the kinds of lexemes.

  Outside a tag the source is cut into content, comments and raw text; inside a tag into names,
  literals, operators and blanks.  A tag is entered and left by its delimiters.
-/
import Stencil.Delims
import Stencil.Keyword

namespace Stencil

/-- The kind of a lexeme. -/
inductive Token where
  | content
  | comment
  | rawText
  | beginExpr
  | endExpr
  | beginBlock
  | endBlock
  | blank
  | ident
  | macroName
  | keyword (word : Keyword)
  | number
  | str
  | char
  | dot
  | dotDot
  | dotDotEq
  | comma
  | colon
  | pathSep
  | lparen
  | rparen
  | lbracket
  | rbracket
  | lbrace
  | rbrace
  | pipe
  | orOr
  | andAnd
  | amp
  | bang
  | question
  | star
  | slash
  | percent
  | plus
  | minus
  | tilde
  | shl
  | shr
  | eqEq
  | ne
  | lt
  | le
  | gt
  | ge
  | eq
  deriving DecidableEq

namespace Token

/-- The token of the delimiter that begins a tag. -/
def opens : TagKind → Token
  | .expr => beginExpr
  | .block => beginBlock

/-- The token of the delimiter that ends a tag. -/
def closes : TagKind → Token
  | .expr => endExpr
  | .block => endBlock

/-- The kind of tag that the token begins. -/
def opens? : Token → Option TagKind
  | beginExpr => some .expr
  | beginBlock => some .block
  | _ => none

/-- Whether the token ends a tag. -/
def isClosing : Token → Bool
  | endExpr | endBlock => true
  | _ => false

/-- Whether the token can be used as a name: a word that is not reserved. -/
def isName : Token → Bool
  | ident => true
  | keyword k => !k.isReserved
  | _ => false

/-- All tokens but the keywords, in the order of their declaration. -/
def plain : List Token :=
  [content, comment, rawText, beginExpr, endExpr, beginBlock, endBlock, blank, ident, macroName,
   number, str, char, dot, dotDot, dotDotEq, comma, colon, pathSep, lparen, rparen, lbracket,
   rbracket, lbrace, rbrace, pipe, orOr, andAnd, amp, bang, question, star, slash, percent, plus,
   minus, tilde, shl, shr, eqEq, ne, lt, le, gt, ge, eq]

/-- What the kind of lexeme is called in a message. -/
def noun : Token → String
  | content => "content"
  | comment => "comment"
  | rawText => "raw text"
  | beginExpr => "begin expression"
  | endExpr => "end expression"
  | beginBlock => "begin block"
  | endBlock => "end block"
  | blank => "whitespace"
  | ident => "identifier"
  | macroName => "macro name"
  | keyword _ => "keyword"
  | number => "number"
  | str => "string"
  | char => "character"
  | dot => "member access operator"
  | dotDot => "`..`"
  | dotDotEq => "`..=`"
  | comma => "comma"
  | colon => "colon"
  | pathSep => "`::`"
  | lparen => "`(`"
  | rparen => "`)`"
  | lbracket => "`[`"
  | rbracket => "`]`"
  | lbrace => "`\x7b`"
  | rbrace => "`\x7d`"
  | pipe => "pipe"
  | orOr => "`||`"
  | andAnd => "`&&`"
  | amp => "`&`"
  | bang => "`!`"
  | question => "`?`"
  | star => "`*`"
  | slash => "`/`"
  | percent => "`%`"
  | plus => "plus"
  | minus => "minus"
  | tilde => "`~`"
  | shl => "`<<`"
  | shr => "`>>`"
  | eqEq => "`==`"
  | ne => "`!=`"
  | lt => "`<`"
  | le => "`<=`"
  | gt => "`>`"
  | ge => "`>=`"
  | eq => "`=`"

/-- As `noun`, with the word of a keyword. -/
def describe : Token → String
  | keyword k => "keyword `" ++ k.text ++ "`"
  | t => t.noun

/-- The name of the kind of lexeme in records. -/
def label : Token → String
  | content => "Content"
  | comment => "Comment"
  | rawText => "RawText"
  | beginExpr => "BeginExpr"
  | endExpr => "EndExpr"
  | beginBlock => "BeginBlock"
  | endBlock => "EndBlock"
  | blank => "Whitespace"
  | ident => "Ident"
  | macroName => "MacroName"
  | keyword _ => "Keyword"
  | number => "Number"
  | str => "Str"
  | char => "Char"
  | dot => "Dot"
  | dotDot => "DotDot"
  | dotDotEq => "DotDotEq"
  | comma => "Comma"
  | colon => "Colon"
  | pathSep => "PathSep"
  | lparen => "LParen"
  | rparen => "RParen"
  | lbracket => "LBracket"
  | rbracket => "RBracket"
  | lbrace => "LBrace"
  | rbrace => "RBrace"
  | pipe => "Pipe"
  | orOr => "OrOr"
  | andAnd => "AndAnd"
  | amp => "Amp"
  | bang => "Bang"
  | question => "Question"
  | star => "Star"
  | slash => "Slash"
  | percent => "Percent"
  | plus => "Plus"
  | minus => "Minus"
  | tilde => "Tilde"
  | shl => "Shl"
  | shr => "Shr"
  | eqEq => "EqEq"
  | ne => "Ne"
  | lt => "Lt"
  | le => "Le"
  | gt => "Gt"
  | ge => "Ge"
  | eq => "Eq"

@[simp] theorem opens?_opens (k : TagKind) : (opens k).opens? = some k := by
  cases k <;> rfl

@[simp] theorem isClosing_closes (k : TagKind) : (closes k).isClosing = true := by
  cases k <;> rfl

end Token

end Stencil
