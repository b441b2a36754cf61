/-
  Scan — the lexeme that a text inside a tag starts with.

  A scan is given the first character and what follows it.  It answers with a token, or with a
  lexical fault and the bytes that the fault is about, and in both cases with the number of
  characters after the first one that are used up.  So every scan uses up at least one character.

  A quoted literal runs to the next quote that is not escaped.  If the line ends first the literal
  is cut short, at the first closing delimiter of the tag if there is one, so that the tag still
  ends there.
-/
import Stencil.Delims.Search
import Stencil.Fault
import Stencil.Literal.Escape
import Stencil.Literal.Numeral
import Stencil.Text.Letters

namespace Stencil

/-- The lexeme at the start of a text; `more` counts its characters after the first. -/
inductive Scan where
  | token (token : Token) (more : Nat)
  /-- A malformed lexeme; `range` is relative to its first byte. -/
  | fault (fault : LexFault) (range : Span) (more : Nat)

namespace Scan

/-- An operator or a piece of punctuation, and its number of further characters. -/
def punctuation? (c : Char) (cs : List Char) : Option (Token × Nat) :=
  match c, cs with
  | '.', '.' :: '=' :: _ => some (.dotDotEq, 2)
  | '.', '.' :: _ => some (.dotDot, 1)
  | '.', _ => some (.dot, 0)
  | ',', _ => some (.comma, 0)
  | ':', ':' :: _ => some (.pathSep, 1)
  | ':', _ => some (.colon, 0)
  | '(', _ => some (.lparen, 0)
  | ')', _ => some (.rparen, 0)
  | '[', _ => some (.lbracket, 0)
  | ']', _ => some (.rbracket, 0)
  | '{', _ => some (.lbrace, 0)
  | '}', _ => some (.rbrace, 0)
  | '|', '|' :: _ => some (.orOr, 1)
  | '|', _ => some (.pipe, 0)
  | '&', '&' :: _ => some (.andAnd, 1)
  | '&', _ => some (.amp, 0)
  | '!', '=' :: _ => some (.ne, 1)
  | '!', _ => some (.bang, 0)
  | '=', '=' :: _ => some (.eqEq, 1)
  | '=', _ => some (.eq, 0)
  | '<', '<' :: _ => some (.shl, 1)
  | '<', '=' :: _ => some (.le, 1)
  | '<', _ => some (.lt, 0)
  | '>', '>' :: _ => some (.shr, 1)
  | '>', '=' :: _ => some (.ge, 1)
  | '>', _ => some (.gt, 0)
  | '?', _ => some (.question, 0)
  | '*', _ => some (.star, 0)
  | '/', _ => some (.slash, 0)
  | '%', _ => some (.percent, 0)
  | '+', _ => some (.plus, 0)
  | '-', _ => some (.minus, 0)
  | '~', _ => some (.tilde, 0)
  | _, _ => none

/-- How the text after an opening quote goes on. -/
inductive QuoteEnd where
  /-- The closing quote is the last of the next `n` characters. -/
  | closed (n : Nat)
  /-- The line or the source ends after `n` characters. -/
  | cut (n : Nat)

/-- The same ending, seen from one character earlier. -/
def QuoteEnd.later : QuoteEnd → QuoteEnd
  | closed n => closed (n + 1)
  | cut n => cut (n + 1)

/-- Looks for the closing quote; `escaped` tells whether a backslash stands directly before. -/
def quoteEnd (quote : Char) (escaped : Bool) : List Char → QuoteEnd
  | [] => .cut 0
  | c :: cs =>
    if c = '\r' ∨ c = '\n' then .cut 0
    else if c = quote ∧ escaped = false then .closed 1
    else (quoteEnd quote (c = '\\' && !escaped) cs).later

/-- The first place among the next `n` characters where the tag is closed, or `n`. -/
def closingWithin (d : Delims) (kind : TagKind) : Nat → List Char → Nat
  | 0, _ => 0
  | _ + 1, [] => 0
  | n + 1, c :: cs =>
    if (d.closingAt kind (c :: cs)).isSome then 0 else closingWithin d kind n cs + 1

/-- The text without the blanks at its end. -/
def dropBlanksRight (cs : List Char) : List Char := (cs.reverse.dropWhile isBlank).reverse

/-- A literal whose quote is missing: it is cut at the closing delimiter of the tag, and reported
    without the blanks before that. -/
def unclosedQuote (d : Delims) (kind : TagKind) (fault : LexFault) (cs : List Char) (n : Nat) :
    Scan :=
  let stop := closingWithin d kind n cs
  .fault fault ⟨0, 1 + byteLen (dropBlanksRight (cs.take stop))⟩ stop

/-- A text literal after its opening quote. -/
def string (d : Delims) (kind : TagKind) (cs : List Char) : Scan :=
  match quoteEnd '\x22' false cs with
  | .cut n => unclosedQuote d kind .unclosedString cs n
  | .closed n =>
    match Escape.unescape false (cs.take (n - 1)) with
    | .error range => .fault .badEscape (range.shift 1) n
    | .ok _ => .token .str n

/-- A character literal after its opening quote. -/
def char (d : Delims) (kind : TagKind) (cs : List Char) : Scan :=
  match quoteEnd '\x27' false cs with
  | .cut n => unclosedQuote d kind .unclosedChar cs n
  | .closed n =>
    let whole : Span := ⟨0, 1 + byteLen (cs.take n)⟩
    match Escape.unescape true (cs.take (n - 1)) with
    | .error range => .fault .badEscape (range.shift 1) n
    | .ok [_] => .token .char n
    | .ok [] => .fault .emptyChar whole n
    | .ok _ => .fault .unclosedChar whole n

/-- A number that starts with the digit `c`; after a dot only its digits are taken. -/
def number (afterDot : Bool) (c : Char) (cs : List Char) : Scan :=
  if afterDot then .token .number (cs.takeWhile (·.isDigit)).length
  else
    let n := Numeral.more c cs
    let raw := c :: cs.take n
    match Numeral.split? raw with
    | some _ => .token .number n
    | none => .fault .badNumber ⟨0, byteLen raw⟩ n

/-- Whether `cs` starts with an exclamation mark that is not the start of an inequality. -/
def startsBang : List Char → Bool
  | '!' :: '=' :: _ => false
  | '!' :: _ => true
  | _ => false

/-- A word that starts with `c`: a keyword, a macro name with its mark, or a name. -/
def word [Letters] (c : Char) (cs : List Char) : Scan :=
  let tail := cs.takeWhile isIdentPart
  match Keyword.ofString? (String.ofList (c :: tail)) with
  | some k => .token (.keyword k) tail.length
  | none =>
    if startsBang (cs.drop tail.length) then .token .macroName (tail.length + 1)
    else .token .ident tail.length

/-- The lexeme that the text `c :: cs` inside a tag of kind `kind` starts with, delimiters apart. -/
def read [Letters] (d : Delims) (kind : TagKind) (afterDot : Bool) (c : Char) (cs : List Char) : Scan :=
  match punctuation? c cs with
  | some (t, more) => .token t more
  | none =>
    if c = '\x22' then string d kind cs
    else if c = '\x27' then char d kind cs
    else if c.isDigit then number afterDot c cs
    else if isBlank c then .token .blank (cs.takeWhile isBlank).length
    else if isIdentStart c then word c cs
    else .fault .unexpectedCharacter ⟨0, c.utf8Size⟩ 0

end Scan

end Stencil
