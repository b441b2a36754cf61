/-
  Numeral — the extent and the parts of a number literal.

  Where a number ends and whether it is well formed are two questions.  `extent` takes in every
  letter and digit that follows, so that a malformed literal such as `12ab` is one lexeme; `split?`
  then says whether the text is a number, of which kind, and what its type suffix is.
-/
import Stencil.Literal

namespace Stencil.Numeral

/-- An ASCII digit or the separator between digits. -/
def isDigitOrBar (c : Char) : Bool := c.isDigit || c == '_'

/-- A hexadecimal digit of either case. -/
def isHexDigit (c : Char) : Bool :=
  c.isDigit || (decide ('a' ≤ c) && decide (c ≤ 'f')) || (decide ('A' ≤ c) && decide (c ≤ 'F'))

/-- Whether `cs` starts with a digit. -/
def startsDigit : List Char → Bool
  | c :: _ => c.isDigit
  | [] => false

/-- Whether `cs` starts with a sign and a digit. -/
def startsSigned : List Char → Bool
  | s :: c :: _ => (s == '+' || s == '-') && c.isDigit
  | _ => false

/-- The number of characters with which a number goes on.  A point is taken while the number is
    plain digits and a digit follows it, a signed exponent when a digit follows the sign; neither
    after a radix mark. -/
def extent (decimal plain : Bool) : List Char → Nat
  | [] => 0
  | c :: cs =>
    if isDigitOrBar c then extent decimal plain cs + 1
    else if c == '.' && decimal && plain && startsDigit cs then extent decimal false cs + 1
    else if (c == 'e' || c == 'E') && decimal && startsSigned cs then
      match cs with
      | [] => 1
      | _ :: rest => extent decimal false rest + 2
    else if c.isAlphanum then extent decimal false cs + 1
    else 0

/-- The number of characters after the first digit `c` that belong to the number. -/
def more (c : Char) (cs : List Char) : Nat :=
  let marked := c == '0' && (cs.head? == some 'x' || cs.head? == some 'o' || cs.head? == some 'b')
  extent (!marked) true cs

/-- The suffixes that fix an integer type. -/
def intSuffixes : List String :=
  ["u8", "u16", "u32", "u64", "u128", "usize", "i8", "i16", "i32", "i64", "i128", "isize"]

/-- Whether `cs` is a suffix that fixes an integer type. -/
def isIntSuffix (cs : List Char) : Bool := intSuffixes.any fun s => s.toList == cs

/-- Whether `cs` is a suffix that fixes a float type. -/
def isFloatSuffix (cs : List Char) : Bool := cs == "f32".toList || cs == "f64".toList

/-- The digits after a radix mark and the suffix after them: at least one digit, and every digit
    below the radix. -/
def splitRadix? (inRow isDigit : Char → Bool) (cs : List Char) : Option (NumberKind × List Char) :=
  let digits := cs.takeWhile inRow
  let suffix := cs.dropWhile inRow
  if digits.any (· ≠ '_') && digits.all (fun c => c == '_' || isDigit c)
      && (suffix.isEmpty || isIntSuffix suffix) then
    some (.int, suffix)
  else none

/-- Reads an optional fraction: whether there was one, and the rest.  A point without a digit after
    it is refused. -/
def fraction? : List Char → Option (Bool × List Char)
  | '.' :: cs => if startsDigit cs then some (true, cs.dropWhile isDigitOrBar) else none
  | cs => some (false, cs)

/-- Drops an optional sign. -/
def dropSign : List Char → List Char
  | '+' :: cs => cs
  | '-' :: cs => cs
  | cs => cs

/-- Reads an optional exponent: whether there was one, and the rest.  An exponent without a digit
    is refused. -/
def exponent? : List Char → Option (Bool × List Char)
  | [] => some (false, [])
  | c :: cs =>
    if c == 'e' || c == 'E' then
      let row := dropSign cs
      if (row.takeWhile isDigitOrBar).any (·.isDigit) then
        some (true, row.dropWhile isDigitOrBar)
      else none
    else some (false, c :: cs)

/-- The parts of a decimal number. -/
def splitDecimal? (cs : List Char) : Option (NumberKind × List Char) := do
  let (hasFraction, afterFraction) ← fraction? (cs.dropWhile isDigitOrBar)
  let (hasExponent, suffix) ← exponent? afterFraction
  let kind := if hasFraction || hasExponent then NumberKind.float else .int
  if suffix.isEmpty then some (kind, [])
  else if isFloatSuffix suffix then some (.float, suffix)
  else if kind == .int && isIntSuffix suffix then some (.int, suffix)
  else none

/-- The kind and the suffix of a number literal, or nothing if it is malformed. -/
def split? : List Char → Option (NumberKind × List Char)
  | '0' :: 'x' :: cs => splitRadix? (fun c => isHexDigit c || c == '_') isHexDigit cs
  | '0' :: 'o' :: cs => splitRadix? isDigitOrBar (fun c => c.isDigit && decide (c ≤ '7')) cs
  | '0' :: 'b' :: cs => splitRadix? isDigitOrBar (fun c => c.isDigit && decide (c ≤ '1')) cs
  | c :: cs => if c.isDigit then splitDecimal? (c :: cs) else none
  | [] => none

/-- The number literal written `raw`. -/
def number? (raw : List Char) (negative : Bool) : Option Number := do
  let (kind, suffix) ← split? raw
  return ⟨String.ofList raw, kind, if suffix.isEmpty then none else some (String.ofList suffix),
    negative⟩

end Stencil.Numeral
