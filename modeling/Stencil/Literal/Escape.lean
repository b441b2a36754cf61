/-
  Escape — resolving the escapes of a quoted literal.

  The body of a literal is plain characters and escapes.  An escape is a backslash and one of
    * a letter or quote for a fixed character;
    * `x` and two hexadecimal digits, at most 7F;
    * `u` and a code point in braces, of one to six characters;
    * `u` and four hexadecimal digits, in character literals only.
  Resolving stops at the first escape that is none of these and tells its range of bytes within
  the body.  The digits in braces are read as an unsigned number, which may carry a plus sign.
-/
import Stencil.Text.Bytes

namespace Stencil.Escape

/-- The value of a hexadecimal digit of either case. -/
def hexDigit? (c : Char) : Option Nat :=
  if '0' ≤ c ∧ c ≤ '9' then some (c.toNat - '0'.toNat)
  else if 'a' ≤ c ∧ c ≤ 'f' then some (c.toNat - 'a'.toNat + 10)
  else if 'A' ≤ c ∧ c ≤ 'F' then some (c.toNat - 'A'.toNat + 10)
  else none

/-- The value of a row of hexadecimal digits, continuing from `acc`. -/
def hexDigits? (acc : Nat) : List Char → Option Nat
  | [] => some acc
  | c :: cs => do hexDigits? (16 * acc + (← hexDigit? c)) cs

/-- The value of at least one hexadecimal digit. -/
def hexValue? : List Char → Option Nat
  | [] => none
  | cs => hexDigits? 0 cs

/-- As `hexValue?`, with an optional plus sign in front. -/
def signedHexValue? : List Char → Option Nat
  | '+' :: cs => hexValue? cs
  | cs => hexValue? cs

/-- The character with code point `n`, unless `n` is a surrogate or too large. -/
def scalar? (n : Nat) : Option Char :=
  if h : n.isValidChar then some (Char.ofNatAux n h) else none

/-- The character that a single letter after the backslash stands for. -/
def simple? : Char → Option Char
  | 'n' => some '\n'
  | 'r' => some '\r'
  | 't' => some '\t'
  | '\\' => some '\\'
  | '0' => some '\x00'
  | '\x22' => some '\x22'
  | '\x27' => some '\x27'
  | _ => none

/-- A resolved escape: its character and how many characters it takes after the backslash. -/
structure Resolved where
  value : Char
  size : Nat

/-- The value of a resolution, or the number of bytes the faulty escape spans. -/
def orBytes (n : Nat) : Option Resolved → Except Nat Resolved
  | some r => .ok r
  | none => .error n

/-- Two digits after `x`, given what follows the `x`. -/
def resolveByte (rest : List Char) : Except Nat Resolved :=
  match splitAtByte? 2 rest with
  | none => .error (2 + byteLen rest)
  | some (digits, _) => orBytes 4 do
    let n ← hexValue? digits
    if n ≤ 0x7F then return ⟨← scalar? n, 3⟩ else none

/-- A code point in braces, given what follows the opening brace. -/
def resolveBraced (rest : List Char) : Except Nat Resolved :=
  let digits := rest.takeWhile (· ≠ '}')
  if digits.length = rest.length then .error (3 + byteLen rest)
  else orBytes (4 + byteLen digits) do
    if byteLen digits ≤ 6 then
      return ⟨← (signedHexValue? digits).bind scalar?, digits.length + 3⟩
    else none

/-- Four digits after `u`, given what follows the `u`. -/
def resolveFour (rest : List Char) : Except Nat Resolved :=
  match splitAtByte? 4 rest with
  | none => .error (2 + byteLen rest)
  | some (digits, _) => orBytes 6 do
    return ⟨← (hexValue? digits).bind scalar?, 5⟩

/-- Resolves one escape, given what follows the backslash.  A failure is the number of bytes that
    the faulty escape spans, from the backslash on. -/
def resolve (inChar : Bool) : List Char → Except Nat Resolved
  | [] => .error 1
  | 'x' :: rest => resolveByte rest
  | 'u' :: '{' :: rest => resolveBraced rest
  | 'u' :: rest => if inChar then resolveFour rest else .error 2
  | c :: _ =>
    match simple? c with
    | some v => .ok ⟨v, 1⟩
    | none => .error (1 + c.utf8Size)

/-- As `unescape`, for the rest of a body after its first `offset` bytes. -/
def unescapeFrom (inChar : Bool) (offset : Nat) (cs : List Char) : Except Span (List Char) :=
  match cs with
  | [] => .ok []
  | c :: rest =>
    if c = '\\' then
      match resolve inChar rest with
      | .error n => .error ⟨offset, offset + n⟩
      | .ok r =>
        (unescapeFrom inChar (offset + 1 + byteLen (rest.take r.size)) (rest.drop r.size)).map
          (r.value :: ·)
    else (unescapeFrom inChar (offset + c.utf8Size) rest).map (c :: ·)
termination_by cs.length
decreasing_by
  · simp only [List.length_drop, List.length_cons]; omega
  · simp

/-- The value of the body of a literal, or the range of its first faulty escape. -/
def unescape (inChar : Bool) (body : List Char) : Except Span (List Char) :=
  unescapeFrom inChar 0 body

end Stencil.Escape
