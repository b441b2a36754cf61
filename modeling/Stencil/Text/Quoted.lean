/-
  Quoted — text and characters written between quotes.

  The quote itself and the backslash are escaped, the common controls have letters, and every
  other character without a visible form of its own (extending or unprintable) is written by its
  code point in lower-case hexadecimal.  Reading such text back is the job of
  `Stencil.Literal.Escape`.
-/
import Stencil.Text.Extending
import Stencil.Text.Printable

namespace Stencil.Quoted

/-- The lower-case hexadecimal digits of `n`, without leading zeros. -/
def hex (n : Nat) : List Char := Nat.toDigits 16 n

/-- A character by its code point. -/
def byCode (c : Char) : List Char := "\\u\x7b".toList ++ hex c.toNat ++ ['}']

/-- One character as it stands between two quotes `quote`. -/
def escape (quote c : Char) : List Char :=
  if c = '\x00' then ['\\', '0']
  else if c = '\t' then ['\\', 't']
  else if c = '\n' then ['\\', 'n']
  else if c = '\r' then ['\\', 'r']
  else if c = '\\' then ['\\', '\\']
  else if c = quote then ['\\', quote]
  else if isExtending c then byCode c
  else if isPrintable c then [c]
  else byCode c

/-- A text between double quotes. -/
def text (cs : List Char) : List Char := '\x22' :: cs.flatMap (escape '\x22') ++ ['\x22']

/-- A character between single quotes. -/
def char (c : Char) : List Char := '\x27' :: escape '\x27' c ++ ['\x27']

/-- A string between double quotes. -/
def string (s : String) : String := String.ofList (text s.toList)

end Stencil.Quoted
