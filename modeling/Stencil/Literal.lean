/-
  Literal — the constants of the template language.

  A text or character literal holds its value with the escapes resolved.  A number keeps the text
  it was written with: its value is never computed, since that depends on the type it is used at.
-/

namespace Stencil

/-- Whether a number is written as an integer or with a fraction, exponent or float suffix. -/
inductive NumberKind where
  | int
  | float
  deriving DecidableEq

/-- A number as it was written. -/
structure Number where
  /-- The digits with radix mark, separators and suffix, without the sign. -/
  raw : String
  kind : NumberKind
  /-- The type suffix at the end of `raw`. -/
  suffix : Option String
  negative : Bool
  deriving DecidableEq

/-- A constant. -/
inductive Literal where
  | str (value : String)
  | char (value : Char)
  | num (value : Number)
  | bool (value : Bool)
  deriving DecidableEq

end Stencil
