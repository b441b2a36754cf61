/-
  Trim — the whitespace modifier written against a delimiter.

  A tag may say how the blanks next to it are treated: `-` drops them, `+` keeps them, `~` leaves
  one.  The modifier follows an opening delimiter and precedes a closing one.
-/

namespace Stencil

/-- How the blanks next to a delimiter are treated. -/
inductive Trim where
  | suppress
  | preserve
  | minimize
  deriving DecidableEq

namespace Trim

/-- The character that asks for the treatment. -/
def toChar : Trim → Char
  | suppress => '-'
  | preserve => '+'
  | minimize => '~'

/-- The treatment a character asks for. -/
def ofChar? : Char → Option Trim
  | '-' => some suppress
  | '+' => some preserve
  | '~' => some minimize
  | _ => none

/-- The modifier at the start of `cs`. -/
def ofHead? (cs : List Char) : Option Trim := cs.head?.bind ofChar?

@[simp] theorem ofChar?_toChar (t : Trim) : ofChar? t.toChar = some t := by
  cases t <;> rfl

/-- The number of characters an optional modifier takes. -/
def width : Option Trim → Nat
  | none => 0
  | some _ => 1

end Trim

/-- The modifiers at the two ends of a tag. -/
structure Trims where
  opening : Option Trim
  closing : Option Trim
  deriving DecidableEq

end Stencil
