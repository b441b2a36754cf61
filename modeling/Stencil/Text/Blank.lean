/-
  Blank — the characters that separate words inside a tag.

  These are the characters with the White_Space property: the ASCII blanks, the no-break and
  typographic spaces, and the line and paragraph separators.
-/
import Stencil.Text.Ranges

namespace Stencil

/-- The ranges of the White_Space property. -/
def blankRanges : List (Nat × Nat) :=
  [(0x9, 0xD), (0x20, 0x20), (0x85, 0x85), (0xA0, 0xA0), (0x1680, 0x1680), (0x2000, 0x200A),
   (0x2028, 0x2029), (0x202F, 0x202F), (0x205F, 0x205F), (0x3000, 0x3000)]

/-- Whether `c` is white space. -/
def isBlank (c : Char) : Bool := inRanges blankRanges c

theorem toNat_of_isBlank {c : Char} (h : isBlank c = true) : c.toNat ≤ 32 ∨ 0x85 ≤ c.toNat := by
  have hranges : ∀ r ∈ blankRanges, r.2 ≤ 32 ∨ 0x85 ≤ r.1 := by decide
  obtain ⟨r, hr, hlo, hhi⟩ := inRanges_eq_true_iff.1 h
  have := hranges r hr
  omega

end Stencil
