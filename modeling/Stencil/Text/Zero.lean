/-
  Zero — the characters that take no column, extending characters apart.

  These are the characters that are ignorable by default, the vowels and final consonants that
  complete a Hangul syllable, and the marks written in front of what they modify.
-/
import Stencil.Text.Ranges

namespace Stencil

/-- The ranges of characters without a column that are not extending. -/
def zeroRanges : List (Nat × Nat) :=
  [(0xAD, 0xAD), (0x34F, 0x34F), (0x605, 0x605), (0x61C, 0x61C), (0x70F, 0x70F), (0x890, 0x891),
   (0x8E2, 0x8E2), (0xCC0, 0xCC0), (0xCC7, 0xCC8), (0xCCA, 0xCCB), (0xD4E, 0xD4E),
   (0x1160, 0x11FF), (0x17B4, 0x17B5), (0x180B, 0x180F), (0x1B3B, 0x1B3B), (0x1B3D, 0x1B3D),
   (0x1B43, 0x1B43), (0x200B, 0x200F), (0x202A, 0x202E), (0x2060, 0x206F), (0x3164, 0x3164),
   (0xA8FA, 0xA8FA), (0xD7B0, 0xD7C6), (0xD7CB, 0xD7FB), (0xFE00, 0xFE0F), (0xFEFF, 0xFEFF),
   (0xFFA0, 0xFFA0), (0xFFF0, 0xFFF8), (0x111C2, 0x111C3), (0x113D1, 0x113D1),
   (0x1193F, 0x1193F), (0x11941, 0x11941), (0x11A84, 0x11A89), (0x11D46, 0x11D46),
   (0x11F02, 0x11F02), (0x1BCA0, 0x1BCA3), (0x1D173, 0x1D17A), (0xE0000, 0xE0FFF)]

/-- Whether `c` takes no column and is not extending. -/
def isZero (c : Char) : Bool := inRanges zeroRanges c

end Stencil
