/-
  Unicode — the letters that a source is read with when no others are given.

  The ASCII range is tested first; the tables hold the rest.
-/
import Stencil.Text.IdentPart
import Stencil.Text.IdentStart
import Stencil.Text.Letters

namespace Stencil

theorem isXidStart_of_isBlank {c : Char} (h : isBlank c = true) : isXidStart c = false := by
  unfold isXidStart
  split
  · have hnot := isAlphanum_of_isBlank h
    rw [Char.isAlphanum, Bool.or_eq_false_iff, Bool.or_eq_false_iff] at hnot
    exact hnot.1.1
  · exact inRanges_disjoint (by decide +kernel) h

theorem isXidContinue_of_isBlank {c : Char} (h : isBlank c = true) : isXidContinue c = false := by
  unfold isXidContinue
  split
  · exact isAlphanum_of_isBlank h
  · exact inRanges_disjoint (by decide +kernel) h

/-- The letters of the tables. -/
instance Letters.unicode : Letters where
  isStart := isXidStart
  isContinue := isXidContinue
  isStart_ascii _ h := if_pos h
  isContinue_ascii _ h := if_pos h
  isStart_blank _ := isXidStart_of_isBlank
  isContinue_blank _ := isXidContinue_of_isBlank

end Stencil
