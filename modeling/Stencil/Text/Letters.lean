/-
  Letters — the characters that names are made of.

  Which characters a name may begin with and which it may go on with are the properties XID_Start and
  XID_Continue of the Unicode standard.  Their tables grow from one version to the next, and a build
  without them knows the ASCII range only, so they are a parameter of everything that reads names.
  What is used of them holds in every version: what they are in the ASCII range, and that no white
  space is among them.
-/
import Stencil.Text.Blank

namespace Stencil

/-- The properties of characters that names depend on. -/
class Letters where
  /-- Whether a character is a letter of some script, or like one. -/
  isStart : Char → Bool
  /-- Whether a character goes on a name: a letter, a digit, a mark or a connector. -/
  isContinue : Char → Bool
  isStart_ascii : ∀ c : Char, c.toNat < 0x80 → isStart c = c.isAlpha
  isContinue_ascii : ∀ c : Char, c.toNat < 0x80 → isContinue c = (c.isAlphanum || c == '_')
  isStart_blank : ∀ c, isBlank c = true → isStart c = false
  isContinue_blank : ∀ c, isBlank c = true → isContinue c = false

/-- Whether a name may begin with `c`. -/
def isIdentStart [Letters] (c : Char) : Bool := c == '_' || Letters.isStart c

/-- Whether a name may go on with `c`. -/
def isIdentPart [Letters] (c : Char) : Bool := Letters.isContinue c

/-! ## The ASCII range -/

theorem toNat_of_isDigit {c : Char} (h : c.isDigit = true) : 48 ≤ c.toNat ∧ c.toNat ≤ 57 :=
  Char.isDigit_iff_toNat.1 h

theorem toNat_of_isAlpha {c : Char} (h : c.isAlpha = true) : 65 ≤ c.toNat := by
  have hcases : (decide ('A'.val ≤ c.val ∧ c.val ≤ 'Z'.val) ||
      decide ('a'.val ≤ c.val) && decide (c.val ≤ 'z'.val)) = true := h
  rw [Bool.or_eq_true, Bool.and_eq_true, decide_eq_true_eq, decide_eq_true_eq] at hcases
  rcases hcases with hupper | hlower
  · exact UInt32.le_iff_toNat_le.1 hupper.1
  · exact Nat.le_trans (by decide) (UInt32.le_iff_toNat_le.1 hlower.1)

theorem toNat_of_isAlphanum {c : Char} (h : c.isAlphanum = true) : c.toNat < 0x80 := by
  have hcases : (decide ('A'.val ≤ c.val ∧ c.val ≤ 'Z'.val) ||
      decide ('a'.val ≤ c.val) && decide (c.val ≤ 'z'.val) ||
      decide ('0'.val ≤ c.val) && decide (c.val ≤ '9'.val)) = true := h
  simp only [Bool.or_eq_true, Bool.and_eq_true, decide_eq_true_eq] at hcases
  rcases hcases with (h | h) | h <;>
    exact Nat.lt_of_le_of_lt (UInt32.le_iff_toNat_le.1 h.2) (by decide)

theorem isBlank_of_isDigit {c : Char} (h : c.isDigit = true) : isBlank c = false := by
  rw [Bool.eq_false_iff]
  intro hblank
  have := toNat_of_isDigit h
  have := toNat_of_isBlank hblank
  omega

theorem isIdentStart_of_ascii [Letters] {c : Char} (h : c.toNat < 0x80) :
    isIdentStart c = (c == '_' || c.isAlpha) := by
  rw [isIdentStart, Letters.isStart_ascii c h]

theorem isIdentPart_of_ascii [Letters] {c : Char} (h : c.toNat < 0x80) :
    isIdentPart c = (c.isAlphanum || c == '_') :=
  Letters.isContinue_ascii c h

theorem isIdentStart_of_isAlpha [Letters] {c : Char} (h : c.isAlpha = true) : isIdentStart c = true := by
  have hascii := toNat_of_isAlphanum (c := c) (by rw [Char.isAlphanum, h, Bool.true_or])
  rw [isIdentStart_of_ascii hascii, h, Bool.or_true]

theorem isIdentPart_of_isAlphanum [Letters] {c : Char} (h : c.isAlphanum = true) : isIdentPart c = true := by
  rw [isIdentPart_of_ascii (toNat_of_isAlphanum h), h, Bool.true_or]

theorem toNat_of_isIdentStart [Letters] {c : Char} (h : isIdentStart c = true) : 65 ≤ c.toNat := by
  rcases Nat.lt_or_ge c.toNat 0x80 with hascii | hhigh
  · rw [isIdentStart_of_ascii hascii, Bool.or_eq_true, beq_iff_eq] at h
    rcases h with rfl | halpha
    · decide
    · exact toNat_of_isAlpha halpha
  · omega

theorem isDigit_of_isIdentStart [Letters] {c : Char} (h : isIdentStart c = true) : c.isDigit = false := by
  rw [Bool.eq_false_iff]
  intro hdigit
  have := toNat_of_isIdentStart h
  have := toNat_of_isDigit hdigit
  omega

/-- Whether `c` is a character of the ASCII range that no name contains. -/
def isDivider (c : Char) : Bool := decide (c.toNat < 0x80) && !(c.isAlphanum || c == '_')

theorem isIdentPart_of_isDivider [Letters] {c : Char} (h : isDivider c = true) : isIdentPart c = false := by
  rw [isDivider, Bool.and_eq_true, decide_eq_true_eq, Bool.not_eq_true'] at h
  rw [isIdentPart_of_ascii h.1]
  exact h.2

theorem isIdentStart_of_isDivider [Letters] {c : Char} (h : isDivider c = true) : isIdentStart c = false := by
  rw [isDivider, Bool.and_eq_true, decide_eq_true_eq, Bool.not_eq_true', Char.isAlphanum,
    Bool.or_eq_false_iff, Bool.or_eq_false_iff] at h
  rw [isIdentStart_of_ascii h.1, h.2.2, h.2.1.1]
  rfl

/-- Among dividers other than an exclamation mark, nothing goes on a word and nothing marks a macro. -/
theorem isIdentPart_of_mem [Letters] {cs : List Char} (h : cs.all (fun c => isDivider c && c != '!') = true)
    {c : Char} (hc : c ∈ cs) : isIdentPart c = false ∧ c ≠ '!' := by
  have hboth := List.all_eq_true.1 h c hc
  rw [Bool.and_eq_true, bne_iff_ne] at hboth
  exact ⟨isIdentPart_of_isDivider hboth.1, hboth.2⟩

theorem isDigit_of_isDivider {c : Char} (h : isDivider c = true) : c.isDigit = false := by
  rw [isDivider, Bool.and_eq_true, Bool.not_eq_true', Char.isAlphanum, Bool.or_eq_false_iff,
    Bool.or_eq_false_iff] at h
  exact h.2.1.2

/-! ## White space -/

/-- No letter, digit or underscore is white space. -/
theorem isAlphanum_of_isBlank {c : Char} (h : isBlank c = true) : (c.isAlphanum || c == '_') = false := by
  have hlow := toNat_of_isBlank h
  rw [Bool.eq_false_iff]
  intro hpart
  rw [Char.isAlphanum, Bool.or_eq_true, Bool.or_eq_true, beq_iff_eq] at hpart
  rcases hpart with (halpha | hdigit) | rfl
  · have := toNat_of_isAlpha halpha
    have := toNat_of_isAlphanum (c := c) (by rw [Char.isAlphanum, halpha, Bool.true_or])
    omega
  · have := toNat_of_isDigit hdigit
    omega
  · revert h
    decide

/-- No name begins with a blank. -/
theorem isBlank_of_isIdentStart [Letters] {c : Char} (h : isIdentStart c = true) : isBlank c = false := by
  rw [Bool.eq_false_iff]
  intro hblank
  rw [isIdentStart, Letters.isStart_blank c hblank, Bool.or_false, beq_iff_eq] at h
  subst h
  revert hblank
  decide

/-- No name goes on with a blank. -/
theorem isIdentPart_of_isBlank [Letters] {c : Char} (h : isBlank c = true) : isIdentPart c = false :=
  Letters.isContinue_blank c h

theorem isBlank_of_isIdentPart [Letters] {c : Char} (h : isIdentPart c = true) : isBlank c = false := by
  rw [Bool.eq_false_iff]
  intro hblank
  rw [isIdentPart_of_isBlank hblank] at h
  cases h

end Stencil
