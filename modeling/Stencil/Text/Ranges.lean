/-
  Ranges — sets of characters given as a table of code point ranges.

  The character classes of the template language are properties of the Unicode standard; each is
  a table of inclusive ranges `(lo, hi)`, in ascending order.
-/

namespace Stencil

/-- Whether the code point of `c` lies in one of the inclusive ranges of `table`. -/
def inRanges (table : List (Nat × Nat)) (c : Char) : Bool :=
  table.any fun r => decide (r.1 ≤ c.toNat) && decide (c.toNat ≤ r.2)

theorem inRanges_eq_true_iff {table : List (Nat × Nat)} {c : Char} :
    inRanges table c = true ↔ ∃ r ∈ table, r.1 ≤ c.toNat ∧ c.toNat ≤ r.2 := by
  simp [inRanges]

/-- Two tables without a common code point have no common character. -/
theorem inRanges_disjoint {s t : List (Nat × Nat)} {c : Char}
    (h : ∀ a ∈ s, ∀ b ∈ t, a.2 < b.1 ∨ b.2 < a.1) (hs : inRanges s c = true) :
    inRanges t c = false := by
  rw [Bool.eq_false_iff]
  intro ht
  obtain ⟨a, ha, hlo, hhi⟩ := inRanges_eq_true_iff.1 hs
  obtain ⟨b, hb, hlo', hhi'⟩ := inRanges_eq_true_iff.1 ht
  have := h a ha b hb
  omega

end Stencil
