/-
  Text — cutting a text at byte offsets, where a cut may fail.

  The reader of a template walks over lists of characters, and no cut it makes can go wrong.  A program
  that keeps byte offsets into one source cuts it by these offsets instead, and an offset may lie past the
  end or inside a character.  The modules under `Checked` write the reader down as such a program.  Each of
  its steps gives `none` where a cut is not possible, where a difference would go below zero, and where it
  meets what must not occur; what they prove is that the program never gives `none`, and gives what the
  reader gives.

  `At source i rest` ties the two together: `rest` is what stands in the source from byte `i` on.  Each
  function of the program is treated by one lemma that starts from `At` for the offsets it is given.
-/
import Stencil.Proofs.Part.Scan

namespace Stencil.Checked

/-- The text from byte `i` on, if it does not begin inside a character. -/
def from? (i : Nat) (cs : List Char) : Option (List Char) := (splitAtByte? i cs).map (·.2)

/-- A difference that must not go below zero. -/
def sub? (a b : Nat) : Option Nat := if b ≤ a then some (a - b) else none

/-- The number of bytes of the first character, or one if there is none. -/
def firstSize (cs : List Char) : Nat := cs.head?.elim 1 Char.utf8Size

/-- `rest` is what stands in the source from byte `i` on. -/
def At (source : List Char) (i : Nat) (rest : List Char) : Prop :=
  ∃ front, source = front ++ rest ∧ i = byteLen front

variable {source rest a b : List Char} {i : Nat} {c : Char}

theorem sub?_of_le {m n : Nat} (h : n ≤ m) : sub? m n = some (m - n) := if_pos h

theorem sub?_add (m n : Nat) : sub? (m + n) n = some m := by
  rw [sub?_of_le (Nat.le_add_left n m), Nat.add_sub_cancel]

namespace At

theorem start (source : List Char) : At source 0 source := ⟨[], rfl, rfl⟩

theorem from? (h : At source i rest) : from? i source = some rest := by
  obtain ⟨front, rfl, rfl⟩ := h
  rw [Checked.from?, splitAtByte?_append]
  rfl

theorem append (h : At source i (a ++ b)) : At source (i + byteLen a) b := by
  obtain ⟨front, rfl, rfl⟩ := h
  exact ⟨front ++ a, (List.append_assoc _ _ _).symm, (byteLen_append _ _).symm⟩

theorem cons (h : At source i (c :: rest)) : At source (i + c.utf8Size) rest :=
  append (a := [c]) h

theorem drop (h : At source i rest) (n : Nat) :
    At source (i + byteLen (rest.take n)) (rest.drop n) := by
  rw [← List.take_append_drop n rest] at h
  exact h.append

theorem dropWhile (h : At source i rest) (p : Char → Bool) :
    At source (i + byteLen (rest.takeWhile p)) (rest.dropWhile p) := by
  rw [← List.takeWhile_append_dropWhile (p := p) (l := rest)] at h
  exact h.append

theorem slice (h : At source i (a ++ b)) {j : Nat} (hj : j = i + byteLen a) :
    slice? ⟨i, j⟩ source = some a := by
  obtain ⟨front, rfl, rfl⟩ := h
  rw [hj]
  exact slice?_append front a b

theorem slice_take (h : At source i rest) (n : Nat) :
    slice? ⟨i, i + byteLen (rest.take n)⟩ source = some (rest.take n) := by
  rw [← List.take_append_drop n rest] at h
  exact h.slice rfl

theorem slice_takeWhile (h : At source i rest) (p : Char → Bool) :
    slice? ⟨i, i + byteLen (rest.takeWhile p)⟩ source = some (rest.takeWhile p) := by
  rw [← List.takeWhile_append_dropWhile (p := p) (l := rest)] at h
  exact h.slice rfl

theorem byteLen (h : At source i rest) : byteLen source = i + byteLen rest := by
  obtain ⟨front, rfl, rfl⟩ := h
  exact byteLen_append _ _

/-- No cut is possible inside a character. -/
theorem inside (h : At source i (c :: rest)) {k : Nat} (hpos : 0 < k) (hlt : k < c.utf8Size) :
    Checked.from? (i + k) source = none := by
  rw [Checked.from?, Option.map_eq_none_iff]
  by_contra hne
  obtain ⟨⟨front', back⟩, hcut⟩ := Option.ne_none_iff_exists'.1 hne
  obtain ⟨hsource, hlen⟩ := splitAtByte?_eq_some hcut
  obtain ⟨front, rfl, rfl⟩ := h
  -- The cut would lie behind `front`, but not behind the character after it.
  obtain ⟨m, hm, hback⟩ := append_eq_append_of_byteLen hsource.symm (by omega)
  rw [hm, byteLen_append] at hlen
  cases m with
  | nil =>
    rw [byteLen_nil] at hlen
    omega
  | cons c' m =>
    cases hback
    rw [byteLen_cons] at hlen
    omega

end At

/-- A text that is found at an offset stands there. -/
theorem at_of_from? (h : from? i source = some rest) : At source i rest := by
  obtain ⟨⟨front, back⟩, hcut, rfl⟩ := Option.map_eq_some_iff.1 h
  obtain ⟨hsource, hlen⟩ := splitAtByte?_eq_some hcut
  exact ⟨front, hsource.symm, hlen.symm⟩

end Stencil.Checked
