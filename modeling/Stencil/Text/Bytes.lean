/-
  Bytes — offsets into a text, counted in its UTF-8 form.

  The library reads a text as a list of characters, so that recursion follows the reading, while
  every offset it reports counts bytes.  `byteLen` is the bridge.  `splitAtByte?` cuts a text at an
  offset and refuses offsets past the end or inside a character; `slice?` is two such cuts.
-/
import Stencil.Span

namespace Stencil

/-- The number of bytes that `cs` takes. -/
def byteLen : List Char → Nat
  | [] => 0
  | c :: cs => c.utf8Size + byteLen cs

@[simp] theorem byteLen_nil : byteLen [] = 0 := rfl

@[simp] theorem byteLen_cons (c : Char) (cs : List Char) :
    byteLen (c :: cs) = c.utf8Size + byteLen cs := rfl

@[simp] theorem byteLen_append (a b : List Char) : byteLen (a ++ b) = byteLen a + byteLen b := by
  induction a with
  | nil => simp
  | cons c a ih => simp [ih, Nat.add_assoc]

/-- A text of single bytes takes as many bytes as it has characters. -/
theorem byteLen_eq_length {cs : List Char} (h : ∀ c ∈ cs, c.utf8Size = 1) :
    byteLen cs = cs.length := by
  induction cs with
  | nil => rfl
  | cons c cs ih =>
    obtain ⟨hc, hcs⟩ := List.forall_mem_cons.1 h
    rw [byteLen_cons, hc, ih hcs, List.length_cons, Nat.add_comm]

/-- Cuts `cs` after `n` bytes, if a character ends there. -/
def splitAtByte? (n : Nat) : List Char → Option (List Char × List Char)
  | [] => if n = 0 then some ([], []) else none
  | c :: cs =>
    if n = 0 then some ([], c :: cs)
    else if c.utf8Size ≤ n then
      (splitAtByte? (n - c.utf8Size) cs).map fun (front, back) => (c :: front, back)
    else none

/-- A cut loses nothing and falls where it was asked for. -/
theorem splitAtByte?_eq_some {n : Nat} {cs front back : List Char}
    (h : splitAtByte? n cs = some (front, back)) : front ++ back = cs ∧ byteLen front = n := by
  induction cs generalizing n front with
  | nil =>
    unfold splitAtByte? at h
    split at h
    · next hn => cases h; simp [hn]
    · cases h
  | cons c cs ih =>
    unfold splitAtByte? at h
    split at h
    · next hn => cases h; simp [hn]
    · split at h
      · next hc =>
        obtain ⟨⟨f, b⟩, hfb, heq⟩ := Option.map_eq_some_iff.1 h
        cases heq
        have := ih hfb
        simp [this.1, this.2]
        omega
      · cases h

/-- The end of a text is a place to cut it. -/
theorem splitAtByte?_append (front back : List Char) :
    splitAtByte? (byteLen front) (front ++ back) = some (front, back) := by
  induction front with
  | nil => cases back <;> rfl
  | cons c front ih =>
    have hpos : c.utf8Size ≠ 0 := Nat.ne_of_gt c.utf8Size_pos
    rw [List.cons_append, splitAtByte?, byteLen_cons,
      if_neg (show ¬ c.utf8Size + byteLen front = 0 by omega),
      if_pos (show c.utf8Size ≤ c.utf8Size + byteLen front by omega), Nat.add_sub_cancel_left, ih]
    rfl

/-- The text under a span, if both ends fall between characters and in order. -/
def slice? (s : Span) (cs : List Char) : Option (List Char) :=
  if s.start ≤ s.stop then do
    let (_, back) ← splitAtByte? s.start cs
    let (mid, _) ← splitAtByte? (s.stop - s.start) back
    some mid
  else none

/-- The middle of a text is what stands under its span. -/
theorem slice?_append (front mid back : List Char) :
    slice? ⟨byteLen front, byteLen front + byteLen mid⟩ (front ++ (mid ++ back)) = some mid := by
  have hle : byteLen front ≤ byteLen front + byteLen mid := Nat.le_add_right _ _
  rw [slice?, if_pos hle, splitAtByte?_append]
  simp only [Option.bind_eq_bind, Option.bind_some, Nat.add_sub_cancel_left, splitAtByte?_append]

end Stencil
