/-
  Nesting — the way of the scanner through a comment, and the modifiers at its ends.

  The scanner for comments counts: an opening delimiter is one comment more, a closing one is one less,
  and any other character is passed over.  `p.Gets inside used outer cs` says that in this way it gets
  from the beginning of a comment's inside to a place with the characters `used` behind it, `outer` nested
  comments open around it and the text `cs` ahead.  A comment ends where the scanner has come to a closing
  delimiter with no nested comment open (`exists_end_of_commentEnd`).

  The scanner finds the modifier of that delimiter on its way, while the template records the character
  that stands before the delimiter.  The crux is how the scanner can have come to the delimiter without
  taking that character for its modifier (`Gets.cases_before`): it passed it over, and then it is none; or
  it is the end of the closing delimiter of a nested comment.  Only the latter makes a difference, and it
  takes a closing delimiter that ends in the character of a modifier.
-/
import Stencil.Parse
import Stencil.Proofs.Part.Scan

namespace Stencil

namespace DelimPair

variable {p : DelimPair} {outer n : Nat} {c : Char} {cs rest inside used : List Char} {t : Option Trim}
  {close : Closing}

/-! ## The scanner step by step -/

theorem commentEnd_nil : p.commentEnd outer [] = none := by
  rw [commentEnd]

theorem commentEnd_of_opening (h : p.opening.startsAt cs = true) : p.commentEnd outer cs =
    (p.commentEnd (outer + 1) (cs.drop p.opening.length)).map
      fun (n, t) => (n + p.opening.length, t) := by
  cases cs with
  | nil =>
    rw [Delim.not_startsAt_nil] at h
    cases h
  | cons c cs =>
    rw [commentEnd, if_pos h]
    rfl

theorem commentEnd_of_last (ho : p.opening.startsAt cs = false) (hc : p.closingAt cs = some close) :
    p.commentEnd 0 cs = some (close.size, close.trim) := by
  cases cs with
  | nil => cases hc
  | cons c cs =>
    rw [commentEnd, if_neg (Bool.eq_false_iff.1 ho), hc]

theorem commentEnd_of_closing (ho : p.opening.startsAt cs = false)
    (hc : p.closingAt cs = some close) : p.commentEnd (outer + 1) cs =
      (p.commentEnd outer (cs.drop close.size)).map fun (n, t) => (n + close.size, t) := by
  cases cs with
  | nil => cases hc
  | cons c cs =>
    rw [commentEnd, if_neg (Bool.eq_false_iff.1 ho), hc]

theorem commentEnd_of_other (ho : p.opening.startsAt (c :: cs) = false)
    (hc : p.closingAt (c :: cs) = none) : p.commentEnd outer (c :: cs) =
      (p.commentEnd outer cs).map fun (n, t) => (n + 1, t) := by
  rw [commentEnd, if_neg (Bool.eq_false_iff.1 ho), hc]

theorem length_of_closing (hc : p.closingAt cs = some close) : close.size ≤ cs.length := by
  obtain ⟨htext, hdelim⟩ := closing_text hc
  have hlength := congrArg List.length htext
  rw [List.length_take, List.length_append, Trim.length_text, Delim.length_text, ← hdelim] at hlength
  unfold Closing.size at hlength ⊢
  omega

/-! ## The way through a comment -/

/-- From the beginning of the inside of a comment the scanner gets to a place with the characters `used`
    behind it, `outer` nested comments open around it and the text `cs` ahead. -/
inductive Gets (p : DelimPair) (inside : List Char) : List Char → Nat → List Char → Prop
  | start : Gets p inside [] 0 inside
  | opening {used cs : List Char} {outer : Nat} (h : Gets p inside used outer cs)
      (ho : p.opening.startsAt cs = true) :
      Gets p inside (used ++ p.opening.text) (outer + 1) (cs.drop p.opening.length)
  | closing {used cs : List Char} {outer : Nat} {close : Closing}
      (h : Gets p inside used (outer + 1) cs) (ho : p.opening.startsAt cs = false)
      (hc : p.closingAt cs = some close) :
      Gets p inside (used ++ cs.take close.size) outer (cs.drop close.size)
  | other {used cs : List Char} {outer : Nat} {c : Char} (h : Gets p inside used outer (c :: cs))
      (ho : p.opening.startsAt (c :: cs) = false) (hc : p.closingAt (c :: cs) = none) :
      Gets p inside (used ++ [c]) outer cs

theorem Gets.text (h : p.Gets inside used outer cs) : inside = used ++ cs := by
  induction h with
  | start => rfl
  | @opening used cs outer h ho ih =>
    have htake := take_length_of_isPrefix (Delim.startsAt_iff.1 ho)
    rw [Delim.length_text] at htake
    rw [ih, List.append_assoc, ← htake, List.take_append_drop]
  | closing h ho hc ih => rw [ih, List.append_assoc, List.take_append_drop]
  | other h ho hc ih => rw [ih, List.append_assoc, List.singleton_append]

/-- A comment ends at a place that the scanner gets to with no nested comment open, with the closing
    delimiter there. -/
theorem Gets.exists_end (h : p.Gets inside used outer cs) (hend : p.commentEnd outer cs = some (n, t)) :
    ∃ used' rest close, p.Gets inside used' 0 rest ∧ p.opening.startsAt rest = false ∧
      p.closingAt rest = some close ∧ used'.length + close.size = used.length + n ∧
      t = close.trim := by
  -- Each way in which the scan goes on is one more step of `Gets`, over a shorter rest.
  induction hn : cs.length using Nat.strongRecOn generalizing used outer cs n t with
  | ind k ih =>
    cases cs with
    | nil =>
      rw [commentEnd_nil] at hend
      cases hend
    | cons c cs =>
      cases ho : p.opening.startsAt (c :: cs) with
      | true =>
        rw [commentEnd_of_opening ho] at hend
        obtain ⟨⟨n', t'⟩, hmore, heq⟩ := Option.map_eq_some_iff.1 hend
        cases heq
        have hpos := p.opening.length_pos
        have hlen : ((c :: cs).drop p.opening.length).length < k := by
          rw [← hn, List.length_drop, List.length_cons]
          omega
        obtain ⟨used', rest, close, hgets, hopen, hclose, hlength, htrim⟩ :=
          ih _ hlen (h.opening ho) hmore rfl
        refine ⟨used', rest, close, hgets, hopen, hclose, ?_, htrim⟩
        rw [List.length_append, Delim.length_text] at hlength
        omega
      | false =>
        cases hc : p.closingAt (c :: cs) with
        | some close =>
          cases outer with
          | zero =>
            rw [commentEnd_of_last ho hc] at hend
            cases hend
            exact ⟨used, c :: cs, close, h, ho, hc, rfl, rfl⟩
          | succ outer =>
            rw [commentEnd_of_closing ho hc] at hend
            obtain ⟨⟨n', t'⟩, hmore, heq⟩ := Option.map_eq_some_iff.1 hend
            cases heq
            have hpos := close.size_pos
            have hle := length_of_closing hc
            have hlen : ((c :: cs).drop close.size).length < k := by
              rw [← hn, List.length_drop, List.length_cons]
              omega
            obtain ⟨used', rest, close', hgets, hopen, hclose, hlength, htrim⟩ :=
              ih _ hlen (h.closing ho hc) hmore rfl
            refine ⟨used', rest, close', hgets, hopen, hclose, ?_, htrim⟩
            rw [List.length_append, List.length_take_of_le hle] at hlength
            omega
        | none =>
          rw [commentEnd_of_other ho hc] at hend
          obtain ⟨⟨n', t'⟩, hmore, heq⟩ := Option.map_eq_some_iff.1 hend
          cases heq
          have hlen : cs.length < k := by
            rw [← hn]
            exact Nat.lt_succ_self _
          obtain ⟨used', rest, close, hgets, hopen, hclose, hlength, htrim⟩ :=
            ih _ hlen (h.other ho hc) hmore rfl
          refine ⟨used', rest, close, hgets, hopen, hclose, ?_, htrim⟩
          rw [List.length_append, List.length_singleton] at hlength
          omega

/-! ## Before the closing delimiter -/

/-- The characters `used` of a comment's inside end with a nested comment. -/
def EndsNested (p : DelimPair) (inside used : List Char) : Prop :=
  ∃ used' rest close, p.Gets inside used' 1 rest ∧ p.opening.startsAt rest = false ∧
    p.closingAt rest = some close ∧ used = used' ++ rest.take close.size

/-- The closing delimiter of a nested comment ends with the last character of a closing delimiter. -/
theorem EndsNested.getLast? (h : p.EndsNested inside used) :
    used.getLast? = p.closing.text.getLast? := by
  obtain ⟨used', rest, close, -, -, hc, rfl⟩ := h
  rw [(closing_text hc).1, ← List.append_assoc, List.getLast?_append]
  cases h : p.closing.text.getLast? with
  | none => exact absurd (List.getLast?_eq_none_iff.1 h) (List.cons_ne_nil _ _)
  | some c => rfl

/-- Where a closing delimiter has no modifier, no modifier stands before it either, unless a nested
    comment ends there. -/
theorem Gets.cases_before (h : p.Gets inside used 0 cs) (hc : p.closingAt cs = some close)
    (hnone : close.trim = none) :
    used.getLast?.bind Trim.ofChar? = none ∨ p.EndsNested inside used := by
  cases h with
  | start => exact .inl rfl
  | @closing used' rest _ close' h ho hc' => exact .inr ⟨used', rest, close', h, ho, hc', rfl⟩
  | @other used' _ _ c h ho hc' =>
    left
    rw [List.getLast?_concat, Option.bind_some]
    -- With a modifier before it, the closing delimiter would have been found one character earlier.
    cases htrim : Trim.ofChar? c with
    | none => rfl
    | some t =>
      have hstarts : p.closing.startsAt cs = true := by
        have htext := (closing_text hc).1
        rw [hnone] at htext
        rw [Delim.startsAt_iff, show p.closing.text = cs.take close.size from htext.symm]
        exact List.take_prefix _ _
      unfold closingAt at hc'
      simp only [Trim.ofHead?, List.head?_cons, Option.bind_some, htrim, List.tail_cons, hstarts,
        if_true] at hc'
      cases hc'

end DelimPair

end Stencil
