/-
  Search — finding delimiters in a text.

  An opening delimiter is matched leftmost and longest: at one place the longest configured
  delimiter wins, and of two equally long ones the later of expression, block, comment.  A modifier
  directly after it belongs to it.  A closing delimiter may carry a modifier directly before it, and
  that reading is tried first.

  `findOpening` walks a text to the next opening delimiter; it asks for a match only at characters
  that some delimiter begins with, which changes its speed and not its answer.
-/
import Stencil.Delims
import Stencil.Trim

namespace Stencil

/-- An opening delimiter as it stands in a text. -/
structure Opening where
  kind : DelimKind
  delim : Delim
  trim : Option Trim
  deriving DecidableEq

/-- The number of characters, with the modifier. -/
def Opening.size (o : Opening) : Nat := o.delim.length + Trim.width o.trim

/-- A closing delimiter as it stands in a text. -/
structure Closing where
  delim : Delim
  trim : Option Trim
  deriving DecidableEq

/-- The number of characters, with the modifier. -/
def Closing.size (c : Closing) : Nat := c.delim.length + Trim.width c.trim

theorem Opening.size_pos (o : Opening) : 0 < o.size := by
  have := o.delim.length_pos
  unfold Opening.size
  omega

theorem Closing.size_pos (c : Closing) : 0 < c.size := by
  have := c.delim.length_pos
  unfold Closing.size
  omega

/-- The closing delimiter of a pair at the start of `cs`, with the modifier before it if any. -/
def DelimPair.closingAt (p : DelimPair) (cs : List Char) : Option Closing :=
  let plain := if p.closing.startsAt cs then some ⟨p.closing, none⟩ else none
  match Trim.ofHead? cs with
  | some t => if p.closing.startsAt cs.tail then some ⟨p.closing, some t⟩ else plain
  | none => plain

namespace Delims

/-- The configured opening delimiters, in the order expression, block, comment. -/
def openings (d : Delims) : List (DelimKind × Delim) :=
  [DelimKind.tag .expr, DelimKind.tag .block, DelimKind.comment].filterMap fun k =>
    (d.pair k).map fun p => (k, p.opening)

/-- The longer of two candidates; the second when they are equally long. -/
def longer (best : Option (DelimKind × Delim)) (next : DelimKind × Delim) :
    Option (DelimKind × Delim) :=
  match best with
  | none => some next
  | some b => if b.2.length ≤ next.2.length then some next else some b

/-- The longest opening delimiter that `cs` starts with. -/
def longestAt (d : Delims) (cs : List Char) : Option (DelimKind × Delim) :=
  (d.openings.filter fun o => o.2.startsAt cs).foldl longer none

/-- The opening delimiter at the start of `cs`, with the modifier after it if any. -/
def openingAt (d : Delims) (cs : List Char) : Option Opening :=
  (d.longestAt cs).map fun (kind, delim) =>
    ⟨kind, delim, Trim.ofHead? (cs.drop delim.length)⟩

/-- The closing delimiter of a tag of kind `kind` at the start of `cs`. -/
def closingAt (d : Delims) (kind : TagKind) (cs : List Char) : Option Closing :=
  (d.pair (.tag kind)).bind fun p => p.closingAt cs

/-- Whether some opening delimiter begins with `c`. -/
def mayOpen (d : Delims) (c : Char) : Bool := d.openings.any fun o => o.2.head == c

/-- The next opening delimiter in `cs` and the number of characters before it. -/
def findOpening (d : Delims) : List Char → Option (Nat × Opening)
  | [] => none
  | c :: cs =>
    let later := fun (_ : Unit) => (findOpening d cs).map fun (n, o) => (n + 1, o)
    if d.mayOpen c then
      match d.openingAt (c :: cs) with
      | some o => some (0, o)
      | none => later ()
    else later ()

/-- The number of characters before the next opening delimiter, or to the end of `cs`. -/
def contentLength (d : Delims) (cs : List Char) : Nat :=
  match d.findOpening cs with
  | some (n, _) => n
  | none => cs.length

/-- No delimiter matches where none can begin. -/
theorem openingAt_eq_none_of_mayOpen {d : Delims} {c : Char} {cs : List Char}
    (h : d.mayOpen c = false) : d.openingAt (c :: cs) = none := by
  have hfilter : d.openings.filter (fun o => o.2.startsAt (c :: cs)) = [] := by
    rw [List.filter_eq_nil_iff]
    intro o ho hs
    have hne : (o.2.head == c) = false := by
      simp only [mayOpen, List.any_eq_false] at h
      simpa using h o ho
    simp [Delim.startsAt, Delim.text, List.isPrefixOf, hne] at hs
  simp [openingAt, longestAt, hfilter]

end Delims

end Stencil
