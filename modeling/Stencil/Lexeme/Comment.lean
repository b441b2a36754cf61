/-
  Comment — nested comments.

  A comment ends where its nesting returns to zero: every further opening delimiter inside it needs
  a closing one of its own.  The modifiers of a comment are read from its text alone: the one after
  the opening delimiter, and the character before the closing delimiter, unless that character
  already belongs to the opening one.
-/
import Stencil.Delims.Search

namespace Stencil

/-- Reads the inside of a comment with `outer` comments open around it: the number of characters up
    to and with the closing delimiter of the outermost one, and the modifier found on it. -/
def DelimPair.commentEnd (p : DelimPair) (outer : Nat) (cs : List Char) :
    Option (Nat × Option Trim) :=
  match cs with
  | [] => none
  | c :: rest =>
    if p.opening.startsAt (c :: rest) then
      (p.commentEnd (outer + 1) (rest.drop p.opening.tail.length)).map fun (n, t) =>
        (n + p.opening.length, t)
    else
      match p.closingAt (c :: rest) with
      | some close =>
        match outer with
        | 0 => some (close.size, close.trim)
        | outer + 1 =>
          (p.commentEnd outer ((c :: rest).drop close.size)).map fun (n, t) => (n + close.size, t)
      | none => (p.commentEnd outer rest).map fun (n, t) => (n + 1, t)
termination_by cs.length
decreasing_by
  · simp only [List.length_drop, List.length_cons]; omega
  · have := close.size_pos
    simp only [List.length_drop, List.length_cons]; omega
  · simp

namespace Delims

/-- The number of characters that a comment goes on with after its opening delimiter; nothing if it
    is never closed. -/
def commentMore (d : Delims) (cs : List Char) : Option Nat :=
  d.comment.bind fun p => (p.commentEnd 0 cs).map (·.1)

/-- The modifier on the closing delimiter of a complete comment, read from its text. -/
def commentClosing (d : Delims) (text : List Char) : Option Trim := do
  let p ← d.comment
  let o ← d.openingAt text
  let inner := (text.take (text.length - p.closing.length)).drop o.size
  inner.getLast?.bind Trim.ofChar?

/-- The modifiers of a comment, read from its text. -/
def commentTrims (d : Delims) (text : List Char) (closed : Bool) : Trims :=
  { opening := (d.openingAt text).bind (·.trim)
    closing := if closed then d.commentClosing text else none }

end Delims

end Stencil
