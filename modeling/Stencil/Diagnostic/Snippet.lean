/-
  Snippet — a diagnostic shown against its source.

  The line of the source where the fault begins is shown with its number; below it the faulty part
  of that line is underlined, and the wording follows.  The underline is at least one caret wide and
  does not go beyond the line.  A place that does not fit the source has no snippet.

  The underline is set flush right in a field that ends with the faulty part, and the width of a field
  has sixteen bits.  So a fault too far to the right in its line has no snippet either.
-/
import Stencil.Diagnostic
import Stencil.Text.Bytes
import Stencil.Text.Width

namespace Stencil

/-- The part of a source that a snippet shows. -/
structure Excerpt where
  /-- The number of the line, counted from one. -/
  number : Nat
  /-- The line, without the carriage returns at its end. -/
  line : List Char
  /-- The part of the line before the fault. -/
  before : List Char
  /-- The faulty part. -/
  marked : List Char

/-- The last line of a text that may end within a line. -/
def lastLine (cs : List Char) : List Char := (cs.reverse.takeWhile (· ≠ '\n')).reverse

/-- The text without the carriage returns at its end. -/
def dropReturns (cs : List Char) : List Char := (cs.reverse.dropWhile (· = '\r')).reverse

/-- The excerpt of `source` for a span, if the span fits the source. -/
def Excerpt.of? (source : List Char) (span : Span) : Option Excerpt := do
  let (front, back) ← splitAtByte? span.start source
  let before := lastLine front
  let line := dropReturns (before ++ back.takeWhile (· ≠ '\n'))
  let lineEnd := span.start - byteLen before + byteLen line
  let (marked, _) ← splitAtByte? (min span.stop lineEnd - span.start) back
  some ⟨front.count '\n' + 1, line, before, marked⟩

/-- How many columns texts take when they are shown. -/
structure Columns where
  of : List Char → Nat
  nil : of [] = 0

/-- The columns of a terminal. -/
def Columns.standard : Columns := ⟨Width.columns, rfl⟩

/-- The character `n` times. -/
def rowOf (c : Char) (n : Nat) : String := String.ofList (List.replicate n c)

/-- The width of the widest field. -/
def widestField : Nat := 0xFFFF

/-- The text flush right in a field, unless the field is too wide. -/
def flushRight? (width : Nat) (text : String) : Option String :=
  if width ≤ widestField then some (rowOf ' ' (width - text.length) ++ text) else none

/-- The excerpt with the wording below it, unless the underline goes too far to the right. -/
def Excerpt.render? (columns : Columns) (x : Excerpt) (message : String) : Option String := do
  let number := x.number.repr
  let margin := rowOf ' ' number.length
  let carets := max 1 (columns.of x.marked)
  let underline ← flushRight? (columns.of x.before + carets) (rowOf '^' carets)
  return "\n " ++ margin ++ " |\n " ++ number ++ " | " ++ String.ofList x.line ++ "\n " ++ margin
    ++ " | " ++ underline ++ " " ++ message ++ "\n"

namespace Diagnostic

section

variable (columns : Columns) (d : Diagnostic) (source : String)

/-- The diagnostic shown against a source, as it is shown where texts take the given columns. -/
def snippetIn? : Option String := do
  (← Excerpt.of? source.toList d.span).render? columns d.message

/-- The long form: a snippet, or the one-line form when there is no source to show. -/
def prettyIn? : Option String :=
  if source.isEmpty then some d.plain else d.snippetIn? columns source

end

/-- The diagnostic shown against a source. -/
def snippet? (d : Diagnostic) (source : String) : Option String := d.snippetIn? .standard source

/-- The long form, as it is shown on a terminal. -/
def pretty? (d : Diagnostic) (source : String) : Option String := d.prettyIn? .standard source

end Diagnostic

end Stencil
