/-
  Width — how many columns a text takes when it is shown.

  A character takes one column, two if it is wide, none if it only modifies its neighbour; a
  control counts one.  Some sequences count as a whole: an emoji with its selector, its skin tone or
  joined to others takes two columns, and a few letters melt into the one before them.  Which
  sequence a character belongs to shows from what stands to its right, so a text is measured from
  its end.
-/
import Stencil.Text.Emoji
import Stencil.Text.Extending
import Stencil.Text.Wide
import Stencil.Text.Zero

namespace Stencil.Width

/-- The character that joins emoji and letters. -/
def joiner : Char := '\u200d'

/-- The selector that shows a character as an emoji. -/
def emojiSelector : Char := '\ufe0f'

/-- The selector that shows an emoji as a character. -/
def textSelector : Char := '\ufe0e'

/-- Two letters that melt into one column. -/
inductive Ligature where
  | lamAlef
  | alefLamed
  | lisuTones
  | turkicEcI
  deriving DecidableEq

/-- The ligature that `c` can be the right half of. -/
def Ligature.ofRight? (c : Char) : Option Ligature :=
  if inRanges [(0x622, 0x623), (0x625, 0x625), (0x627, 0x627), (0x671, 0x673), (0x675, 0x675),
      (0x773, 0x774), (0x870, 0x882)] c then some lamAlef
  else if c.toNat = 0x5DC then some alefLamed
  else if inRanges [(0xA4FC, 0xA4FD)] c then some lisuTones
  else if c.toNat = 0x10C03 then some turkicEcI
  else none

/-- Whether `c` is the left half of the ligature; `joined` tells whether a joiner stands between the
    halves. -/
def Ligature.endsWith (lig : Ligature) (joined : Bool) (c : Char) : Bool :=
  match lig with
  | lamAlef =>
    inRanges [(0x644, 0x644), (0x6B5, 0x6B8), (0x76A, 0x76A), (0x8A6, 0x8A6), (0x8C7, 0x8C7)] c
  | alefLamed => joined && c.toNat == 0x5D0
  | lisuTones => inRanges [(0xA4F8, 0xA4FB)] c
  | turkicEcI => joined && c.toNat == 0x10C32

/-- What stands to the right of a place, as far as the width there depends on it. -/
inductive Right where
  | other
  /-- An emoji. -/
  | emoji
  /-- A joiner and an emoji. -/
  | joinedEmoji
  /-- The selector for emoji; `joined` tells whether a joiner and an emoji follow. -/
  | emojiForm (joined : Bool)
  /-- The selector for characters. -/
  | textForm
  /-- A skin tone. -/
  | skinTone
  /-- The right half of a ligature; `joined` tells whether a joiner stands before it. -/
  | half (lig : Ligature) (joined : Bool)
  /-- A letter that can be written below the one before it. -/
  | subscript
  deriving DecidableEq

/-- Whether `c` is a Khmer letter that has a form below the line. -/
def isSubscriptable (c : Char) : Bool :=
  inRanges [(0x1780, 0x1782), (0x1784, 0x1787), (0x1789, 0x178C), (0x178E, 0x1793),
    (0x1795, 0x1798), (0x179B, 0x179D), (0x17A0, 0x17A0), (0x17A2, 0x17A2), (0x17A7, 0x17A7),
    (0x17AB, 0x17AC), (0x17AF, 0x17AF)] c

/-- The columns of a character outside any sequence. -/
def ofChar (c : Char) : Int :=
  if c.toNat ≤ 0xA0 then if c = '\n' then 0 else 1
  else if c.toNat = 0x17A4 then 2
  else if c.toNat = 0x17D8 then 3
  else if c.toNat = 0x2D7F then 1
  else if isExtending c || isZero c then 0
  else if isWide c then 2
  else 1

/-- The columns that `c` adds outside any sequence to its right, and what it is to its left. -/
def alone (c : Char) : Int × Right :=
  if c.toNat ≤ 0xA0 then (ofChar c, .other)
  else if c = emojiSelector then (0, .emojiForm false)
  else if c = textSelector then (0, .textForm)
  else if isSkinTone c then (2, .skinTone)
  else if isShownAsEmoji c then (ofChar c, .emoji)
  else if isSubscriptable c then (ofChar c, .subscript)
  else
    match Ligature.ofRight? c with
    | some lig => (ofChar c, .half lig false)
    | none => (ofChar c, .other)

/-- The columns that `c` adds as part of a sequence to its right, and what it is to its left. -/
def within? (c : Char) : Right → Option (Int × Right)
  | .other => none
  | .emoji => if c = joiner then some (0, .joinedEmoji) else none
  | .joinedEmoji =>
    if c = emojiSelector then some (0, .emojiForm true)
    else if isSkinTone c then some (0, .skinTone)
    else if isShownAsEmoji c then some (0, .emoji)
    else none
  | .emojiForm joined =>
    if hasEmojiForm c then some (if joined then 0 else 2, .emoji) else none
  | .textForm =>
    if isShownAsEmoji c && !inRanges [(0x1F200, 0x1F2FF)] c then some (1, .other) else none
  | .skinTone => if takesSkinTone c then some (0, .emoji) else none
  | .half lig joined =>
    if lig.endsWith joined c then some (0, .other)
    else if lig ≠ .lamAlef ∧ c = joiner then some (0, .half lig true)
    else if isExtending c then some (0, .half lig joined)
    else none
  | .subscript => if c.toNat = 0x17D2 then some (-1, .other) else none

/-- The columns of `cs`, and what its first character is to its left. -/
def measure : List Char → Int × Right
  | [] => (0, .other)
  | c :: cs =>
    let (columns, right) := measure cs
    let (add, left) := (within? c right).getD (alone c)
    (columns + add, left)

/-- The number of columns that `cs` takes. -/
def columns (cs : List Char) : Nat := (measure cs).1.toNat

end Stencil.Width
