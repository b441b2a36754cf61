/-
  Terminal — names, texts and constants.

  What a lexeme spells is supplied with it.  A text, a character or a number has been taken by the lexer
  because it can be decoded, but it is decoded here, from its text; `Supply` says how, along with the
  text of a lexeme and the levels of nesting.
-/
import Stencil.Expr
import Stencil.Ident
import Stencil.Literal
import Stencil.Reader

namespace Stencil

/-- A state that supplies lexemes with what they spell, and keeps count of the nesting. -/
class Supply (σ : Type) (ε : outParam Type) extends Tokens σ ε where
  /-- The text of a lexeme. -/
  spelled : Lexeme → Parser ε σ (List Char)
  /-- The place and the text of a lexeme without its last character. -/
  stem : Lexeme → Parser ε σ (Span × List Char)
  /-- The constant that a lexeme spells, with a minus sign before it or not. -/
  literalOf : Lexeme → Bool → Parser ε σ Literal
  /-- The value of a text literal. -/
  textOf : Lexeme → Parser ε σ String
  /-- The value of a number as the index of a tuple. -/
  indexOf : Lexeme → Parser ε σ Nat
  /-- The item at a position of a list, which is known to be `x`. -/
  item {α : Type} : List α → Nat → (x : α) → Parser ε σ α
  /-- The difference of two numbers of which the first is not the smaller one. -/
  difference : Nat → Nat → Parser ε σ Nat
  /-- Goes one level down to read. -/
  within {α : Type} : Nat → Parser ε σ α → Parser ε σ α
  /-- Goes one level down when there is none left. -/
  beyond {α : Type} : Nat → Parser ε σ α

namespace Reader

export Supply (spelled stem literalOf textOf indexOf item difference within beyond)

/-- The text between the quotes of a literal. -/
def quotedBody (l : Lexeme) : List Char := (l.text.drop 1).dropLast

/-- The largest index of a tuple, plus one: indices have 64 bits. -/
def indexBound : Nat := 0x10000000000000000

/-- The value of a row of decimal digits. -/
def decimalValue (digits : List Char) : Nat :=
  digits.foldl (fun n c => 10 * n + (c.toNat - '0'.toNat)) 0

end Reader

/-! ## Feeds -/

namespace Feed

open Reader

/-- The value of a text literal. -/
def textOf (l : Lexeme) : Reader String :=
  match Escape.unescape false (quotedBody l) with
  | .ok value => return String.ofList value
  | .error range => fail ⟨.lex .badEscape, range.shift (l.span.start + 1)⟩

/-- The value of a character literal. -/
def charOf (l : Lexeme) : Reader Char :=
  match Escape.unescape true (quotedBody l) with
  | .ok (c :: _) => return c
  | _ => fail ⟨.lex .badEscape, l.span⟩

/-- The constant that a lexeme spells. -/
def literalOf (l : Lexeme) (negative : Bool) : Reader Literal :=
  match l.token with
  | .str => .str <$> textOf l
  | .char => .char <$> charOf l
  | .number =>
    match Numeral.number? l.text negative with
    | some n => return .num n
    | none => fail ⟨.lex .badNumber, l.span⟩
  | .keyword .trueKw => return .bool true
  | .keyword .falseKw => return .bool false
  | _ => unexpected [.literal] (some l)

/-- The value of a number as the index of a tuple. -/
def indexOf (l : Lexeme) : Reader Nat :=
  let value := decimalValue l.text
  if l.text.all (·.isDigit) && decide (value < indexBound) then return value
  else fail ⟨.indexTooLarge, l.span⟩

/-- The lexemes of a feed have their texts.  Its readers are told how many levels they may go down, so
    there is nothing to count. -/
instance : Supply Feed Diagnostic where
  spelled l := return l.text
  stem l := return (⟨l.span.start, l.span.stop - 1⟩, l.text.dropLast)
  literalOf := literalOf
  textOf := textOf
  indexOf := indexOf
  item _ _ x := return x
  difference a b := return a - b
  within _ p := p
  beyond := tooDeep

end Feed

/-! ## Terminals -/

namespace Reader

/-- The name that a lexeme spells. -/
def identOf (l : Lexeme) : Ident := ⟨String.ofList l.text, l.span⟩

/-- Whether a token spells a constant. -/
def isLiteral : Token → Bool
  | .number | .str | .char | .keyword .trueKw | .keyword .falseKw => true
  | _ => false

variable {ε σ : Type} [Supply σ ε]

/-- The name that a lexeme spells, by the text that is supplied. -/
def nameOf (l : Lexeme) : Parser ε σ Ident := do
  return ⟨String.ofList (← spelled l), l.span⟩

theorem textOf_feed (l : Lexeme) : (textOf l : Reader String) = Feed.textOf l := rfl

theorem literalOf_feed (l : Lexeme) (negative : Bool) :
    (literalOf l negative : Reader Literal) = Feed.literalOf l negative := rfl

theorem stem_bind_feed {α : Type} (l : Lexeme) (k : Span × List Char → Reader α) :
    (stem l >>= k) = k (⟨l.span.start, l.span.stop - 1⟩, l.text.dropLast) := rfl

theorem within_feed {α : Type} (limit : Nat) (p : Reader α) : within limit p = p := rfl

/-- A row of digits is an index, unless it is too large. -/
theorem indexOf_bind_feed {α : Type} (l : Lexeme) (k : Nat → Reader α) :
    (indexOf l >>= k) =
      if l.text.all (·.isDigit) && decide (decimalValue l.text < indexBound) then
        k (decimalValue l.text)
      else fail ⟨.indexTooLarge, l.span⟩ := by
  show (Feed.indexOf l >>= k) = _
  unfold Feed.indexOf
  dsimp only
  split <;> rfl

/-- On a feed the text of a lexeme is at hand. -/
theorem nameOf_feed (l : Lexeme) : (nameOf l : Reader Ident) = pure (identOf l) := rfl

theorem nameOf_bind_feed {α : Type} (l : Lexeme) (k : Ident → Reader α) :
    (nameOf l >>= k) = k (identOf l) := rfl

/-- Reads a name. -/
def ident : Parser ε σ Ident := do
  let found ← next
  match found with
  | some l => if l.token.isName then nameOf l else unexpected [.identifier] found
  | none => unexpected [.identifier] found

/-- Reads a name if there is one. -/
def ident? : Parser ε σ (Option Ident) := do
  if (← peek).any fun l => l.token.isName then some <$> ident else return none

/-- Reads a text literal as an operand. -/
def textLit : Parser ε σ TextLit := do
  let found ← next
  match found with
  | some l =>
    if l.token = .str then return ⟨← textOf l, l.span⟩ else unexpected [.token .str] found
  | none => unexpected [.token .str] found

end Reader

end Stencil
