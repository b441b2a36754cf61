/-
  Reader — reading the lexemes of one tag.

  A parser takes lexemes from a state and either gives a value or fails.  The grammar is written once,
  over whatever supplies the lexemes (`Tokens`), the texts and constants that they spell, and the levels
  of nesting (`Supply`).

  A `Feed` is the plainest of these states: the lexemes of a tag that are still to be read, with their
  texts, and what comes after them, the end of the source or a fault.  A `Reader` is a parser that reads
  from a feed.  A fault among the lexemes is noticed when a reader looks at it, not before.

  Repetition is bounded by the number of lexemes left, which every round lowers; so the bounds in
  `many` and `seq` are never reached.
-/
import Stencil.Lexeme.Lexer

namespace Stencil

/-- Takes lexemes from a state to give a value, or fails. -/
def Parser (ε σ α : Type) : Type := σ → Except ε (α × σ)

/-- The lexemes of a tag that are left to read. -/
structure Feed where
  lexemes : List Lexeme
  /-- What comes after the lexemes. -/
  stop : Lexer.Stop
  /-- The place of the lexeme read last. -/
  last : Span

/-- Takes lexemes from a feed to give a value, or fails. -/
abbrev Reader : Type → Type := Parser Diagnostic Feed

/-- A state that supplies lexemes, and what it is to fail there. -/
class Tokens (σ : Type) (ε : outParam Type) where
  /-- The next lexeme, which is not taken. -/
  peek : Parser ε σ (Option Lexeme)
  /-- The lexeme after the next one; nothing is taken. -/
  peekSecond : Parser ε σ (Option Lexeme)
  /-- Takes the next lexeme. -/
  next : Parser ε σ (Option Lexeme)
  /-- The place of the lexeme taken last. -/
  last : Parser ε σ Span
  /-- The place where the lexemes stop. -/
  eof : Parser ε σ Span
  /-- Fails. -/
  fail {α : Type} : Diagnostic → Parser ε σ α
  /-- There are no more lexemes than this. -/
  left : σ → Nat

namespace Reader

export Tokens (peek peekSecond next last eof fail left)

section

variable {ε σ : Type}

instance : Monad (Parser ε σ) where
  pure a := fun st => .ok (a, st)
  bind p k := fun st =>
    match p st with
    | .ok (a, rest) => k a rest
    | .error e => .error e

@[simp] theorem pure_apply {α : Type} (a : α) (st : σ) :
    (pure a : Parser ε σ α) st = .ok (a, st) := rfl

/-- The second parser goes on where the first one stopped. -/
theorem bind_apply {α β : Type} (p : Parser ε σ α) (k : α → Parser ε σ β) (st : σ) :
    (p >>= k) st =
      match p st with
      | .ok (a, rest) => k a rest
      | .error e => .error e := rfl

theorem bind_of_ok {α β : Type} {p : Parser ε σ α} {k : α → Parser ε σ β} {st mid : σ} {a : α}
    (h : p st = .ok (a, mid)) : (p >>= k) st = k a mid := by
  rw [bind_apply, h]

theorem bind_of_error {α β : Type} {p : Parser ε σ α} {k : α → Parser ε σ β} {st : σ} {e : ε}
    (h : p st = .error e) : (p >>= k) st = .error e := by
  rw [bind_apply, h]

/-- Two parsers in a row succeed exactly when both do. -/
theorem bind_eq_ok_iff {α β : Type} {p : Parser ε σ α} {k : α → Parser ε σ β} {st : σ}
    {r : β × σ} :
    (p >>= k) st = .ok r ↔ ∃ a rest, p st = .ok (a, rest) ∧ k a rest = .ok r := by
  rw [bind_apply]
  constructor
  · intro h
    split at h
    · next a rest hp => exact ⟨a, rest, hp, h⟩
    · cases h
  · rintro ⟨a, rest, hp, hk⟩
    rw [hp]
    exact hk

end

end Reader

/-! ## Feeds -/

namespace Feed

/-- Fails when the lexemes stop with a fault; otherwise there is no lexeme. -/
def atStop : Reader (Option Lexeme) := fun feed =>
  match feed.stop with
  | .fault diagnostic => .error diagnostic
  | .atEnd _ => .ok (none, feed)

/-- The next lexeme, which stays in the feed. -/
def peek : Reader (Option Lexeme) := fun feed =>
  match feed.lexemes with
  | l :: _ => .ok (some l, feed)
  | [] => atStop feed

/-- The lexeme after the next one; nothing is taken. -/
def peekSecond : Reader (Option Lexeme) := fun feed =>
  match feed.lexemes with
  | _ :: l :: _ => .ok (some l, feed)
  | _ => atStop feed

/-- Takes the next lexeme. -/
def next : Reader (Option Lexeme) := fun feed =>
  match feed.lexemes with
  | l :: rest => .ok (some l, { feed with lexemes := rest, last := l.span })
  | [] => atStop feed

/-- The place where the lexemes stop. -/
def eof : Reader Span := fun feed =>
  match feed.stop with
  | .atEnd pos => .ok (Span.point pos, feed)
  | .fault diagnostic => .error diagnostic

instance : Tokens Feed Diagnostic where
  peek := peek
  peekSecond := peekSecond
  next := next
  last feed := .ok (feed.last, feed)
  eof := eof
  fail diagnostic _ := .error diagnostic
  left feed := feed.lexemes.length

end Feed

namespace Reader

theorem peek_feed : (peek : Reader (Option Lexeme)) = Feed.peek := rfl

theorem peekSecond_feed : (peekSecond : Reader (Option Lexeme)) = Feed.peekSecond := rfl

theorem next_feed : (next : Reader (Option Lexeme)) = Feed.next := rfl

theorem eof_feed : (eof : Reader Span) = Feed.eof := rfl

end Reader

/-! ## Parsers -/

namespace Reader

variable {ε σ : Type} [Tokens σ ε]

/-- Fails because `found` is none of the alternatives. -/
def unexpected {α : Type} (expected : List Expected) (found : Option Lexeme) : Parser ε σ α := do
  match found with
  | some l => fail ⟨.unexpected expected (some l.token), l.span⟩
  | none => fail ⟨.unexpected expected none, ← eof⟩

/-- Fails because the nesting goes beyond `limit`; the next lexeme is where it does. -/
def tooDeep {α : Type} (limit : Nat) : Parser ε σ α := do
  match ← peek with
  | some l => fail ⟨.tooDeep limit, l.span⟩
  | none => fail ⟨.tooDeep limit, ← eof⟩

/-- Whether the next lexeme is a `token`. -/
def nextIs (token : Token) : Parser ε σ Bool := do
  return (← peek).any fun l => l.token == token

/-- Whether the lexeme after the next one is a `token`. -/
def secondIs (token : Token) : Parser ε σ Bool := do
  return (← peekSecond).any fun l => l.token == token

/-- Takes the next lexeme if it is a `token`. -/
def eat (token : Token) : Parser ε σ (Option Lexeme) := do
  if ← nextIs token then next else return none

/-- Whether the next lexeme was a `token` and has been taken. -/
def eats (token : Token) : Parser ε σ Bool := do
  return (← eat token).isSome

/-- Takes the next lexeme, which must be a `token`. -/
def expect (token : Token) : Parser ε σ Lexeme := do
  let found ← next
  match found with
  | some l => if l.token = token then return l else unexpected [.token token] found
  | none => unexpected [.token token] found

/-- At most `fuel` rounds of `many`. -/
def manyFrom {α : Type} (item : Parser ε σ (Option α)) : Nat → Parser ε σ (List α)
  | 0 => return []
  | fuel + 1 => do
    match ← item with
    | none => return []
    | some x => return x :: (← manyFrom item fuel)

/-- Reads items until there is none. -/
def many {α : Type} (item : Parser ε σ (Option α)) : Parser ε σ (List α) := fun st =>
  manyFrom item (left st + 1) st

/-- The items of a bracketed list. -/
structure Seq (α : Type) where
  items : List α
  /-- Whether a comma stands after the last item. -/
  trailing : Bool
  /-- The place of the closing bracket. -/
  close : Span

/-- At most `fuel + 1` rounds of `seq`; `trailing` tells whether a comma stands before. -/
def seqFrom {α : Type} (close : Token) (item : Parser ε σ α) (fuel : Nat) (trailing : Bool) :
    Parser ε σ (Seq α) := do
  match ← eat close with
  | some l => return ⟨[], trailing, l.span⟩
  | none =>
    let x ← item
    let found ← next
    let expected : List Expected := [.token .comma, .token close]
    match found with
    | none => unexpected expected found
    | some l =>
      if l.token = .comma then
        match fuel with
        | 0 => unexpected expected found
        | fuel + 1 =>
          let s ← seqFrom close item fuel true
          return { s with items := x :: s.items }
      else if l.token = close then return ⟨[x], false, l.span⟩
      else unexpected expected found

/-- Reads items with commas between them up to the closing bracket; the opening one is already
    taken. -/
def seq {α : Type} (close : Token) (item : Parser ε σ α) : Parser ε σ (Seq α) := fun st =>
  seqFrom close item (left st) false st

end Reader

end Stencil
