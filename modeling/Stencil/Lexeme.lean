/-
  Lexeme — a piece of the source with its kind, and the state of reading.

  A `Lexer` is a place in the source: the byte offset, the text from there on, and what is being
  read.  It does not hold the text before that place, so what it yields can only depend on the text
  that follows.
-/
import Stencil.Diagnostic
import Stencil.Text.Bytes
import Stencil.Trim

namespace Stencil

/-- A piece of the source. -/
structure Lexeme where
  token : Token
  span : Span
  text : List Char
  /-- The modifier on a delimiter. -/
  trim : Option Trim
  deriving DecidableEq

/-- What is being read at a place of the source. -/
inductive Mode where
  /-- Content, up to the next opening delimiter. -/
  | template
  /-- The inside of a tag.  After a dot a number is a tuple index and has no fraction. -/
  | tag (kind : TagKind) (afterDot : Bool)
  /-- The body of a raw block, directly after its tag. -/
  | raw
  deriving DecidableEq

/-- What is left to do in a mode besides the characters: a tag or raw block has to be left. -/
def Mode.pending : Mode → Nat
  | template => 0
  | _ => 1

theorem Mode.pending_le_one (m : Mode) : m.pending ≤ 1 := by
  cases m <;> simp [pending]

/-- A place in the source: its offset, the text from there on, and what is being read. -/
structure Lexer where
  pos : Nat
  rest : List Char
  mode : Mode
  deriving DecidableEq

/-- What one step of reading gives. -/
inductive Step where
  | token (lexeme : Lexeme) (next : Lexer)
  | fault (diagnostic : Diagnostic) (next : Lexer)
  | done

namespace Lexer

/-- The start of a source. -/
def start (source : List Char) : Lexer := ⟨0, source, .template⟩

/-- The place `n` characters further on. -/
def advance (lx : Lexer) (n : Nat) (mode : Mode) : Lexer :=
  ⟨lx.pos + byteLen (lx.rest.take n), lx.rest.drop n, mode⟩

/-- The region of the next `n` characters. -/
def spanOf (lx : Lexer) (n : Nat) : Span := ⟨lx.pos, lx.pos + byteLen (lx.rest.take n)⟩

/-- The next `n` characters as a lexeme. -/
def lexeme (lx : Lexer) (token : Token) (n : Nat) (trim : Option Trim) : Lexeme :=
  ⟨token, lx.spanOf n, lx.rest.take n, trim⟩

/-- Whether the place is inside a tag. -/
def inTag (lx : Lexer) : Bool :=
  match lx.mode with
  | .tag .. => true
  | _ => false

/-- How much is left to do: two for each character, and one for leaving a tag or raw block.  Every
    step lowers it. -/
def weight (lx : Lexer) : Nat :=
  2 * lx.rest.length + lx.mode.pending

/-- A place with less to do has no more text. -/
theorem length_le_of_weight_lt {a b : Lexer} (h : a.weight < b.weight) :
    a.rest.length ≤ b.rest.length := by
  have := b.mode.pending_le_one
  unfold weight at h
  omega

@[simp] theorem length_advance (lx : Lexer) (n : Nat) (mode : Mode) :
    (lx.advance n mode).rest.length = lx.rest.length - n := by
  simp [advance]

@[simp] theorem mode_advance (lx : Lexer) (n : Nat) (mode : Mode) :
    (lx.advance n mode).mode = mode := rfl

/-- Going on by at least one character leaves less text. -/
theorem length_advance_lt (lx : Lexer) {n : Nat} (mode : Mode) (hn : 0 < n) (hr : lx.rest ≠ []) :
    (lx.advance n mode).rest.length < lx.rest.length := by
  have hpos : 0 < lx.rest.length := List.length_pos_iff.2 hr
  rw [length_advance]
  omega

/-- Going on by at least one character leaves less to do, whatever is read next. -/
theorem weight_advance_lt (lx : Lexer) {n : Nat} (mode : Mode) (hn : 0 < n) (hr : lx.rest ≠ []) :
    (lx.advance n mode).weight < lx.weight := by
  have hlt := lx.length_advance_lt mode hn hr
  have hone := mode.pending_le_one
  unfold weight
  rw [mode_advance]
  omega

/-- Leaving a tag or raw block leaves less to do, even without going on. -/
theorem weight_leave_lt (lx : Lexer) (n : Nat) (hm : lx.mode ≠ .template) :
    (lx.advance n .template).weight < lx.weight := by
  have hpending : lx.mode.pending = 1 := by
    cases h : lx.mode with
    | template => exact absurd h hm
    | tag kind afterDot => rfl
    | raw => rfl
  have htemplate : Mode.template.pending = 0 := rfl
  unfold weight
  rw [mode_advance, length_advance, hpending, htemplate]
  omega

end Lexer

end Stencil
