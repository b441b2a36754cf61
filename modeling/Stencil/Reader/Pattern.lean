/-
  Pattern — reading patterns.

  A pattern is one or more atoms with bars, or the word `or`, between them.  A pattern costs one
  level of nesting; the patterns inside an atom are read with what is left.
-/
import Stencil.Pattern
import Stencil.Reader.Terminal

namespace Stencil

namespace Reader

variable {ε σ : Type} [Supply σ ε]

/-- Reads a double colon and a name, if there is one. -/
def pathSegment? : Parser ε σ (Option Ident) := do
  if ← eats .pathSep then some <$> ident else return none

/-- Reads a field in the pattern of a structure. -/
def fieldPattern (inner : Parser ε σ Pattern) : Parser ε σ FieldPattern := do
  match ← eat .dotDot with
  | some l => return .rest l.span
  | none =>
    let name ← ident
    if ← eats .colon then return .field name (some (← inner)) else return .field name none

/-- The pattern of a path that nothing is taken apart of: a single name is a binding. -/
def pathPattern (p : Path) : Pattern :=
  match p.global, p.segments with
  | false, [seg] => .ident seg.name p.span
  | _, _ => .path p p.span

/-- Reads a pattern that starts with the path segment `first`: a binding, a path, or a structure
    taken apart by position or by name. -/
def structPattern (inner : Parser ε σ Pattern) (global : Bool) (first : Ident) (start : Span) :
    Parser ε σ Pattern := do
  let segments := first :: (← many pathSegment?)
  let p : Path := ⟨global, segments, start.join (segments.getLastD first).span⟩
  if ← eats .lparen then
    let s ← seq .rparen inner
    return .tupleStruct p s.items (p.span.join s.close)
  else if ← eats .lbrace then
    let s ← seq .rbrace (fieldPattern inner)
    return .struct p s.items (p.span.join s.close)
  else return pathPattern p

/-- Reads the number after a minus sign as a negative constant. -/
def negativePattern (minus : Lexeme) : Parser ε σ Pattern := do
  let found ← next
  match found with
  | some l =>
    if l.token = .number then return .lit (← literalOf l true) (minus.span.join l.span)
    else unexpected [.token .number] found
  | none => unexpected [.token .number] found

/-- Reads what stands after an opening parenthesis; a single pattern stands for itself. -/
def tuplePattern (inner : Parser ε σ Pattern) (opening : Lexeme) : Parser ε σ Pattern := do
  let s ← seq .rparen inner
  match s.items, s.trailing with
  | [p], false => item s.items 0 p
  | elems, _ => return .tuple elems (opening.span.join s.close)

/-- Reads what stands after an opening square bracket. -/
def slicePattern (inner : Parser ε σ Pattern) (opening : Lexeme) : Parser ε σ Pattern := do
  let s ← seq .rbracket inner
  return .slice s.items (opening.span.join s.close)

/-- Whether a lexeme is the name that only holds a place. -/
def isUnderscore (l : Lexeme) : Parser ε σ Bool := do
  if l.token = .ident then return decide ((← spelled l) = ['_']) else return false

/-- On a feed the text of a lexeme is at hand. -/
theorem isUnderscore_feed (l : Lexeme) :
    (isUnderscore l : Reader Bool) = pure (decide (l.token = .ident ∧ l.text = ['_'])) := by
  unfold isUnderscore
  by_cases ht : l.token = .ident
  · rw [if_pos ht, decide_eq_decide.2 (and_iff_right ht)]
    rfl
  · rw [if_neg ht, decide_eq_false fun h => ht h.1]

theorem isUnderscore_bind_feed {α : Type} (l : Lexeme) (k : Bool → Reader α) :
    (isUnderscore l >>= k) = k (decide (l.token = .ident ∧ l.text = ['_'])) := by
  rw [isUnderscore_feed]
  rfl

/-- Reads a pattern without alternatives. -/
def patternAtom (inner : Parser ε σ Pattern) : Parser ε σ Pattern := do
  let found ← next
  match found with
  | none => unexpected [.pattern] found
  | some l =>
    match l.token with
    | .dotDot => return .rest l.span
    | .minus => negativePattern l
    | .pathSep =>
      let first ← ident
      structPattern inner true first l.span
    | .lparen => tuplePattern inner l
    | .lbracket => slicePattern inner l
    | t =>
      if ← isUnderscore l then return .placeholder l.span
      else if isLiteral t then return .lit (← literalOf l false) l.span
      else if t.isName then structPattern inner false (← nameOf l) l.span
      else unexpected [.pattern] found

/-- Reads a further alternative, if there is one. -/
def alternative? (atom : Parser ε σ Pattern) : Parser ε σ (Option Pattern) := do
  if ← eats .pipe then some <$> atom
  else if ← eats (.keyword .orKw) then some <$> atom
  else return none

/-- Reads atoms with bars or `or` between them. -/
def alternatives (atom : Parser ε σ Pattern) : Parser ε σ Pattern := do
  let first ← atom
  let rest ← many (alternative? atom)
  let all := first :: rest
  match rest.getLast? with
  | none => item all 0 first
  | some final =>
    let opening ← item all 0 first
    let closing ← item all (← difference all.length 1) final
    return .alternatives all (opening.span.join closing.span)

/-- On a feed the first and the last alternative are at hand. -/
theorem alternatives_feed (atom : Reader Pattern) : alternatives atom = do
    let first ← atom
    let rest ← many (alternative? atom)
    match rest.getLast? with
    | none => return first
    | some final => return .alternatives (first :: rest) (first.span.join final.span) := by
  unfold alternatives
  congr

/-- Reads a pattern with `budget` levels of nesting to go. -/
def patternWithin (limit : Nat) : Nat → Parser ε σ Pattern
  | 0 => beyond limit
  | budget + 1 => within limit (alternatives (patternAtom (patternWithin limit budget)))

/-- Reads a pattern; nesting may go `limit` levels deep. -/
def pattern (limit : Nat) : Parser ε σ Pattern := patternWithin limit limit

/-- The bracket that answers an opening one. -/
def closerOf? : Token → Option Token
  | .lparen => some .rparen
  | .lbracket => some .rbracket
  | _ => none

/-- Reads the pattern of a match arm, which may be followed by `with` and a bracketed list. -/
def armPattern (limit : Nat) : Parser ε σ Pattern := do
  let base ← pattern limit
  if ← eats (.keyword .withKw) then
    let found ← next
    let expected : List Expected := [.token .lparen, .token .lbracket]
    match found with
    | none => unexpected expected found
    | some opening =>
      match closerOf? opening.token with
      | none => unexpected expected found
      | some close =>
        let s ← seq close (pattern limit)
        return .destructured base s.items ((base.span.join opening.span).join s.close)
  else return base

end Reader

end Stencil
