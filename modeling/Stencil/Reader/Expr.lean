/-
  Expr — reading expressions.

  From the loosest to the tightest: a range, binary operators by their levels, filters, unary
  operators, a test for being defined, suffixes (calls, members, indices, `?`), and primaries.

  Nesting is limited.  A reader of a layer is given a budget: the number of levels it may still go
  down.  A full expression, a unary operator, a binary operator and a suffix cost one each, and what
  they enclose is read with what is left; further filters in a row cost nothing.  Every layer is
  defined over `e`, the reader of a full expression as a function of the budget, and only ever asks
  for budgets that are not larger than its own; `expr` ties the knot by recursion on the budget.
-/
import Stencil.Expr
import Stencil.Reader.Terminal

namespace Stencil

namespace Reader

variable {ε σ : Type} [Supply σ ε]

/-! ## Arguments and filters -/

/-- Whether a name and an equals sign follow. -/
def startsNamed : Parser ε σ Bool := do
  if (← peek).any fun l => l.token.isName then secondIs .eq else return false

/-- Reads an argument. -/
def arg (value : Parser ε σ Expr) : Parser ε σ Arg := do
  if ← startsNamed then
    let name ← ident
    let _ ← expect .eq
    return .named name (← value)
  else return .positional (← value)

/-- Reads an argument list with its parentheses. -/
def args (value : Parser ε σ Expr) : Parser ε σ Args := do
  let opening ← expect .lparen
  let s ← seq .rparen (arg value)
  return .mk s.items (opening.span.join s.close)

/-- Reads the name of a filter and its arguments, if there are any. -/
def filter (value : Parser ε σ Expr) : Parser ε σ Filter := do
  let name ← ident
  if ← nextIs .lparen then
    let given ← args value
    return .mk name (some given) (name.span.join given.span)
  else return .mk name none name.span

/-- Reads a filter after a bar. -/
def filter? (value : Parser ε σ Expr) : Parser ε σ (Option Filter) := do
  if ← eats .pipe then some <$> filter value else return none

/-! ## Paths and macro calls -/

/-- Reads a macro call from the arguments on; `name` is the lexeme of the macro name and its mark,
    `segments` the path before it, and `start` the place where the path begins. -/
def macroCall (value : Parser ε σ Expr) (global : Bool) (segments : List Ident) (start : Span)
    (name : Lexeme) : Parser ε σ Expr := do
  let (place, text) ← stem name
  let ident : Ident := ⟨String.ofList text, place⟩
  let given ← args value
  return .macroCall ⟨global, segments ++ [ident], start.join place⟩ given (start.join given.span)

/-- Reads the last segment of a macro path and the call. -/
def macroSegment (value : Parser ε σ Expr) (global : Bool) (segments : List Ident) (start : Span) :
    Parser ε σ Expr := do
  let found ← next
  match found with
  | some l =>
    if l.token = .macroName then macroCall value global segments start l
    else unexpected [.identifier] found
  | none => unexpected [.identifier] found

/-- At most `fuel` further segments of a path. -/
def segmentsFrom : Nat → Parser ε σ (List Ident × Bool)
  | 0 => return ([], false)
  | fuel + 1 => do
    if ← eats .pathSep then
      if ← nextIs .macroName then return ([], true)
      else
        let name ← ident
        let (names, isMacro) ← segmentsFrom fuel
        return (name :: names, isMacro)
    else return ([], false)

/-- Reads the further segments of a path, each a double colon and a name, and tells whether a macro name
    stands after the last double colon. -/
def segments : Parser ε σ (List Ident × Bool) := fun st => segmentsFrom (left st + 1) st

/-- Reads the rest of a path after its first name: a plain path, or the path of a macro call. -/
def pathExpr (value : Parser ε σ Expr) (global : Bool) (first : Ident) (start : Span) :
    Parser ε σ Expr := do
  let (more, isMacro) ← segments
  let segments := first :: more
  if isMacro then macroSegment value global segments start
  else
    let span := start.join (segments.getLastD first).span
    return .path ⟨global, segments, span⟩ span

/-! ## Primaries -/

/-- Reads the number after a minus sign as a negative constant. -/
def negative (minus : Lexeme) : Parser ε σ Expr := do
  let found ← next
  match found with
  | some l => return .lit (← literalOf l true) (minus.span.join l.span)
  | none => unexpected [.expression] found

/-- Reads what stands after an opening parenthesis: nothing, one grouped expression, or a tuple. -/
def parenthesized (value : Parser ε σ Expr) (opening : Lexeme) : Parser ε σ Expr := do
  let s ← seq .rparen value
  let span := opening.span.join s.close
  match s.items, s.trailing with
  | [], _ => return .unit span
  | [inner], false => return .group (← item s.items 0 inner) span
  | elems, _ => return .tuple elems span

/-- Reads what stands after an opening square bracket. -/
def bracketed (value : Parser ε σ Expr) (opening : Lexeme) : Parser ε σ Expr := do
  let s ← seq .rbracket value
  return .array s.items (opening.span.join s.close)

/-- Reads a path after its leading double colon. -/
def globalPath (value : Parser ε σ Expr) (opening : Lexeme) : Parser ε σ Expr := do
  if ← nextIs .macroName then macroSegment value true [] opening.span
  else
    let first ← ident
    pathExpr value true first opening.span

/-- Reads a variable or a path that starts with a name. -/
def named (value : Parser ε σ Expr) (l : Lexeme) : Parser ε σ Expr := do
  let first ← nameOf l
  if ← nextIs .pathSep then pathExpr value false first l.span
  else return .var first.name l.span

/-- Reads an expression that no operator stands in. -/
def primary (value : Parser ε σ Expr) : Parser ε σ Expr := do
  let found ← next
  match found with
  | none => unexpected [.expression] found
  | some l =>
    match l.token with
    | .minus => negative l
    | .pathSep => globalPath value l
    | .macroName => macroCall value false [] l.span l
    | .lparen => parenthesized value l
    | .lbracket => bracketed value l
    | t =>
      if isLiteral t then return .lit (← literalOf l false) l.span
      else if t.isName then named value l
      else unexpected [.expression] found

/-! ## Suffixes -/

/-- Reads what stands after a dot: any word, keywords included, or the index of a tuple. -/
def key : Parser ε σ Key := do
  let found ← next
  match found with
  | none => unexpected [.identifier] found
  | some l =>
    match l.token with
    | .ident | .keyword _ => return .name (← nameOf l)
    | .number => return .index (← indexOf l) l.span
    | _ => unexpected [.identifier] found

/-- Whether a suffix begins with the token. -/
def isSuffix : Token → Bool
  | .lparen | .dot | .lbracket | .question => true
  | _ => false

/-- Reads the suffix of `x` that the lexeme `l` begins. -/
def suffix (value : Parser ε σ Expr) (x : Expr) (l : Lexeme) : Parser ε σ Expr := do
  match l.token with
  | .lparen =>
    let given ← args value
    return .call x given (x.span.join given.span)
  | .dot =>
    let _ ← next
    let k ← key
    return .field x k (x.span.join k.span)
  | .lbracket =>
    let _ ← next
    let i ← value
    let close ← expect .rbracket
    return .index x i (x.span.join close.span)
  | _ =>
    let _ ← next
    return .attempt x (x.span.join l.span)

/-- Reads the suffixes of `x`; each costs one level. -/
def suffixes (limit : Nat) (e : Nat → Parser ε σ Expr) (budget : Nat) (x : Expr) : Parser ε σ Expr := do
  match ← peek with
  | none => return x
  | some l =>
    if isSuffix l.token then
      match budget with
      | 0 => beyond limit
      | budget + 1 => within limit do
        let y ← suffix (e budget) x l
        suffixes limit e budget y
    else return x

/-- Reads a primary with its suffixes, and a test for being defined after it. -/
def tested (limit : Nat) (e : Nat → Parser ε σ Expr) (budget : Nat) : Parser ε σ Expr := do
  let x ← primary (e budget)
  let y ← suffixes limit e budget x
  if ← eats (.keyword .isKw) then
    let negated ← eats (.keyword .notKw)
    let close ← expect (.keyword .definedKw)
    return .isDefined y negated (y.span.join close.span)
  else return y

/-! ## Operators -/

/-- A unary operator: a reference, or one of `UnOp`. -/
inductive Unary where
  | ref
  | op (op : UnOp)

/-- The expression that a unary operator makes of its operand. -/
def Unary.apply (u : Unary) (operand : Expr) (span : Span) : Expr :=
  match u with
  | ref => .ref operand span
  | op o => .unary o operand span

/-- The unary operator that follows, which is not taken.  A minus sign before a number belongs to
    the number. -/
def unary? : Parser ε σ (Option (Unary × Span)) := do
  match ← peek with
  | none => return none
  | some l =>
    match l.token with
    | .bang => return some (.op .not, l.span)
    | .star => return some (.op .deref, l.span)
    | .amp => return some (.ref, l.span)
    | .minus => if ← secondIs .number then return none else return some (.op .neg, l.span)
    | _ => return none

/-- Reads an operand with the unary operators before it; each costs one level. -/
def unary (limit : Nat) (e : Nat → Parser ε σ Expr) (budget : Nat) : Parser ε σ Expr := do
  match ← unary? with
  | none => tested limit e budget
  | some (u, span) =>
    let _ ← next
    match budget with
    | 0 => beyond limit
    | budget + 1 =>
      let operand ← within limit (unary limit e budget)
      return u.apply operand (span.join operand.span)

/-- An operator between operands: a binary operator, or the bar before a filter. -/
inductive Operator where
  | binary (op : BinOp)
  | filter

/-- How tightly the operator binds. -/
def Operator.level : Operator → Nat
  | binary op => op.level
  | filter => filterLevel

/-- The operator that a token stands for between operands. -/
def operator? : Token → Option Operator
  | .orOr => some (.binary .or)
  | .andAnd => some (.binary .and)
  | .eqEq => some (.binary .eq)
  | .ne => some (.binary .ne)
  | .lt => some (.binary .lt)
  | .le => some (.binary .le)
  | .gt => some (.binary .gt)
  | .ge => some (.binary .ge)
  | .keyword .bitOr => some (.binary .bitOr)
  | .keyword .xorKw => some (.binary .xor)
  | .keyword .bitAnd => some (.binary .bitAnd)
  | .shl => some (.binary .shl)
  | .shr => some (.binary .shr)
  | .plus => some (.binary .add)
  | .minus => some (.binary .sub)
  | .tilde => some (.binary .concat)
  | .star => some (.binary .mul)
  | .slash => some (.binary .div)
  | .percent => some (.binary .rem)
  | .pipe => some .filter
  | _ => none

/-- The operator of level `min` or tighter that follows, which is not taken. -/
def operatorFrom? (min : Nat) : Parser ε σ (Option Operator) := do
  return (← peek).bind fun l => (operator? l.token).filter fun op => min ≤ op.level

/-- The filters applied to a value, as one expression over its place and theirs. -/
def filtered (value : Expr) (first : Filter) (rest : List Filter) : Expr :=
  .filter value (first :: rest)
    (rest.foldl (fun s f => s.join f.span) (value.span.join first.span))

/-- Reads operators of level `min` or tighter and their right operands, with `left` before them.
    Each costs one level, which is not given back before the last of them is read. -/
def operators (limit : Nat) (e : Nat → Parser ε σ Expr) (budget : Nat) (min : Nat) (left : Expr) :
    Parser ε σ Expr := do
  match ← operatorFrom? min with
  | none => return left
  | some op =>
    match budget with
    | 0 => beyond limit
    | budget + 1 => within limit do
      let _ ← next
      match op with
      | .filter =>
        let first ← filter (e budget)
        let rest ← many (filter? (e budget))
        operators limit e budget min (filtered left first rest)
      | .binary op =>
        let operand ← unary limit e budget
        let right ← operators limit e budget (op.level + 1) operand
        operators limit e budget min (.binary op left right (left.span.join right.span))

/-- Reads operands joined by operators of any level. -/
def operation (limit : Nat) (e : Nat → Parser ε σ Expr) (budget : Nat) : Parser ε σ Expr := do
  let first ← unary limit e budget
  operators limit e budget 0 first

/-! ## Ranges and full expressions -/

/-- Whether an operand can start with the token.  The word `if` is left out: after an open range it
    begins the condition of a loop. -/
def startsOperand (t : Token) : Bool :=
  match t with
  | .macroName | .pathSep | .lparen | .lbracket | .bang | .star | .minus | .amp => true
  | .keyword .ifKw => false
  | t => isLiteral t || t.isName

/-- Whether a range operator follows, and whether it includes its end. -/
def range? : Parser ε σ (Option Bool) := do
  match ← peek with
  | none => return none
  | some l =>
    match l.token with
    | .dotDot => return some false
    | .dotDotEq => return some true
    | _ => return none

/-- Whether an operand can start with the next lexeme. -/
def operandFollows : Parser ε σ Bool := do
  return (← peek).any fun l => startsOperand l.token

/-- Reads a range from its operator on.  An inclusive range must have an end. -/
def rangeFrom (operand : Parser ε σ Expr) (start : Option Expr) (inclusive : Bool) :
    Parser ε σ Expr := do
  let _ ← next
  let op ← last
  let first := match start with | some x => x.span.start | none => op.start
  let bounded ← if inclusive then pure true else operandFollows
  if bounded then
    let stop ← operand
    return .range start (some stop) inclusive ⟨first, stop.span.stop⟩
  else return .range start none inclusive ⟨first, op.stop⟩

/-- Reads a range, or an operation that no range operator follows.  Ranges do not chain. -/
def ranged (operand : Parser ε σ Expr) : Parser ε σ Expr := do
  match ← range? with
  | some inclusive => rangeFrom operand none inclusive
  | none =>
    let x ← operand
    match ← range? with
    | some inclusive => rangeFrom operand (some x) inclusive
    | none => return x

/-- Reads a full expression with `budget` levels of nesting to go. -/
def exprWithin (limit budget : Nat) : Parser ε σ Expr :=
  match budget with
  | 0 => beyond limit
  | budget + 1 => within limit <|
    ranged (operation limit
      (fun k => if k ≤ budget then exprWithin limit k else beyond limit) budget)
termination_by budget

/-- Without budget there is no expression. -/
theorem exprWithin_zero (limit : Nat) : (exprWithin limit 0 : Parser ε σ Expr) = beyond limit := by
  rw [exprWithin]

/-- An expression is read one level down. -/
theorem exprWithin_succ (limit budget : Nat) :
    (exprWithin limit (budget + 1) : Parser ε σ Expr) = within limit (ranged (operation limit
      (fun k => if k ≤ budget then exprWithin limit k else beyond limit) budget)) := by
  rw [exprWithin]

/-- Reads a full expression; nesting may go `limit` levels deep. -/
def expr (limit : Nat) : Parser ε σ Expr := exprWithin limit limit

end Reader

end Stencil
