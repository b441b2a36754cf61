/-
  Normal — expression trees that can be written down without adding parentheses.

  The operators have levels, and a tree says with its shape which operand belongs to which operator.
  Written down without further parentheses it can only be read back if its shape agrees with the
  levels.  `rank` tells how tightly the outermost construct of a tree binds:

    0        a range
    1 .. 10  a binary operator, one more than its level (`||` is 1, `*` is 10)
    11       a filter
    12       a unary operator or a reference
    13       a test for being defined
    14       everything else: primaries and what is made of them by suffixes

  A node asks for ranks of its operands (`NodeNormal`): the left operand of a binary operator may have
  the rank of the operator, so that chains lean to the left, and the right one must have a higher one.
  Operands in brackets and argument lists may have any rank.  Besides ranks a node asks that its
  names, keys and numbers can be written at all, and for the two spots where the token after an
  operator decides: a minus sign before a number, and the word `if` after an open range.

  A tree is `Normal` if every node of it is.  Many constructs begin with an operand; what holds along
  these left operands is proved by `Normal.left_induction`.
-/
import Stencil.Expr
import Stencil.Proofs.Lexer.Spelling
import Stencil.Reader.Expr

namespace Stencil

variable [Letters]

/-! ## The parts of an expression -/

/-- The expression that the argument passes. -/
def Arg.value : Arg → Expr
  | positional x => x
  | named _ x => x

/-- The name that the argument is passed by. -/
def Arg.name? : Arg → Option Ident
  | positional _ => none
  | named n _ => some n

def Args.items : Args → List Arg
  | mk items _ => items

/-- The expressions that the arguments pass. -/
def Args.values (xs : Args) : List Expr := xs.items.map Arg.value

def Filter.name : Filter → Ident
  | mk name _ _ => name

def Filter.args? : Filter → Option Args
  | mk _ args _ => args

/-- The expressions that are passed to the filter. -/
def Filter.values (f : Filter) : List Expr := (f.args?.map Args.values).getD []

namespace Expr

/-- The expressions directly inside an expression. -/
def children : Expr → List Expr
  | lit .. | var .. | path .. | unit .. => []
  | binary _ a b _ => [a, b]
  | unary _ a _ | ref a _ | attempt a _ | field a _ _ | group a _ | isDefined a _ _ => [a]
  | call f xs _ => f :: xs.values
  | index a i _ => [a, i]
  | range a b _ _ => a.toList ++ b.toList
  | array es _ | tuple es _ => es
  | filter a fs _ => a :: fs.flatMap Filter.values
  | macroCall _ xs _ => xs.values

/-- `e.HasPart x`: the expression `x` is `e` or occurs somewhere inside of it. -/
inductive HasPart : Expr → Expr → Prop
  | self (e : Expr) : HasPart e e
  | child {e c x : Expr} (hc : c ∈ e.children) (hx : HasPart c x) : HasPart e x

/-! ## Ranks and first tokens -/

/-- How tightly the outermost construct binds. -/
def rank : Expr → Nat
  | range .. => 0
  | binary op .. => op.level + 1
  | filter .. => filterLevel + 1
  | unary .. | ref .. => 12
  | isDefined .. => 13
  | _ => 14

end Expr

/-- The token of a binary operator. -/
def BinOp.token : BinOp → Token
  | mul => .star
  | div => .slash
  | rem => .percent
  | concat => .tilde
  | add => .plus
  | sub => .minus
  | shl => .shl
  | shr => .shr
  | bitAnd => .keyword .bitAnd
  | xor => .keyword .xorKw
  | bitOr => .keyword .bitOr
  | eq => .eqEq
  | ne => .ne
  | lt => .lt
  | le => .le
  | gt => .gt
  | ge => .ge
  | and => .andAnd
  | or => .orOr

/-- The token of a unary operator. -/
def UnOp.token : UnOp → Token
  | not => .bang
  | deref => .star
  | neg => .minus

/-- The token of a range operator. -/
def rangeToken (inclusive : Bool) : Token := if inclusive then .dotDotEq else .dotDot

/-- The token of a truth value. -/
def boolToken (b : Bool) : Token := .keyword (if b then .trueKw else .falseKw)

/-- The token that the constant begins with. -/
def Literal.firstToken : Literal → Token
  | str _ => .str
  | char _ => .char
  | num n => if n.negative then .minus else .number
  | bool b => boolToken b

/-- The token that a path begins with; `mark` is the token of a last segment that stands alone. -/
def Path.firstToken (p : Path) (mark : Token) : Token :=
  if p.global then .pathSep
  else
    match p.segments with
    | [] => mark
    | [_] => mark
    | i :: _ => wordToken i.name

/-- The token that the expression begins with. -/
def Expr.firstToken : Expr → Token
  | lit v _ => v.firstToken
  | var n _ => wordToken n
  | path p _ => p.firstToken .ident
  | binary _ a _ _ => a.firstToken
  | unary op _ _ => op.token
  | ref .. => .amp
  | attempt a _ => a.firstToken
  | call f _ _ => f.firstToken
  | field a _ _ => a.firstToken
  | index a _ _ => a.firstToken
  | range (some a) _ _ _ => a.firstToken
  | range none _ inclusive _ => rangeToken inclusive
  | array .. => .lbracket
  | tuple .. | unit .. | group .. => .lparen
  | filter a _ _ => a.firstToken
  | isDefined a _ _ => a.firstToken
  | macroCall p _ _ => p.firstToken .macroName

/-! ## Normal form -/

/-- A number that can be written, and is read back as the same number. -/
def Number.IsWritten (n : Number) : Prop :=
  isNumeral n.raw.toList = true ∧ Numeral.number? n.raw.toList n.negative = some n

/-- A word of any kind, or an index that is not too large. -/
def Key.IsWritten : Key → Prop
  | name i => isWord i.name.toList = true
  | index v _ => v < Reader.indexBound

/-- The names of arguments are names. -/
def Args.NamesOk (xs : Args) : Prop := ∀ a ∈ xs.items, ∀ n ∈ a.name?, isName n.name = true

/-- The names in a filter are names. -/
def Filter.NamesOk (f : Filter) : Prop :=
  isName f.name.name = true ∧ ∀ xs ∈ f.args?, xs.NamesOk

/-- The path of a macro call: names, and a last segment that is no keyword. -/
def Path.IsMacro (p : Path) : Prop :=
  ∃ front last, p.segments = front ++ [last] ∧ (∀ i ∈ front, isName i.name = true) ∧
    isPlainWord last.name = true

/-- A path that is not a plain variable. -/
def Path.IsLong (p : Path) : Prop :=
  (∀ i ∈ p.segments, isName i.name = true) ∧ (if p.global then 1 else 2) ≤ p.segments.length

/-- What a node asks of its operands and of what is written in it. -/
def Expr.NodeNormal : Expr → Prop
  | lit (.num n) _ => n.IsWritten
  | lit _ _ => True
  | var n _ => isName n = true
  | path p _ => p.IsLong
  | binary op a b _ => op.level + 1 ≤ a.rank ∧ op.level + 1 < b.rank
  | unary op a _ => 12 ≤ a.rank ∧ (op = .neg → a.firstToken ≠ .number)
  | ref a _ => 12 ≤ a.rank
  | attempt a _ => a.rank = 14
  | call f xs _ => f.rank = 14 ∧ xs.NamesOk
  | field a k _ => a.rank = 14 ∧ k.IsWritten
  | index a _ _ => a.rank = 14
  | range a b inclusive _ =>
    (∀ x ∈ a, 0 < x.rank) ∧ (∀ x ∈ b, 0 < x.rank) ∧ (inclusive = true → b.isSome = true) ∧
      (inclusive = false → ∀ x ∈ b, x.firstToken ≠ .keyword .ifKw)
  | array .. | unit .. | group .. => True
  | tuple es _ => es ≠ []
  | filter a fs _ => 12 ≤ a.rank ∧ fs ≠ [] ∧ ∀ f ∈ fs, f.NamesOk
  | isDefined a _ _ => a.rank = 14
  | macroCall p xs _ => p.IsMacro ∧ xs.NamesOk

/-- Every node of the tree is normal. -/
inductive Expr.Normal : Expr → Prop
  | mk {e : Expr} (node : e.NodeNormal) (children : ∀ c ∈ e.children, Normal c) : Normal e

theorem Expr.Normal.node {e : Expr} (h : e.Normal) : e.NodeNormal := by
  cases h with
  | mk node _ => exact node

theorem Expr.Normal.child {e c : Expr} (h : e.Normal) (hc : c ∈ e.children) : c.Normal := by
  cases h with
  | mk _ children => exact children c hc

theorem Expr.Normal.part {e x : Expr} (h : e.Normal) (hx : e.HasPart x) : x.Normal := by
  induction hx with
  | self e => exact h
  | child hc _ ih => exact ih (h.child hc)

/-! ## Left operands -/

namespace Expr

/-- The operand that the construct begins with, unless it begins with a lexeme of its own. -/
def left? : Expr → Option Expr
  | binary _ a _ _ | attempt a _ | call a _ _ | field a _ _ | index a _ _ | filter a _ _
  | isDefined a _ _ => some a
  | range a _ _ _ => a
  | _ => none

omit [Letters] in
theorem left?_mem_children {e x : Expr} (h : e.left? = some x) : x ∈ e.children := by
  cases e with
  | range a b i s =>
    obtain rfl : a = some x := h
    exact List.mem_cons_self
  | binary op a b s => cases h; exact List.mem_cons_self
  | attempt a s => cases h; exact List.mem_cons_self
  | call f xs s => cases h; exact List.mem_cons_self
  | field a k s => cases h; exact List.mem_cons_self
  | index a i s => cases h; exact List.mem_cons_self
  | filter a fs s => cases h; exact List.mem_cons_self
  | isDefined a n s => cases h; exact List.mem_cons_self
  | _ => cases h

/-- What holds of the constructs that begin with a lexeme of their own, and passes from a left operand
    to the construct, holds of every normal expression. -/
theorem Normal.left_induction {motive : (e : Expr) → e.Normal → Prop}
    (own : ∀ (e : Expr) (hn : e.Normal), e.left? = none → motive e hn)
    (left : ∀ (e x : Expr) (hn : e.Normal) (hleft : e.left? = some x),
      motive x (hn.child (left?_mem_children hleft)) → motive e hn)
    {e : Expr} (he : e.Normal) : motive e he := by
  induction he with
  | @mk e node children ih =>
    cases hleft : e.left? with
    | none => exact own e (.mk node children) hleft
    | some x => exact left e x (.mk node children) hleft (ih x (left?_mem_children hleft))

omit [Letters] in
theorem firstToken_left {e x : Expr} (h : e.left? = some x) : e.firstToken = x.firstToken := by
  cases e with
  | range a b i s =>
    obtain rfl : a = some x := h
    rfl
  | binary op a b s => cases h; rfl
  | attempt a s => cases h; rfl
  | call f xs s => cases h; rfl
  | field a k s => cases h; rfl
  | index a i s => cases h; rfl
  | filter a fs s => cases h; rfl
  | isDefined a n s => cases h; rfl
  | _ => cases h

end Expr

end Stencil
