/-
  Place — moving the places that a value remembers.

  Everything that is read from a source remembers offsets of that source.  `move g x` is the value
  `x` with every offset `n` in it replaced by `g n`, and nothing else changed.  Two moves matter:
    * `move (· + k)` gives the value as it would be read from a source with `k` more bytes in front;
    * `move (fun _ => 0)` forgets all places, so two values agree up to their places when these
      images are equal (`bare`).
  What has no place moves by standing still.

  A span is joined from spans by `min` and `max`, so joining commutes with every move that keeps the
  order of offsets; both moves above do.
-/
import Stencil.Lexeme
import Stencil.Template
import Mathlib.Order.MinMax

namespace Stencil

/-- Values that remember places: `move g` sends every offset `n` in them to `g n`. -/
class Placed (α : Type) where
  move : (Nat → Nat) → α → α

export Placed (move)

/-! ## Values without places -/

instance : Placed Bool := ⟨fun _ b => b⟩
instance : Placed Char := ⟨fun _ c => c⟩
instance : Placed String := ⟨fun _ s => s⟩
instance : Placed Literal := ⟨fun _ v => v⟩

/-! ## Containers -/

instance {α : Type} [Placed α] : Placed (Option α) := ⟨fun g => Option.map (move g)⟩
instance {α : Type} [Placed α] : Placed (List α) := ⟨fun g => List.map (move g)⟩
instance {α β : Type} [Placed α] [Placed β] : Placed (α × β) :=
  ⟨fun g p => (move g p.1, move g p.2)⟩

/-! ## Spans, diagnostics and lexemes -/

instance : Placed Span := ⟨fun g s => ⟨g s.start, g s.stop⟩⟩
instance : Placed Diagnostic := ⟨fun g d => { d with span := move g d.span }⟩
instance : Placed Lexeme := ⟨fun g l => { l with span := move g l.span }⟩
instance : Placed Lexer := ⟨fun g lx => { lx with pos := g lx.pos }⟩

/-! ## Trees -/

instance : Placed Ident := ⟨fun g i => { i with span := move g i.span }⟩
instance : Placed TextLit := ⟨fun g t => { t with span := move g t.span }⟩
instance : Placed Path :=
  ⟨fun g p => { p with segments := move g p.segments, span := move g p.span }⟩

instance : Placed Key where
  move g
    | .name i => .name (move g i)
    | .index v s => .index v (move g s)

mutual

/-- The expression with its places moved. -/
def Expr.moved (g : Nat → Nat) : Expr → Expr
  | .lit v s => .lit v (move g s)
  | .var n s => .var n (move g s)
  | .path p s => .path (move g p) (move g s)
  | .binary o a b s => .binary o (a.moved g) (b.moved g) (move g s)
  | .unary o a s => .unary o (a.moved g) (move g s)
  | .ref a s => .ref (a.moved g) (move g s)
  | .attempt a s => .attempt (a.moved g) (move g s)
  | .call f xs s => .call (f.moved g) (xs.moved g) (move g s)
  | .field a k s => .field (a.moved g) (move g k) (move g s)
  | .index a i s => .index (a.moved g) (i.moved g) (move g s)
  | .range a b i s => .range (Expr.movedOption g a) (Expr.movedOption g b) i (move g s)
  | .array es s => .array (Expr.movedList g es) (move g s)
  | .tuple es s => .tuple (Expr.movedList g es) (move g s)
  | .unit s => .unit (move g s)
  | .group a s => .group (a.moved g) (move g s)
  | .filter a fs s => .filter (a.moved g) (Filter.movedList g fs) (move g s)
  | .isDefined a n s => .isDefined (a.moved g) n (move g s)
  | .macroCall p xs s => .macroCall (move g p) (xs.moved g) (move g s)

def Expr.movedOption (g : Nat → Nat) : Option Expr → Option Expr
  | none => none
  | some a => some (a.moved g)

def Expr.movedList (g : Nat → Nat) : List Expr → List Expr
  | [] => []
  | a :: as => a.moved g :: Expr.movedList g as

def Args.moved (g : Nat → Nat) : Args → Args
  | .mk xs s => .mk (Arg.movedList g xs) (move g s)

def Arg.movedList (g : Nat → Nat) : List Arg → List Arg
  | [] => []
  | a :: as => a.moved g :: Arg.movedList g as

def Arg.moved (g : Nat → Nat) : Arg → Arg
  | .positional a => .positional (a.moved g)
  | .named n a => .named (move g n) (a.moved g)

def Filter.moved (g : Nat → Nat) : Filter → Filter
  | .mk n xs s => .mk (move g n) (Args.movedOption g xs) (move g s)

def Args.movedOption (g : Nat → Nat) : Option Args → Option Args
  | none => none
  | some a => some (a.moved g)

def Filter.movedList (g : Nat → Nat) : List Filter → List Filter
  | [] => []
  | a :: as => a.moved g :: Filter.movedList g as

end

instance : Placed Expr := ⟨Expr.moved⟩
instance : Placed Args := ⟨Args.moved⟩
instance : Placed Arg := ⟨Arg.moved⟩
instance : Placed Filter := ⟨Filter.moved⟩

mutual

/-- The pattern with its places moved. -/
def Pattern.moved (g : Nat → Nat) : Pattern → Pattern
  | .lit v s => .lit v (move g s)
  | .ident n s => .ident n (move g s)
  | .path p s => .path (move g p) (move g s)
  | .placeholder s => .placeholder (move g s)
  | .rest s => .rest (move g s)
  | .tupleStruct p es s => .tupleStruct (move g p) (Pattern.movedList g es) (move g s)
  | .struct p fs s => .struct (move g p) (FieldPattern.movedList g fs) (move g s)
  | .tuple es s => .tuple (Pattern.movedList g es) (move g s)
  | .slice es s => .slice (Pattern.movedList g es) (move g s)
  | .alternatives es s => .alternatives (Pattern.movedList g es) (move g s)
  | .destructured b es s => .destructured (b.moved g) (Pattern.movedList g es) (move g s)

def Pattern.movedList (g : Nat → Nat) : List Pattern → List Pattern
  | [] => []
  | a :: as => a.moved g :: Pattern.movedList g as

def Pattern.movedOption (g : Nat → Nat) : Option Pattern → Option Pattern
  | none => none
  | some a => some (a.moved g)

def FieldPattern.moved (g : Nat → Nat) : FieldPattern → FieldPattern
  | .field n p => .field (move g n) (Pattern.movedOption g p)
  | .rest s => .rest (move g s)

def FieldPattern.movedList (g : Nat → Nat) : List FieldPattern → List FieldPattern
  | [] => []
  | a :: as => a.moved g :: FieldPattern.movedList g as

end

instance : Placed Pattern := ⟨Pattern.moved⟩
instance : Placed FieldPattern := ⟨FieldPattern.moved⟩

instance : Placed Cond where
  move g
    | .expr c => .expr (move g c)
    | .bind p v => .bind (move g p) (move g v)

instance : Placed Param := ⟨fun g p => ⟨move g p.name, move g p.default⟩⟩

instance : Placed StmtKind where
  move g
    | .block n => .block (move g n)
    | .endBlock n => .endBlock (move g n)
    | .extendFrom p => .extendFrom (move g p)
    | .includeFrom p => .includeFrom (move g p)
    | .importAs p n => .importAs (move g p) (move g n)
    | .assign w m p v => .assign w m (move g p) (move g v)
    | .forLoop p e c => .forLoop (move g p) (move g e) (move g c)
    | .endFor => .endFor
    | .breakLoop => .breakLoop
    | .continueLoop => .continueLoop
    | .ifCond c => .ifCond (move g c)
    | .elseIf c => .elseIf (move g c)
    | .elseCond => .elseCond
    | .endIf => .endIf
    | .matchOn e => .matchOn (move g e)
    | .endMatch => .endMatch
    | .whenArm p => .whenArm (move g p)
    | .endWhen => .endWhen
    | .macroDef n ps => .macroDef (move g n) (move g ps)
    | .endMacro n => .endMacro (move g n)
    | .callBlock bs c => .callBlock (move g bs) (move g c)
    | .endCall => .endCall
    | .filterBlock fs => .filterBlock (move g fs)
    | .endFilter => .endFilter
    | .raw => .raw
    | .endRaw => .endRaw

instance : Placed Stmt := ⟨fun g s => ⟨move g s.kind, move g s.span⟩⟩

instance : Placed Node where
  move g
    | .content t s => .content t (move g s)
    | .comment t s => .comment t (move g s)
    | .tag st t s => .tag (move g st) t (move g s)
    | .expr e t s => .expr (move g e) t (move g s)
    | .raw t s => .raw t (move g s)
    | .error s => .error (move g s)

/-- The value with all places forgotten. -/
def bare {α : Type} [Placed α] (x : α) : α := move (fun _ => 0) x

/-! ## Lists and options inside trees -/

variable (g : Nat → Nat)

theorem Expr.movedOption_eq (a : Option Expr) : Expr.movedOption g a = move g a := by
  cases a <;> rfl

theorem Args.movedOption_eq (a : Option Args) : Args.movedOption g a = move g a := by
  cases a <;> rfl

theorem Pattern.movedOption_eq (a : Option Pattern) : Pattern.movedOption g a = move g a := by
  cases a <;> rfl

theorem Expr.movedList_eq (as : List Expr) : Expr.movedList g as = move g as := by
  induction as with
  | nil => rfl
  | cons a as ih => rw [Expr.movedList, ih]; rfl

theorem Arg.movedList_eq (as : List Arg) : Arg.movedList g as = move g as := by
  induction as with
  | nil => rfl
  | cons a as ih => rw [Arg.movedList, ih]; rfl

theorem Filter.movedList_eq (as : List Filter) : Filter.movedList g as = move g as := by
  induction as with
  | nil => rfl
  | cons a as ih => rw [Filter.movedList, ih]; rfl

theorem Pattern.movedList_eq (as : List Pattern) : Pattern.movedList g as = move g as := by
  induction as with
  | nil => rfl
  | cons a as ih => rw [Pattern.movedList, ih]; rfl

theorem FieldPattern.movedList_eq (as : List FieldPattern) :
    FieldPattern.movedList g as = move g as := by
  induction as with
  | nil => rfl
  | cons a as ih => rw [FieldPattern.movedList, ih]; rfl

theorem Args.move_mk (xs : List Arg) (s : Span) :
    move g (Args.mk xs s) = .mk (move g xs) (move g s) := by
  rw [← Arg.movedList_eq]; rfl

theorem Filter.move_mk (n : Ident) (xs : Option Args) (s : Span) :
    move g (Filter.mk n xs s) = .mk (move g n) (move g xs) (move g s) := by
  rw [← Args.movedOption_eq]; rfl

theorem Expr.move_range (a b : Option Expr) (i : Bool) (s : Span) :
    move g (Expr.range a b i s) = .range (move g a) (move g b) i (move g s) := by
  rw [← Expr.movedOption_eq, ← Expr.movedOption_eq]; rfl

theorem Expr.move_array (es : List Expr) (s : Span) :
    move g (Expr.array es s) = .array (move g es) (move g s) := by
  rw [← Expr.movedList_eq]; rfl

theorem Expr.move_tuple (es : List Expr) (s : Span) :
    move g (Expr.tuple es s) = .tuple (move g es) (move g s) := by
  rw [← Expr.movedList_eq]; rfl

theorem Expr.move_filter (a : Expr) (fs : List Filter) (s : Span) :
    move g (Expr.filter a fs s) = .filter (move g a) (move g fs) (move g s) := by
  rw [← Filter.movedList_eq]; rfl

theorem Pattern.move_tupleStruct (p : Path) (es : List Pattern) (s : Span) :
    move g (Pattern.tupleStruct p es s) = .tupleStruct (move g p) (move g es) (move g s) := by
  rw [← Pattern.movedList_eq]; rfl

theorem Pattern.move_struct (p : Path) (fs : List FieldPattern) (s : Span) :
    move g (Pattern.struct p fs s) = .struct (move g p) (move g fs) (move g s) := by
  rw [← FieldPattern.movedList_eq]; rfl

theorem Pattern.move_tuple (es : List Pattern) (s : Span) :
    move g (Pattern.tuple es s) = .tuple (move g es) (move g s) := by
  rw [← Pattern.movedList_eq]; rfl

theorem Pattern.move_slice (es : List Pattern) (s : Span) :
    move g (Pattern.slice es s) = .slice (move g es) (move g s) := by
  rw [← Pattern.movedList_eq]; rfl

theorem Pattern.move_alternatives (es : List Pattern) (s : Span) :
    move g (Pattern.alternatives es s) = .alternatives (move g es) (move g s) := by
  rw [← Pattern.movedList_eq]; rfl

theorem Pattern.move_destructured (b : Pattern) (es : List Pattern) (s : Span) :
    move g (Pattern.destructured b es s) = .destructured (move g b) (move g es) (move g s) := by
  rw [← Pattern.movedList_eq]; rfl

/-! ## The place of a moved tree -/

theorem Expr.span_move (e : Expr) : (move g e).span = move g e.span := by
  cases e <;> rfl

theorem Args.span_move (a : Args) : (move g a).span = move g a.span := by
  cases a; rfl

theorem Filter.span_move (f : Filter) : (move g f).span = move g f.span := by
  cases f; rfl

theorem Pattern.span_move (p : Pattern) : (move g p).span = move g p.span := by
  cases p <;> rfl

theorem Key.span_move (k : Key) : (move g k).span = move g k.span := by
  cases k <;> rfl

variable {g}

/-- A move that keeps the order of offsets moves the join of two spans to the join of the moved
    spans. -/
theorem Span.move_join (hg : Monotone g) (a b : Span) :
    move g (a.join b) = (move g a).join (move g b) := by
  show (⟨g (min a.start b.start), g (max a.stop b.stop)⟩ : Span) =
    ⟨min (g a.start) (g b.start), max (g a.stop) (g b.stop)⟩
  rw [hg.map_min, hg.map_max]

end Stencil
