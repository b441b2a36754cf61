/-
  Respan — replacing the spans of a tree.

  `respan f x` is the value `x` with every span `s` in it replaced by `f s`, and nothing else changed.
  To move offsets (`move g`, `Stencil.Proofs.Place`) is to replace the spans in such a way that starts
  and ends move alike; here they need not.

  The one fact about it says when replacing spans undoes a move.  A part that was read from a source is
  restored by `f` after `move g` if every span is that marks a text of the source
  (`Part.Sits.restores`); the induction is the one that `Part.Sits` carries, so each kind of part only
  has to be put together again from its children and its own span.
-/
import Stencil.Proofs.Part.Basic
import Stencil.Proofs.Place

namespace Stencil

/-- Values with spans in them: `respan f` replaces every span `s` by `f s`. -/
class Spanned (α : Type) where
  respan : (Span → Span) → α → α

export Spanned (respan)

/-! ## Containers -/

instance {α : Type} [Spanned α] : Spanned (Option α) := ⟨fun f => Option.map (respan f)⟩
instance {α : Type} [Spanned α] : Spanned (List α) := ⟨fun f => List.map (respan f)⟩

/-! ## Trees -/

instance : Spanned Ident := ⟨fun f i => { i with span := f i.span }⟩
instance : Spanned TextLit := ⟨fun f t => { t with span := f t.span }⟩
instance : Spanned Path := ⟨fun f p => { p with segments := respan f p.segments, span := f p.span }⟩

instance : Spanned Key where
  respan f
    | .name i => .name (respan f i)
    | .index v s => .index v (f s)

mutual

/-- The expression with its spans replaced. -/
def Expr.respanned (f : Span → Span) : Expr → Expr
  | .lit v s => .lit v (f s)
  | .var n s => .var n (f s)
  | .path p s => .path (respan f p) (f s)
  | .binary o a b s => .binary o (a.respanned f) (b.respanned f) (f s)
  | .unary o a s => .unary o (a.respanned f) (f s)
  | .ref a s => .ref (a.respanned f) (f s)
  | .attempt a s => .attempt (a.respanned f) (f s)
  | .call c xs s => .call (c.respanned f) (xs.respanned f) (f s)
  | .field a k s => .field (a.respanned f) (respan f k) (f s)
  | .index a i s => .index (a.respanned f) (i.respanned f) (f s)
  | .range a b i s => .range (Expr.respannedOption f a) (Expr.respannedOption f b) i (f s)
  | .array es s => .array (Expr.respannedList f es) (f s)
  | .tuple es s => .tuple (Expr.respannedList f es) (f s)
  | .unit s => .unit (f s)
  | .group a s => .group (a.respanned f) (f s)
  | .filter a fs s => .filter (a.respanned f) (Filter.respannedList f fs) (f s)
  | .isDefined a n s => .isDefined (a.respanned f) n (f s)
  | .macroCall p xs s => .macroCall (respan f p) (xs.respanned f) (f s)

def Expr.respannedOption (f : Span → Span) : Option Expr → Option Expr
  | none => none
  | some a => some (a.respanned f)

def Expr.respannedList (f : Span → Span) : List Expr → List Expr
  | [] => []
  | a :: as => a.respanned f :: Expr.respannedList f as

def Args.respanned (f : Span → Span) : Args → Args
  | .mk xs s => .mk (Arg.respannedList f xs) (f s)

def Arg.respannedList (f : Span → Span) : List Arg → List Arg
  | [] => []
  | a :: as => a.respanned f :: Arg.respannedList f as

def Arg.respanned (f : Span → Span) : Arg → Arg
  | .positional a => .positional (a.respanned f)
  | .named n a => .named (respan f n) (a.respanned f)

def Filter.respanned (f : Span → Span) : Filter → Filter
  | .mk n xs s => .mk (respan f n) (Args.respannedOption f xs) (f s)

def Args.respannedOption (f : Span → Span) : Option Args → Option Args
  | none => none
  | some a => some (a.respanned f)

def Filter.respannedList (f : Span → Span) : List Filter → List Filter
  | [] => []
  | a :: as => a.respanned f :: Filter.respannedList f as

end

instance : Spanned Expr := ⟨Expr.respanned⟩
instance : Spanned Args := ⟨Args.respanned⟩
instance : Spanned Arg := ⟨Arg.respanned⟩
instance : Spanned Filter := ⟨Filter.respanned⟩

mutual

/-- The pattern with its spans replaced. -/
def Pattern.respanned (f : Span → Span) : Pattern → Pattern
  | .lit v s => .lit v (f s)
  | .ident n s => .ident n (f s)
  | .path p s => .path (respan f p) (f s)
  | .placeholder s => .placeholder (f s)
  | .rest s => .rest (f s)
  | .tupleStruct p es s => .tupleStruct (respan f p) (Pattern.respannedList f es) (f s)
  | .struct p fs s => .struct (respan f p) (FieldPattern.respannedList f fs) (f s)
  | .tuple es s => .tuple (Pattern.respannedList f es) (f s)
  | .slice es s => .slice (Pattern.respannedList f es) (f s)
  | .alternatives es s => .alternatives (Pattern.respannedList f es) (f s)
  | .destructured b es s => .destructured (b.respanned f) (Pattern.respannedList f es) (f s)

def Pattern.respannedList (f : Span → Span) : List Pattern → List Pattern
  | [] => []
  | a :: as => a.respanned f :: Pattern.respannedList f as

def Pattern.respannedOption (f : Span → Span) : Option Pattern → Option Pattern
  | none => none
  | some a => some (a.respanned f)

def FieldPattern.respanned (f : Span → Span) : FieldPattern → FieldPattern
  | .field n p => .field (respan f n) (Pattern.respannedOption f p)
  | .rest s => .rest (f s)

def FieldPattern.respannedList (f : Span → Span) : List FieldPattern → List FieldPattern
  | [] => []
  | a :: as => a.respanned f :: FieldPattern.respannedList f as

end

instance : Spanned Pattern := ⟨Pattern.respanned⟩
instance : Spanned FieldPattern := ⟨FieldPattern.respanned⟩

instance : Spanned Cond where
  respan f
    | .expr c => .expr (respan f c)
    | .bind p v => .bind (respan f p) (respan f v)

instance : Spanned Param := ⟨fun f p => ⟨respan f p.name, respan f p.default⟩⟩

instance : Spanned StmtKind where
  respan f
    | .block n => .block (respan f n)
    | .endBlock n => .endBlock (respan f n)
    | .extendFrom p => .extendFrom (respan f p)
    | .includeFrom p => .includeFrom (respan f p)
    | .importAs p n => .importAs (respan f p) (respan f n)
    | .assign w m p v => .assign w m (respan f p) (respan f v)
    | .forLoop p e c => .forLoop (respan f p) (respan f e) (respan f c)
    | .endFor => .endFor
    | .breakLoop => .breakLoop
    | .continueLoop => .continueLoop
    | .ifCond c => .ifCond (respan f c)
    | .elseIf c => .elseIf (respan f c)
    | .elseCond => .elseCond
    | .endIf => .endIf
    | .matchOn e => .matchOn (respan f e)
    | .endMatch => .endMatch
    | .whenArm p => .whenArm (respan f p)
    | .endWhen => .endWhen
    | .macroDef n ps => .macroDef (respan f n) (respan f ps)
    | .endMacro n => .endMacro (respan f n)
    | .callBlock bs c => .callBlock (respan f bs) (respan f c)
    | .endCall => .endCall
    | .filterBlock fs => .filterBlock (respan f fs)
    | .endFilter => .endFilter
    | .raw => .raw
    | .endRaw => .endRaw

instance : Spanned Stmt := ⟨fun f s => ⟨respan f s.kind, f s.span⟩⟩

instance : Spanned Node where
  respan f
    | .content t s => .content t (f s)
    | .comment t s => .comment t (f s)
    | .tag st t s => .tag (respan f st) t (f s)
    | .expr e t s => .expr (respan f e) t (f s)
    | .raw t s => .raw t (f s)
    | .error s => .error (f s)

/-! ## Lists and options inside trees -/

section

variable (f : Span → Span)

theorem Expr.respannedOption_eq (a : Option Expr) : Expr.respannedOption f a = respan f a := by
  cases a <;> rfl

theorem Args.respannedOption_eq (a : Option Args) : Args.respannedOption f a = respan f a := by
  cases a <;> rfl

theorem Pattern.respannedOption_eq (a : Option Pattern) : Pattern.respannedOption f a = respan f a := by
  cases a <;> rfl

theorem Expr.respannedList_eq (as : List Expr) : Expr.respannedList f as = respan f as := by
  induction as with
  | nil => rfl
  | cons a as ih => rw [Expr.respannedList, ih]; rfl

theorem Arg.respannedList_eq (as : List Arg) : Arg.respannedList f as = respan f as := by
  induction as with
  | nil => rfl
  | cons a as ih => rw [Arg.respannedList, ih]; rfl

theorem Filter.respannedList_eq (as : List Filter) : Filter.respannedList f as = respan f as := by
  induction as with
  | nil => rfl
  | cons a as ih => rw [Filter.respannedList, ih]; rfl

theorem Pattern.respannedList_eq (as : List Pattern) : Pattern.respannedList f as = respan f as := by
  induction as with
  | nil => rfl
  | cons a as ih => rw [Pattern.respannedList, ih]; rfl

theorem FieldPattern.respannedList_eq (as : List FieldPattern) :
    FieldPattern.respannedList f as = respan f as := by
  induction as with
  | nil => rfl
  | cons a as ih => rw [FieldPattern.respannedList, ih]; rfl

theorem Args.respan_mk (xs : List Arg) (s : Span) :
    respan f (Args.mk xs s) = .mk (respan f xs) (f s) := by
  rw [← Arg.respannedList_eq]; rfl

theorem Filter.respan_mk (n : Ident) (xs : Option Args) (s : Span) :
    respan f (Filter.mk n xs s) = .mk (respan f n) (respan f xs) (f s) := by
  rw [← Args.respannedOption_eq]; rfl

theorem Expr.respan_range (a b : Option Expr) (i : Bool) (s : Span) :
    respan f (Expr.range a b i s) = .range (respan f a) (respan f b) i (f s) := by
  rw [← Expr.respannedOption_eq, ← Expr.respannedOption_eq]; rfl

theorem Expr.respan_array (es : List Expr) (s : Span) :
    respan f (Expr.array es s) = .array (respan f es) (f s) := by
  rw [← Expr.respannedList_eq]; rfl

theorem Expr.respan_tuple (es : List Expr) (s : Span) :
    respan f (Expr.tuple es s) = .tuple (respan f es) (f s) := by
  rw [← Expr.respannedList_eq]; rfl

theorem Expr.respan_filter (a : Expr) (fs : List Filter) (s : Span) :
    respan f (Expr.filter a fs s) = .filter (respan f a) (respan f fs) (f s) := by
  rw [← Filter.respannedList_eq]; rfl

theorem Pattern.respan_tupleStruct (p : Path) (es : List Pattern) (s : Span) :
    respan f (Pattern.tupleStruct p es s) = .tupleStruct (respan f p) (respan f es) (f s) := by
  rw [← Pattern.respannedList_eq]; rfl

theorem Pattern.respan_struct (p : Path) (fs : List FieldPattern) (s : Span) :
    respan f (Pattern.struct p fs s) = .struct (respan f p) (respan f fs) (f s) := by
  rw [← FieldPattern.respannedList_eq]; rfl

theorem Pattern.respan_tuple (es : List Pattern) (s : Span) :
    respan f (Pattern.tuple es s) = .tuple (respan f es) (f s) := by
  rw [← Pattern.respannedList_eq]; rfl

theorem Pattern.respan_slice (es : List Pattern) (s : Span) :
    respan f (Pattern.slice es s) = .slice (respan f es) (f s) := by
  rw [← Pattern.respannedList_eq]; rfl

theorem Pattern.respan_alternatives (es : List Pattern) (s : Span) :
    respan f (Pattern.alternatives es s) = .alternatives (respan f es) (f s) := by
  rw [← Pattern.respannedList_eq]; rfl

theorem Pattern.respan_destructured (b : Pattern) (es : List Pattern) (s : Span) :
    respan f (Pattern.destructured b es s) = .destructured (respan f b) (respan f es) (f s) := by
  rw [← Pattern.respannedList_eq]; rfl

theorem FieldPattern.respan_field (n : Ident) (p : Option Pattern) :
    respan f (FieldPattern.field n p) = .field (respan f n) (respan f p) := by
  rw [← Pattern.respannedOption_eq]; rfl

end

theorem FieldPattern.move_field (g : Nat → Nat) (n : Ident) (p : Option Pattern) :
    move g (FieldPattern.field n p) = .field (move g n) (move g p) := by
  rw [← Pattern.movedOption_eq]; rfl

/-! ## Undoing a move -/

/-- Replacing spans by `f` undoes the move by `g`. -/
def Restores {α : Type} [Placed α] [Spanned α] (f : Span → Span) (g : Nat → Nat) (x : α) : Prop :=
  respan f (move g x) = x

variable {f : Span → Span} {g : Nat → Nat}

namespace Restores

variable {α : Type} [Placed α] [Spanned α]

theorem list {xs : List α} (h : ∀ x ∈ xs, Restores f g x) : Restores f g xs := by
  show (xs.map (move g)).map (respan f) = xs
  rw [List.map_map]
  exact (List.map_congr_left h).trans (List.map_id xs)

theorem option {x : Option α} (h : ∀ y ∈ x.toList, Restores f g y) : Restores f g x := by
  cases x with
  | none => rfl
  | some y => exact congrArg some (h y List.mem_cons_self)

end Restores

/-! ## Parts -/

instance : Placed Part where
  move g
    | .stmt s => .stmt (move g s)
    | .expr e => .expr (move g e)
    | .pattern p => .pattern (move g p)
    | .path p => .path (move g p)
    | .ident i => .ident (move g i)
    | .key k => .key (move g k)
    | .args xs => .args (move g xs)
    | .filter x => .filter (move g x)
    | .text t => .text (move g t)
    | .rest s => .rest (move g s)

instance : Spanned Part where
  respan f
    | .stmt s => .stmt (respan f s)
    | .expr e => .expr (respan f e)
    | .pattern p => .pattern (respan f p)
    | .path p => .path (respan f p)
    | .ident i => .ident (respan f i)
    | .key k => .key (respan f k)
    | .args xs => .args (respan f xs)
    | .filter x => .filter (respan f x)
    | .text t => .text (respan f t)
    | .rest s => .rest (f s)

/-- All the parts are restored. -/
def RestoresAll (f : Span → Span) (g : Nat → Nat) (ps : List Part) : Prop := ∀ p ∈ ps, Restores f g p

namespace RestoresAll

variable {ps qs : List Part} {p : Part}

theorem head (h : RestoresAll f g (p :: ps)) : Restores f g p := h p List.mem_cons_self

theorem tail (h : RestoresAll f g (p :: ps)) : RestoresAll f g ps :=
  fun q hq => h q (List.mem_cons_of_mem p hq)

theorem left (h : RestoresAll f g (ps ++ qs)) : RestoresAll f g ps :=
  fun q hq => h q (List.mem_append_left qs hq)

theorem right (h : RestoresAll f g (ps ++ qs)) : RestoresAll f g qs :=
  fun q hq => h q (List.mem_append_right ps hq)

variable {α : Type} [Placed α] [Spanned α]

/-- Items that are parts. -/
theorem list {make : α → Part} {xs : List α} (h : RestoresAll f g (xs.map make))
    (hmake : ∀ x, Restores f g (make x) → Restores f g x) : Restores f g xs :=
  .list fun x hx => hmake x (h (make x) (List.mem_map_of_mem hx))

/-- Items that consist of parts. -/
theorem flatList {parts : α → List Part} {xs : List α} (h : RestoresAll f g (xs.flatMap parts))
    (hparts : ∀ x, RestoresAll f g (parts x) → Restores f g x) : Restores f g xs :=
  .list fun x hx => hparts x fun p hp => h p (List.mem_flatMap.2 ⟨x, hx, hp⟩)

/-- An item that there need not be. -/
theorem option {make : α → Part} {x : Option α} (h : RestoresAll f g (x.toList.map make))
    (hmake : ∀ x, Restores f g (make x) → Restores f g x) : Restores f g x :=
  .option fun y hy => hmake y (h (make y) (List.mem_map_of_mem hy))

end RestoresAll

/-! ## Trees from their parts -/

theorem Ident.restores {i : Ident} (h : Restores f g (Part.ident i)) : Restores f g i := Part.ident.inj h
theorem Path.restores {p : Path} (h : Restores f g (Part.path p)) : Restores f g p := Part.path.inj h
theorem Key.restores {k : Key} (h : Restores f g (Part.key k)) : Restores f g k := Part.key.inj h
theorem Args.restores {xs : Args} (h : Restores f g (Part.args xs)) : Restores f g xs := Part.args.inj h
theorem Filter.restores {x : Filter} (h : Restores f g (Part.filter x)) : Restores f g x :=
  Part.filter.inj h
theorem TextLit.restores {t : TextLit} (h : Restores f g (Part.text t)) : Restores f g t :=
  Part.text.inj h
theorem Expr.restores {e : Expr} (h : Restores f g (Part.expr e)) : Restores f g e := Part.expr.inj h
theorem Pattern.restores {p : Pattern} (h : Restores f g (Part.pattern p)) : Restores f g p :=
  Part.pattern.inj h

theorem Arg.restores_of_parts {a : Arg} (h : RestoresAll f g a.parts) : Restores f g a := by
  cases a with
  | positional e => exact congrArg Arg.positional (Expr.restores h.head)
  | named n e =>
    show Arg.named (respan f (move g n)) (respan f (move g e)) = _
    rw [Ident.restores h.head, Expr.restores h.tail.head]

theorem FieldPattern.restores_of_parts {x : FieldPattern} (h : RestoresAll f g x.parts) :
    Restores f g x := by
  cases x with
  | field n p =>
    have hpattern : Restores f g p := h.tail.option fun _ => Pattern.restores
    unfold Restores
    rw [FieldPattern.move_field, FieldPattern.respan_field, Ident.restores h.head, hpattern]
  | rest s => exact congrArg FieldPattern.rest (Part.rest.inj h.head)

theorem Cond.restores_of_parts {c : Cond} (h : RestoresAll f g c.parts) : Restores f g c := by
  cases c with
  | expr e => exact congrArg Cond.expr (Expr.restores h.head)
  | bind p v =>
    show Cond.bind (respan f (move g p)) (respan f (move g v)) = _
    rw [Pattern.restores h.head, Expr.restores h.tail.head]

theorem Param.restores_of_parts {p : Param} (h : RestoresAll f g p.parts) : Restores f g p := by
  have hdefault : Restores f g p.default := h.tail.option fun _ => Expr.restores
  show Param.mk (respan f (move g p.name)) (respan f (move g p.default)) = _
  rw [Ident.restores h.head, hdefault]

theorem Expr.restores_of_parts {e : Expr} (hspan : f (move g e.span) = e.span)
    (h : RestoresAll f g e.parts) : Restores f g e := by
  cases e with
  | lit v s => exact congrArg (Expr.lit v) hspan
  | var n s => exact congrArg (Expr.var n) hspan
  | unit s => exact congrArg Expr.unit hspan
  | path p s =>
    show Expr.path (respan f (move g p)) (f (move g s)) = _
    rw [Path.restores h.head]
    exact congrArg (Expr.path p) hspan
  | binary o a b s =>
    show Expr.binary o (respan f (move g a)) (respan f (move g b)) (f (move g s)) = _
    rw [Expr.restores h.head, Expr.restores h.tail.head]
    exact congrArg (Expr.binary o a b) hspan
  | unary o a s =>
    show Expr.unary o (respan f (move g a)) (f (move g s)) = _
    rw [Expr.restores h.head]
    exact congrArg (Expr.unary o a) hspan
  | ref a s =>
    show Expr.ref (respan f (move g a)) (f (move g s)) = _
    rw [Expr.restores h.head]
    exact congrArg (Expr.ref a) hspan
  | attempt a s =>
    show Expr.attempt (respan f (move g a)) (f (move g s)) = _
    rw [Expr.restores h.head]
    exact congrArg (Expr.attempt a) hspan
  | call c xs s =>
    show Expr.call (respan f (move g c)) (respan f (move g xs)) (f (move g s)) = _
    rw [Expr.restores h.head, Args.restores h.tail.head]
    exact congrArg (Expr.call c xs) hspan
  | field a k s =>
    show Expr.field (respan f (move g a)) (respan f (move g k)) (f (move g s)) = _
    rw [Expr.restores h.head, Key.restores h.tail.head]
    exact congrArg (Expr.field a k) hspan
  | index a i s =>
    show Expr.index (respan f (move g a)) (respan f (move g i)) (f (move g s)) = _
    rw [Expr.restores h.head, Expr.restores h.tail.head]
    exact congrArg (Expr.index a i) hspan
  | range a b i s =>
    have hstart : Restores f g a := h.left.option fun _ => Expr.restores
    have hstop : Restores f g b := h.right.option fun _ => Expr.restores
    unfold Restores
    rw [Expr.move_range, Expr.respan_range, hstart, hstop]
    exact congrArg (Expr.range a b i) hspan
  | array es s =>
    have helems : Restores f g es := h.list fun _ => Expr.restores
    unfold Restores
    rw [Expr.move_array, Expr.respan_array, helems]
    exact congrArg (Expr.array es) hspan
  | tuple es s =>
    have helems : Restores f g es := h.list fun _ => Expr.restores
    unfold Restores
    rw [Expr.move_tuple, Expr.respan_tuple, helems]
    exact congrArg (Expr.tuple es) hspan
  | group a s =>
    show Expr.group (respan f (move g a)) (f (move g s)) = _
    rw [Expr.restores h.head]
    exact congrArg (Expr.group a) hspan
  | filter a fs s =>
    have hfilters : Restores f g fs := h.tail.list fun _ => Filter.restores
    unfold Restores
    rw [Expr.move_filter, Expr.respan_filter, Expr.restores h.head, hfilters]
    exact congrArg (Expr.filter a fs) hspan
  | isDefined a n s =>
    show Expr.isDefined (respan f (move g a)) n (f (move g s)) = _
    rw [Expr.restores h.head]
    exact congrArg (Expr.isDefined a n) hspan
  | macroCall p xs s =>
    show Expr.macroCall (respan f (move g p)) (respan f (move g xs)) (f (move g s)) = _
    rw [Path.restores h.head, Args.restores h.tail.head]
    exact congrArg (Expr.macroCall p xs) hspan

theorem Pattern.restores_of_parts {p : Pattern} (hspan : f (move g p.span) = p.span)
    (h : RestoresAll f g p.parts) : Restores f g p := by
  have elements : ∀ {es : List Pattern}, RestoresAll f g (es.map .pattern) → Restores f g es :=
    fun h => h.list fun _ => Pattern.restores
  cases p with
  | lit v s => exact congrArg (Pattern.lit v) hspan
  | ident n s => exact congrArg (Pattern.ident n) hspan
  | placeholder s => exact congrArg Pattern.placeholder hspan
  | rest s => exact congrArg Pattern.rest hspan
  | path p s =>
    show Pattern.path (respan f (move g p)) (f (move g s)) = _
    rw [Path.restores h.head]
    exact congrArg (Pattern.path p) hspan
  | tupleStruct p es s =>
    unfold Restores
    rw [Pattern.move_tupleStruct, Pattern.respan_tupleStruct, Path.restores h.head, elements h.tail]
    exact congrArg (Pattern.tupleStruct p es) hspan
  | struct p fs s =>
    have hfields : Restores f g fs := h.tail.flatList fun _ => FieldPattern.restores_of_parts
    unfold Restores
    rw [Pattern.move_struct, Pattern.respan_struct, Path.restores h.head, hfields]
    exact congrArg (Pattern.struct p fs) hspan
  | tuple es s =>
    unfold Restores
    rw [Pattern.move_tuple, Pattern.respan_tuple, elements h]
    exact congrArg (Pattern.tuple es) hspan
  | slice es s =>
    unfold Restores
    rw [Pattern.move_slice, Pattern.respan_slice, elements h]
    exact congrArg (Pattern.slice es) hspan
  | alternatives es s =>
    unfold Restores
    rw [Pattern.move_alternatives, Pattern.respan_alternatives, elements h]
    exact congrArg (Pattern.alternatives es) hspan
  | destructured b es s =>
    unfold Restores
    rw [Pattern.move_destructured, Pattern.respan_destructured, Pattern.restores h.head, elements h.tail]
    exact congrArg (Pattern.destructured b es) hspan

theorem StmtKind.restores_of_parts {k : StmtKind} (h : RestoresAll f g k.parts) : Restores f g k := by
  have name : ∀ {i : Option Ident}, RestoresAll f g (i.toList.map .ident) → Restores f g i :=
    fun h => h.option fun _ => Ident.restores
  have value : ∀ {e : Option Expr}, RestoresAll f g (e.toList.map .expr) → Restores f g e :=
    fun h => h.option fun _ => Expr.restores
  cases k with
  | block n => exact congrArg StmtKind.block (Ident.restores h.head)
  | endBlock n => exact congrArg StmtKind.endBlock (name h)
  | extendFrom p => exact congrArg StmtKind.extendFrom (TextLit.restores h.head)
  | includeFrom p => exact congrArg StmtKind.includeFrom (TextLit.restores h.head)
  | importAs p n =>
    show StmtKind.importAs (respan f (move g p)) (respan f (move g n)) = _
    rw [TextLit.restores h.head, Ident.restores h.tail.head]
  | assign w m p v =>
    show StmtKind.assign w m (respan f (move g p)) (respan f (move g v)) = _
    rw [Pattern.restores h.head, value h.tail]
  | forLoop p e c =>
    show StmtKind.forLoop (respan f (move g p)) (respan f (move g e)) (respan f (move g c)) = _
    rw [Pattern.restores h.head, Expr.restores h.tail.head, value h.tail.tail]
  | ifCond c => exact congrArg StmtKind.ifCond (Cond.restores_of_parts h)
  | elseIf c => exact congrArg StmtKind.elseIf (Cond.restores_of_parts h)
  | matchOn e => exact congrArg StmtKind.matchOn (Expr.restores h.head)
  | whenArm p => exact congrArg StmtKind.whenArm (Pattern.restores h.head)
  | macroDef n ps =>
    have hparams : Restores f g ps := h.tail.flatList fun _ => Param.restores_of_parts
    show StmtKind.macroDef (respan f (move g n)) (respan f (move g ps)) = _
    rw [Ident.restores h.head, hparams]
  | endMacro n => exact congrArg StmtKind.endMacro (name h)
  | callBlock bs c =>
    have hbindings : Restores f g bs := h.left.list fun _ => Ident.restores
    show StmtKind.callBlock (respan f (move g bs)) (respan f (move g c)) = _
    rw [hbindings, Expr.restores h.right.head]
  | filterBlock fs =>
    have hfilters : Restores f g fs := h.list fun _ => Filter.restores
    exact congrArg StmtKind.filterBlock hfilters
  | _ => rfl

/-- A part is restored if its span and its children are. -/
theorem Part.restores {p : Part} (hspan : f (move g p.span) = p.span) (h : RestoresAll f g p.children) :
    Restores f g p := by
  cases p with
  | stmt s =>
    show Part.stmt ⟨respan f (move g s.kind), f (move g s.span)⟩ = _
    rw [StmtKind.restores_of_parts h]
    exact congrArg (fun t => Part.stmt ⟨s.kind, t⟩) hspan
  | expr e => exact congrArg Part.expr (Expr.restores_of_parts hspan h)
  | pattern p => exact congrArg Part.pattern (Pattern.restores_of_parts hspan h)
  | path p =>
    have hsegments : Restores f g p.segments := h.list fun _ => Ident.restores
    show Part.path ⟨p.global, respan f (move g p.segments), f (move g p.span)⟩ = _
    rw [hsegments]
    exact congrArg (fun t => Part.path ⟨p.global, p.segments, t⟩) hspan
  | ident i => exact congrArg (fun t => Part.ident ⟨i.name, t⟩) hspan
  | key k =>
    cases k with
    | name i => exact congrArg (fun i => Part.key (.name i)) (Ident.restores h.head)
    | index v s => exact congrArg (fun t => Part.key (.index v t)) hspan
  | args xs =>
    obtain ⟨items, s⟩ := xs
    have hitems : Restores f g items := h.flatList fun _ => Arg.restores_of_parts
    show Part.args (respan f (move g (Args.mk items s))) = _
    rw [Args.move_mk, Args.respan_mk, hitems]
    exact congrArg (fun t => Part.args (.mk items t)) hspan
  | filter x =>
    obtain ⟨n, given, s⟩ := x
    have hgiven : Restores f g given := h.tail.option fun _ => Args.restores
    show Part.filter (respan f (move g (Filter.mk n given s))) = _
    rw [Filter.move_mk, Filter.respan_mk, Ident.restores h.head, hgiven]
    exact congrArg (fun t => Part.filter (.mk n given t)) hspan
  | text t => exact congrArg (fun s => Part.text ⟨t.value, s⟩) hspan
  | rest s => exact congrArg Part.rest hspan

/-- A part that sits in the source is restored if every span is that marks a text there. -/
theorem Part.Sits.restores {d : Delims} {source : List Char} {p : Part} (h : p.Sits d source)
    (hspans : ∀ s : Span, s.Marks d source → f (move g s) = s) : Restores f g p := by
  induction h with
  | mk text some records inOrder below tight ih =>
    exact Part.restores (hspans _ ⟨_, text, some, tight⟩) ih

end Stencil
