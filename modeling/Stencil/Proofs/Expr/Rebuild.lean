/-
  Rebuild — making a tree anew from the leaves upwards.

  `mapChildren g e` puts `g c` in the place of every expression `c` directly inside `e`, and
  `rebuild f e` applies `f` at every node, after the expressions inside have been rebuilt.  Facts about a
  rebuilt tree are shown one node at a time: `rebuild_eq` says that it is one step above its rebuilt
  operands, and `children_induction` that what passes from the operands to a node holds of all trees.
-/
import Stencil.Proofs.Limit.Height
import Stencil.Proofs.Place

namespace Stencil

/-! ## Other operands in a node -/

/-- The argument with `g` applied to what it passes. -/
def Arg.map (g : Expr → Expr) : Arg → Arg
  | positional x => .positional (g x)
  | named n x => .named n (g x)

/-- The argument list with `g` applied to what it passes. -/
def Args.map (g : Expr → Expr) : Args → Args
  | mk items s => .mk (items.map (Arg.map g)) s

/-- The filter with `g` applied to what is passed to it. -/
def Filter.map (g : Expr → Expr) : Filter → Filter
  | mk n xs s => .mk n (xs.map (Args.map g)) s

/-- The node with `g` applied to the expressions directly inside of it. -/
def Expr.mapChildren (g : Expr → Expr) : Expr → Expr
  | lit v s => .lit v s
  | var n s => .var n s
  | path p s => .path p s
  | binary op a b s => .binary op (g a) (g b) s
  | unary op a s => .unary op (g a) s
  | ref a s => .ref (g a) s
  | attempt a s => .attempt (g a) s
  | call f xs s => .call (g f) (xs.map g) s
  | field a k s => .field (g a) k s
  | index a i s => .index (g a) (g i) s
  | range a b i s => .range (a.map g) (b.map g) i s
  | array es s => .array (es.map g) s
  | tuple es s => .tuple (es.map g) s
  | unit s => .unit s
  | group a s => .group (g a) s
  | filter a fs s => .filter (g a) (fs.map (Filter.map g)) s
  | isDefined a n s => .isDefined (g a) n s
  | macroCall p xs s => .macroCall p (xs.map g) s

section

variable (g : Expr → Expr)

@[simp] theorem Arg.value_map (a : Arg) : (a.map g).value = g a.value := by
  cases a <;> rfl

@[simp] theorem Arg.name?_map (a : Arg) : (a.map g).name? = a.name? := by
  cases a <;> rfl

@[simp] theorem Args.items_map (xs : Args) : (xs.map g).items = xs.items.map (Arg.map g) := by
  cases xs; rfl

theorem Args.values_map (xs : Args) : (xs.map g).values = xs.values.map g := by
  simp [Args.values]

@[simp] theorem Filter.name_map (f : Filter) : (f.map g).name = f.name := by
  cases f; rfl

@[simp] theorem Filter.args?_map (f : Filter) : (f.map g).args? = f.args?.map (Args.map g) := by
  cases f; rfl

theorem Filter.values_map (f : Filter) : (f.map g).values = f.values.map g := by
  obtain ⟨n, xs, s⟩ := f
  cases xs with
  | none => rfl
  | some xs => exact xs.values_map g

theorem Filter.flatMap_values_map (fs : List Filter) :
    (fs.map (Filter.map g)).flatMap Filter.values = (fs.flatMap Filter.values).map g := by
  rw [List.flatMap_map, List.map_flatMap]
  exact congrArg (fs.flatMap ·) (funext fun f => f.values_map g)

theorem Expr.children_mapChildren (e : Expr) : (e.mapChildren g).children = e.children.map g := by
  cases e with
  | call f xs s => exact congrArg (g f :: ·) (xs.values_map g)
  | filter a fs s => exact congrArg (g a :: ·) (Filter.flatMap_values_map g fs)
  | macroCall p xs s => exact xs.values_map g
  | range a b i s => cases a <;> cases b <;> rfl
  | _ => rfl

end

section

variable {g h : Expr → Expr}

theorem Args.map_congr {xs : Args} (hg : ∀ x ∈ xs.values, g x = h x) : xs.map g = xs.map h := by
  obtain ⟨items, s⟩ := xs
  refine congrArg (Args.mk · s) (List.map_congr_left fun a ha => ?_)
  have hvalue := hg a.value (List.mem_map_of_mem ha)
  cases a with
  | positional x => exact congrArg Arg.positional hvalue
  | named n x => exact congrArg (Arg.named n) hvalue

theorem Filter.map_congr {f : Filter} (hg : ∀ x ∈ f.values, g x = h x) : f.map g = f.map h := by
  obtain ⟨n, xs, s⟩ := f
  cases xs with
  | none => rfl
  | some xs => exact congrArg (fun xs => Filter.mk n (some xs) s) (Args.map_congr hg)

/-- A node only depends on what is put in the place of its operands. -/
theorem Expr.mapChildren_congr {e : Expr} (hg : ∀ x ∈ e.children, g x = h x) :
    e.mapChildren g = e.mapChildren h := by
  cases e with
  | binary op a b s =>
    exact congrArg₂ (binary op · · s) (hg a (by simp [children])) (hg b (by simp [children]))
  | index a i s =>
    exact congrArg₂ (index · · s) (hg a (by simp [children])) (hg i (by simp [children]))
  | call f xs s =>
    obtain ⟨hf, hxs⟩ := List.forall_mem_cons.1 hg
    exact congrArg₂ (call · · s) hf (Args.map_congr hxs)
  | range a b i s =>
    have ha : a.map g = a.map h := Option.map_congr fun x hx => hg x (by simp [children, hx])
    have hb : b.map g = b.map h := Option.map_congr fun x hx => hg x (by simp [children, hx])
    exact congrArg₂ (range · · i s) ha hb
  | array es s => exact congrArg (array · s) (List.map_congr_left hg)
  | tuple es s => exact congrArg (tuple · s) (List.map_congr_left hg)
  | filter a fs s =>
    obtain ⟨ha, hfs⟩ := List.forall_mem_cons.1 hg
    have hmap : fs.map (Filter.map g) = fs.map (Filter.map h) :=
      List.map_congr_left fun f hf =>
        Filter.map_congr fun x hx => hfs x (List.mem_flatMap.2 ⟨f, hf, hx⟩)
    exact congrArg₂ (filter · · s) ha hmap
  | macroCall p xs s => exact congrArg (macroCall p · s) (Args.map_congr hg)
  | unary op a s => exact congrArg (unary op · s) (hg a List.mem_cons_self)
  | ref a s => exact congrArg (ref · s) (hg a List.mem_cons_self)
  | attempt a s => exact congrArg (attempt · s) (hg a List.mem_cons_self)
  | field a k s => exact congrArg (field · k s) (hg a List.mem_cons_self)
  | group a s => exact congrArg (group · s) (hg a List.mem_cons_self)
  | isDefined a n s => exact congrArg (isDefined · n s) (hg a List.mem_cons_self)
  | _ => rfl

variable (g h)

theorem Args.map_map (xs : Args) : (xs.map g).map h = xs.map fun x => h (g x) := by
  obtain ⟨items, s⟩ := xs
  refine congrArg (Args.mk · s) ?_
  rw [List.map_map]
  refine List.map_congr_left fun a _ => ?_
  cases a <;> rfl

theorem Filter.map_map (f : Filter) : (f.map g).map h = f.map fun x => h (g x) := by
  obtain ⟨n, xs, s⟩ := f
  cases xs with
  | none => rfl
  | some xs => exact congrArg (fun xs => Filter.mk n (some xs) s) (xs.map_map g h)

theorem Expr.mapChildren_mapChildren (e : Expr) :
    (e.mapChildren g).mapChildren h = e.mapChildren fun x => h (g x) := by
  cases e with
  | call f xs s => exact congrArg (call (h (g f)) · s) (xs.map_map g h)
  | macroCall p xs s => exact congrArg (macroCall p · s) (xs.map_map g h)
  | range a b i s => cases a <;> cases b <;> rfl
  | array es s => exact congrArg (array · s) List.map_map
  | tuple es s => exact congrArg (tuple · s) List.map_map
  | filter a fs s =>
    refine congrArg (filter (h (g a)) · s) (List.map_map.trans ?_)
    exact List.map_congr_left fun f _ => f.map_map g h
  | _ => rfl

end

/-! ## Rebuilding a tree -/

mutual

/-- The tree with `f` applied at every node, from the leaves upwards. -/
def Expr.rebuild (f : Expr → Expr) : Expr → Expr
  | .lit v s => f (.lit v s)
  | .var n s => f (.var n s)
  | .path p s => f (.path p s)
  | .binary op a b s => f (.binary op (a.rebuild f) (b.rebuild f) s)
  | .unary op a s => f (.unary op (a.rebuild f) s)
  | .ref a s => f (.ref (a.rebuild f) s)
  | .attempt a s => f (.attempt (a.rebuild f) s)
  | .call c xs s => f (.call (c.rebuild f) (xs.rebuild f) s)
  | .field a k s => f (.field (a.rebuild f) k s)
  | .index a i s => f (.index (a.rebuild f) (i.rebuild f) s)
  | .range a b i s => f (.range (Expr.rebuildOption f a) (Expr.rebuildOption f b) i s)
  | .array es s => f (.array (Expr.rebuildList f es) s)
  | .tuple es s => f (.tuple (Expr.rebuildList f es) s)
  | .unit s => f (.unit s)
  | .group a s => f (.group (a.rebuild f) s)
  | .filter a fs s => f (.filter (a.rebuild f) (Filter.rebuildList f fs) s)
  | .isDefined a n s => f (.isDefined (a.rebuild f) n s)
  | .macroCall p xs s => f (.macroCall p (xs.rebuild f) s)

def Expr.rebuildOption (f : Expr → Expr) : Option Expr → Option Expr
  | none => none
  | some a => some (a.rebuild f)

def Expr.rebuildList (f : Expr → Expr) : List Expr → List Expr
  | [] => []
  | a :: as => a.rebuild f :: Expr.rebuildList f as

def Args.rebuild (f : Expr → Expr) : Args → Args
  | .mk xs s => .mk (Arg.rebuildList f xs) s

def Arg.rebuildList (f : Expr → Expr) : List Arg → List Arg
  | [] => []
  | a :: as => a.rebuild f :: Arg.rebuildList f as

def Arg.rebuild (f : Expr → Expr) : Arg → Arg
  | .positional a => .positional (a.rebuild f)
  | .named n a => .named n (a.rebuild f)

def Filter.rebuild (f : Expr → Expr) : Filter → Filter
  | .mk n xs s => .mk n (Args.rebuildOption f xs) s

def Args.rebuildOption (f : Expr → Expr) : Option Args → Option Args
  | none => none
  | some xs => some (xs.rebuild f)

def Filter.rebuildList (f : Expr → Expr) : List Filter → List Filter
  | [] => []
  | a :: as => a.rebuild f :: Filter.rebuildList f as

end

section

variable (f : Expr → Expr)

theorem Expr.rebuildOption_eq (a : Option Expr) :
    Expr.rebuildOption f a = a.map (Expr.rebuild f) := by
  cases a <;> rfl

theorem Expr.rebuildList_eq (as : List Expr) : Expr.rebuildList f as = as.map (Expr.rebuild f) := by
  induction as with
  | nil => rfl
  | cons a as ih => exact congrArg (a.rebuild f :: ·) ih

theorem Args.rebuild_eq (xs : Args) : xs.rebuild f = xs.map (Expr.rebuild f) := by
  obtain ⟨items, s⟩ := xs
  refine congrArg (Args.mk · s) ?_
  induction items with
  | nil => rfl
  | cons a items ih =>
    show a.rebuild f :: Arg.rebuildList f items = _
    rw [ih]
    cases a <;> rfl

theorem Filter.rebuildList_eq (fs : List Filter) :
    Filter.rebuildList f fs = fs.map (Filter.map (Expr.rebuild f)) := by
  induction fs with
  | nil => rfl
  | cons x fs ih =>
    obtain ⟨n, xs, s⟩ := x
    show Filter.mk n (Args.rebuildOption f xs) s :: Filter.rebuildList f fs = _
    rw [ih, List.map_cons]
    refine congrArg (· :: _) ?_
    cases xs with
    | none => rfl
    | some xs => exact congrArg (fun xs => Filter.mk n (some xs) s) (xs.rebuild_eq f)

/-- A rebuilt tree is one step above its rebuilt operands. -/
theorem Expr.rebuild_eq (e : Expr) : e.rebuild f = f (e.mapChildren (Expr.rebuild f)) := by
  cases e with
  | call c xs s => exact congrArg (fun xs => f (.call (c.rebuild f) xs s)) (xs.rebuild_eq f)
  | macroCall p xs s => exact congrArg (fun xs => f (.macroCall p xs s)) (xs.rebuild_eq f)
  | range a b i s =>
    exact congrArg₂ (fun a b => f (.range a b i s)) (rebuildOption_eq f a) (rebuildOption_eq f b)
  | array es s => exact congrArg (fun es => f (.array es s)) (rebuildList_eq f es)
  | tuple es s => exact congrArg (fun es => f (.tuple es s)) (rebuildList_eq f es)
  | filter a fs s =>
    exact congrArg (fun fs => f (.filter (a.rebuild f) fs s)) (Filter.rebuildList_eq f fs)
  | _ => rfl

end

namespace Expr

/-- What passes from the expressions directly inside an expression to it holds of all expressions. -/
theorem children_induction {motive : Expr → Prop}
    (h : ∀ e, (∀ c ∈ e.children, motive c) → motive e) (e : Expr) : motive e := by
  have hall : ∀ n (e : Expr), e.height ≤ n → motive e := by
    intro n
    induction n with
    | zero => exact fun e he => absurd e.height_pos (Nat.not_lt.2 he)
    | succ n ih => exact fun e he => h e fun c hc => ih c (height_le_succ_iff.1 he c hc)
  exact hall e.height e (Nat.le_refl _)

end Expr

/-! ## Places -/

section

variable {g : Nat → Nat} {h k : Expr → Expr}

theorem Args.values_move (xs : Args) : (move g xs).values = xs.values.map (move g) := by
  obtain ⟨items, s⟩ := xs
  rw [Args.move_mk]
  show (items.map (move g)).map Arg.value = (items.map Arg.value).map (move g)
  rw [List.map_map, List.map_map]
  refine List.map_congr_left fun a _ => ?_
  cases a <;> rfl

theorem Filter.values_move (f : Filter) : (move g f).values = f.values.map (move g) := by
  obtain ⟨n, xs, s⟩ := f
  cases xs with
  | none => rfl
  | some xs => exact xs.values_move

theorem Expr.children_move (e : Expr) : (move g e).children = e.children.map (move g) := by
  cases e with
  | call f xs s => exact congrArg (move g f :: ·) xs.values_move
  | macroCall p xs s => exact xs.values_move
  | range a b i s => cases a <;> cases b <;> rfl
  | array es s => rw [Expr.move_array]; rfl
  | tuple es s => rw [Expr.move_tuple]; rfl
  | filter a fs s =>
    rw [Expr.move_filter]
    show move g a :: (fs.map (move g)).flatMap Filter.values = move g a :: (fs.flatMap Filter.values).map _
    rw [List.flatMap_map, List.map_flatMap]
    exact congrArg (fun h => move g a :: fs.flatMap h) (funext fun f => f.values_move)
  | _ => rfl

theorem Args.move_map {xs : Args} (hc : ∀ x ∈ xs.values, move g (h x) = k (move g x)) :
    move g (xs.map h) = (move g xs).map k := by
  obtain ⟨items, s⟩ := xs
  show move g (Args.mk (items.map (Arg.map h)) s) = _
  rw [Args.move_mk, Args.move_mk]
  refine congrArg (Args.mk · (move g s)) ?_
  show (items.map (Arg.map h)).map (move g) = (items.map (move g)).map (Arg.map k)
  rw [List.map_map, List.map_map]
  refine List.map_congr_left fun a ha => ?_
  have hvalue := hc a.value (List.mem_map_of_mem ha)
  cases a with
  | positional x => exact congrArg Arg.positional hvalue
  | named n x => exact congrArg (Arg.named (move g n)) hvalue

theorem Filter.move_map {f : Filter} (hc : ∀ x ∈ f.values, move g (h x) = k (move g x)) :
    move g (f.map h) = (move g f).map k := by
  obtain ⟨n, xs, s⟩ := f
  cases xs with
  | none => rfl
  | some xs => exact congrArg (fun xs => Filter.mk (move g n) (some xs) (move g s)) (Args.move_map hc)

theorem Expr.move_mapChildren {e : Expr} (hc : ∀ x ∈ e.children, move g (h x) = k (move g x)) :
    move g (e.mapChildren h) = (move g e).mapChildren k := by
  cases e with
  | binary op a b s =>
    show binary op (move g (h a)) (move g (h b)) (move g s) = _
    rw [hc a (by simp [children]), hc b (by simp [children])]
    rfl
  | index a i s =>
    show index (move g (h a)) (move g (h i)) (move g s) = _
    rw [hc a (by simp [children]), hc i (by simp [children])]
    rfl
  | call f xs s =>
    obtain ⟨hf, hxs⟩ := List.forall_mem_cons.1 hc
    show call (move g (h f)) (move g (xs.map h)) (move g s) = _
    rw [hf, Args.move_map hxs]
    rfl
  | macroCall p xs s =>
    exact congrArg (fun xs => Expr.macroCall (move g p) xs (move g s)) (Args.move_map hc)
  | range a b i s =>
    have hoption : ∀ {o : Option Expr}, (∀ x ∈ o, x ∈ (range a b i s).children) →
        move g (o.map h) = (move g o).map k := by
      intro o ho
      cases o with
      | none => rfl
      | some x => exact congrArg some (hc x (ho x rfl))
    show move g (range (a.map h) (b.map h) i s) = _
    rw [Expr.move_range, Expr.move_range, hoption fun x hx => ?_, hoption fun x hx => ?_]
    · rfl
    · simp [children, Option.mem_def.1 hx]
    · simp [children, Option.mem_def.1 hx]
  | array es s =>
    show move g (array (es.map h) s) = _
    rw [Expr.move_array, Expr.move_array]
    refine congrArg (array · (move g s)) ?_
    show (es.map h).map (move g) = (es.map (move g)).map k
    rw [List.map_map, List.map_map]
    exact List.map_congr_left hc
  | tuple es s =>
    show move g (tuple (es.map h) s) = _
    rw [Expr.move_tuple, Expr.move_tuple]
    refine congrArg (tuple · (move g s)) ?_
    show (es.map h).map (move g) = (es.map (move g)).map k
    rw [List.map_map, List.map_map]
    exact List.map_congr_left hc
  | filter a fs s =>
    obtain ⟨ha, hfs⟩ := List.forall_mem_cons.1 hc
    show move g (filter (h a) (fs.map (Filter.map h)) s) = _
    rw [Expr.move_filter, Expr.move_filter, ha]
    refine congrArg (filter (k (move g a)) · (move g s)) ?_
    show (fs.map (Filter.map h)).map (move g) = (fs.map (move g)).map (Filter.map k)
    rw [List.map_map, List.map_map]
    exact List.map_congr_left fun f hf =>
      Filter.move_map fun x hx => hfs x (List.mem_flatMap.2 ⟨f, hf, hx⟩)
  | unary op a s => exact congrArg (Expr.unary op · (move g s)) (hc a List.mem_cons_self)
  | ref a s => exact congrArg (Expr.ref · (move g s)) (hc a List.mem_cons_self)
  | attempt a s => exact congrArg (Expr.attempt · (move g s)) (hc a List.mem_cons_self)
  | field a key s => exact congrArg (Expr.field · (move g key) (move g s)) (hc a List.mem_cons_self)
  | group a s => exact congrArg (Expr.group · (move g s)) (hc a List.mem_cons_self)
  | isDefined a n s => exact congrArg (Expr.isDefined · n (move g s)) (hc a List.mem_cons_self)
  | _ => rfl

/-- A step that does not depend on places makes a tree that does not. -/
theorem Expr.move_rebuild {f : Expr → Expr} (hf : ∀ x, move g (f x) = f (move g x)) (e : Expr) :
    move g (e.rebuild f) = (move g e).rebuild f := by
  induction e using Expr.children_induction with
  | h e ih => rw [rebuild_eq f e, hf, move_mapChildren ih, ← rebuild_eq f (move g e)]

end

end Stencil
