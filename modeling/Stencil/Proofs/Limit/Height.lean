/-
  Height — how high the trees are that can be read under a limit.

  The budget of a reader counts the levels it may go down, but a level is given back once what it
  encloses has been read, and the operators around that take it again.  Ranges, tests for being
  defined and alternatives take none.  So the height of a tree is not the limit.  With
  `heightBound b = b * b + 2 * b`, what is read with a budget of `b` is at most so high:

    a full expression                                   heightBound b
    an operand with its suffixes and prefix operators   heightBound b + b + 2
    operands with operators between them                heightBound b + 2 * b + 2
    a pattern                                           2 * b

  A suffix or operator adds one to the height and costs one level: in the loops, the height of what
  has been read and the budget that is left make a sum that does not grow.  A full expression takes a
  level and adds one for a range, and `heightBound (b + 1) = heightBound b + 2 * b + 3`.
-/
import Stencil.Proofs.Expr.Normal
import Stencil.Proofs.Reader.Gives
import Stencil.Reader.Pattern

namespace Stencil

/-! ## Heights of expressions -/

mutual

/-- The number of expressions on the longest way down. -/
def Expr.height : Expr → Nat
  | .lit .. | .var .. | .path .. | .unit .. => 1
  | .binary _ a b _ => max a.height b.height + 1
  | .unary _ a _ | .ref a _ | .attempt a _ | .field a _ _ | .group a _ | .isDefined a _ _ =>
    a.height + 1
  | .call f xs _ => max f.height xs.height + 1
  | .index a i _ => max a.height i.height + 1
  | .range a b _ _ => max (Expr.heightOption a) (Expr.heightOption b) + 1
  | .array es _ | .tuple es _ => Expr.heightList es + 1
  | .filter a fs _ => max a.height (Filter.heightList fs) + 1
  | .macroCall _ xs _ => xs.height + 1

def Expr.heightOption : Option Expr → Nat
  | none => 0
  | some a => a.height

def Expr.heightList : List Expr → Nat
  | [] => 0
  | a :: as => max a.height (Expr.heightList as)

/-- The height of the highest argument. -/
def Args.height : Args → Nat
  | .mk items _ => Arg.heightList items

def Arg.heightList : List Arg → Nat
  | [] => 0
  | a :: as => max a.height (Arg.heightList as)

def Arg.height : Arg → Nat
  | .positional a => a.height
  | .named _ a => a.height

/-- The height of the highest argument of the filter. -/
def Filter.height : Filter → Nat
  | .mk _ xs _ => Args.heightOption xs

def Args.heightOption : Option Args → Nat
  | none => 0
  | some xs => xs.height

def Filter.heightList : List Filter → Nat
  | [] => 0
  | f :: fs => max f.height (Filter.heightList fs)

end

theorem Expr.heightOption_le_iff {x : Option Expr} {n : Nat} :
    Expr.heightOption x ≤ n ↔ ∀ e ∈ x.toList, e.height ≤ n := by
  cases x <;> simp [Expr.heightOption]

theorem Expr.heightList_le_iff {es : List Expr} {n : Nat} :
    Expr.heightList es ≤ n ↔ ∀ e ∈ es, e.height ≤ n := by
  induction es with
  | nil => simp [Expr.heightList]
  | cons e es ih => simp only [Expr.heightList, Nat.max_le, ih, List.forall_mem_cons]

theorem Arg.height_eq (a : Arg) : a.height = a.value.height := by
  cases a <;> rfl

theorem Args.height_le_iff {xs : Args} {n : Nat} :
    xs.height ≤ n ↔ ∀ e ∈ xs.values, e.height ≤ n := by
  obtain ⟨items, span⟩ := xs
  show Arg.heightList items ≤ n ↔ ∀ e ∈ items.map Arg.value, e.height ≤ n
  induction items with
  | nil => simp [Arg.heightList]
  | cons a items ih =>
    simp only [Arg.heightList, Nat.max_le, ih, Arg.height_eq, List.map_cons, List.forall_mem_cons]

theorem Filter.height_le_iff {f : Filter} {n : Nat} :
    f.height ≤ n ↔ ∀ e ∈ f.values, e.height ≤ n := by
  obtain ⟨name, xs, span⟩ := f
  cases xs with
  | none => simp [Filter.height, Args.heightOption, Filter.values, Filter.args?]
  | some xs => exact Args.height_le_iff

theorem Filter.heightList_le_iff {fs : List Filter} {n : Nat} :
    Filter.heightList fs ≤ n ↔ ∀ e ∈ fs.flatMap Filter.values, e.height ≤ n := by
  induction fs with
  | nil => simp [Filter.heightList]
  | cons f fs ih =>
    simp only [Filter.heightList, Nat.max_le, ih, Filter.height_le_iff, List.flatMap_cons,
      List.forall_mem_append]

/-- An expression is at most one higher than what is directly inside of it. -/
theorem Expr.height_le_succ_iff {e : Expr} {n : Nat} :
    e.height ≤ n + 1 ↔ ∀ c ∈ e.children, c.height ≤ n := by
  cases e with
  | call f xs s =>
    simp only [Expr.height, Expr.children, Nat.add_le_add_iff_right, Nat.max_le,
      Args.height_le_iff, List.forall_mem_cons]
  | macroCall p xs s => simp [Expr.height, Expr.children, Args.height_le_iff]
  | range a b i s =>
    simp only [Expr.height, Expr.children, Nat.add_le_add_iff_right, Nat.max_le,
      Expr.heightOption_le_iff, List.forall_mem_append]
  | array es s => simp [Expr.height, Expr.children, Expr.heightList_le_iff]
  | tuple es s => simp [Expr.height, Expr.children, Expr.heightList_le_iff]
  | filter a fs s =>
    simp only [Expr.height, Expr.children, Nat.add_le_add_iff_right, Nat.max_le,
      Filter.heightList_le_iff, List.forall_mem_cons]
  | binary op a b s =>
    simp only [Expr.height, Expr.children, Nat.add_le_add_iff_right, Nat.max_le,
      List.forall_mem_cons, List.not_mem_nil, false_implies, implies_true, and_true]
  | index a i s =>
    simp only [Expr.height, Expr.children, Nat.add_le_add_iff_right, Nat.max_le,
      List.forall_mem_cons, List.not_mem_nil, false_implies, implies_true, and_true]
  | _ => simp [Expr.height, Expr.children]

theorem Expr.height_pos (e : Expr) : 0 < e.height := by
  cases e <;> exact Nat.succ_pos _

/-- What occurs in an expression is not higher. -/
theorem Expr.HasPart.height_le {e x : Expr} (h : e.HasPart x) : x.height ≤ e.height := by
  induction h with
  | self e => exact Nat.le_refl _
  | @child e c x hc _ ih =>
    obtain ⟨n, hn⟩ : ∃ n, e.height = n + 1 := Nat.exists_eq_succ_of_ne_zero e.height_pos.ne'
    have hchild := Expr.height_le_succ_iff.1 (Nat.le_of_eq hn) c hc
    omega

/-! ## Heights of patterns -/

mutual

/-- The number of patterns on the longest way down. -/
def Pattern.height : Pattern → Nat
  | .lit .. | .ident .. | .path .. | .placeholder _ | .rest _ => 1
  | .tupleStruct _ ps _ | .tuple ps _ | .slice ps _ | .alternatives ps _ =>
    Pattern.heightList ps + 1
  | .struct _ fs _ => FieldPattern.heightList fs + 1
  | .destructured p ps _ => max p.height (Pattern.heightList ps) + 1

def Pattern.heightOption : Option Pattern → Nat
  | none => 0
  | some p => p.height

def Pattern.heightList : List Pattern → Nat
  | [] => 0
  | p :: ps => max p.height (Pattern.heightList ps)

def FieldPattern.height : FieldPattern → Nat
  | .field _ p => Pattern.heightOption p
  | .rest _ => 0

def FieldPattern.heightList : List FieldPattern → Nat
  | [] => 0
  | f :: fs => max f.height (FieldPattern.heightList fs)

end

/-- The pattern that the field is taken apart by. -/
def FieldPattern.pattern? : FieldPattern → Option Pattern
  | field _ p => p
  | rest _ => none

/-- The patterns directly inside a pattern. -/
def Pattern.children : Pattern → List Pattern
  | lit .. | ident .. | path .. | placeholder _ | rest _ => []
  | tupleStruct _ ps _ | tuple ps _ | slice ps _ | alternatives ps _ => ps
  | struct _ fs _ => fs.flatMap (·.pattern?.toList)
  | destructured p ps _ => p :: ps

/-- `p.HasPart q`: the pattern `q` is `p` or occurs somewhere inside of it. -/
inductive Pattern.HasPart : Pattern → Pattern → Prop
  | self (p : Pattern) : HasPart p p
  | child {p c q : Pattern} (hc : c ∈ p.children) (hq : HasPart c q) : HasPart p q

/-- Whether the pattern is taken apart by a list after it, as only a match arm has it. -/
def Pattern.isDestructured : Pattern → Bool
  | destructured .. => true
  | _ => false

theorem Pattern.heightList_le_iff {ps : List Pattern} {n : Nat} :
    Pattern.heightList ps ≤ n ↔ ∀ p ∈ ps, p.height ≤ n := by
  induction ps with
  | nil => simp [Pattern.heightList]
  | cons p ps ih => simp only [Pattern.heightList, Nat.max_le, ih, List.forall_mem_cons]

theorem FieldPattern.height_le_iff {f : FieldPattern} {n : Nat} :
    f.height ≤ n ↔ ∀ p ∈ f.pattern?.toList, p.height ≤ n := by
  cases f with
  | rest s => simp [FieldPattern.height, FieldPattern.pattern?]
  | field name p => cases p <;> simp [FieldPattern.height, FieldPattern.pattern?, Pattern.heightOption]

theorem FieldPattern.heightList_le_iff {fs : List FieldPattern} {n : Nat} :
    FieldPattern.heightList fs ≤ n ↔ ∀ p ∈ fs.flatMap (·.pattern?.toList), p.height ≤ n := by
  induction fs with
  | nil => simp [FieldPattern.heightList]
  | cons f fs ih =>
    simp only [FieldPattern.heightList, Nat.max_le, ih, FieldPattern.height_le_iff,
      List.flatMap_cons, List.forall_mem_append]

/-- A pattern is at most one higher than what is directly inside of it. -/
theorem Pattern.height_le_succ_iff {p : Pattern} {n : Nat} :
    p.height ≤ n + 1 ↔ ∀ c ∈ p.children, c.height ≤ n := by
  cases p with
  | struct path fs s => simp only [Pattern.height, Pattern.children, Nat.add_le_add_iff_right,
      FieldPattern.heightList_le_iff]
  | destructured p ps s => simp only [Pattern.height, Pattern.children, Nat.add_le_add_iff_right,
      Nat.max_le, Pattern.heightList_le_iff, List.forall_mem_cons]
  | _ => simp [Pattern.height, Pattern.children, Pattern.heightList_le_iff]

theorem Pattern.height_pos (p : Pattern) : 0 < p.height := by
  cases p <;> exact Nat.succ_pos _

/-- What occurs in a pattern is the pattern itself or lower. -/
theorem Pattern.HasPart.eq_or_height_lt {p q : Pattern} (h : p.HasPart q) :
    q = p ∨ q.height < p.height := by
  induction h with
  | self p => exact .inl rfl
  | @child p c q hc _ ih =>
    obtain ⟨n, hn⟩ : ∃ n, p.height = n + 1 := Nat.exists_eq_succ_of_ne_zero p.height_pos.ne'
    have hchild := Pattern.height_le_succ_iff.1 (Nat.le_of_eq hn) c hc
    right
    rcases ih with rfl | hlt <;> omega

/-! ## What is made of full expressions -/

namespace Reader

section

variable {n : Nat} {value : Reader Expr} (hv : Gives value fun x => x.height ≤ n)

include hv

theorem arg_height : Gives (arg value) fun a => a.value.height ≤ n := by
  refine .after fun named => .ite ?_ ?_
  · exact .after fun name => .after fun _ => hv.bind fun x hx => .pure hx
  · exact hv.bind fun x hx => .pure hx

theorem args_height : Gives (args value) fun xs => ∀ x ∈ xs.values, x.height ≤ n := by
  refine .after fun opening => (seq_gives (arg_height hv) _).bind fun s hs => .pure ?_
  intro x hx
  obtain ⟨a, ha, rfl⟩ := List.mem_map.1 hx
  exact hs a ha

theorem filter_height : Gives (filter value) fun f => ∀ x ∈ f.values, x.height ≤ n := by
  refine .after fun name => .after fun given => .ite ?_ ?_
  · exact (args_height hv).bind fun given hgiven => .pure hgiven
  · exact .pure fun x hx => by cases hx

theorem filters_height :
    Gives (many (filter? value)) fun fs => ∀ f ∈ fs, ∀ x ∈ f.values, x.height ≤ n := by
  refine many_gives (.after fun _ => .ite ?_ ?_)
  · refine (filter_height hv).map fun f hf g hg => ?_
    cases hg
    exact hf
  · exact .pure fun f hf => by cases hf

theorem macroCall_height (global : Bool) (segments : List Ident) (start : Span) (name : Lexeme) :
    Gives (macroCall value global segments start name) fun x => x.height ≤ n + 1 :=
  (args_height hv).bind fun _ hgiven => .pure (Expr.height_le_succ_iff.2 hgiven)

theorem macroSegment_height (global : Bool) (segments : List Ident) (start : Span) :
    Gives (macroSegment value global segments start) fun x => x.height ≤ n + 1 := by
  refine .after fun found => ?_
  cases found with
  | none => exact unexpected_gives _ _
  | some l => exact .ite (macroCall_height hv global segments start l) (unexpected_gives _ _)

omit hv in
/-- An expression with nothing inside is as low as any. -/
theorem height_le_of_children {x : Expr} (h : x.children = []) : x.height ≤ n + 1 := by
  rw [Expr.height_le_succ_iff, h]
  exact fun c hc => by cases hc

theorem pathExpr_height (global : Bool) (first : Ident) (start : Span) :
    Gives (pathExpr value global first start) fun x => x.height ≤ n + 1 := by
  refine .after fun (more, _) => .ite ?_ (.pure (height_le_of_children rfl))
  exact macroSegment_height hv global (first :: more) start

theorem parenthesized_height (opening : Lexeme) :
    Gives (parenthesized value opening) fun x => x.height ≤ n + 1 := by
  refine (seq_gives hv _).bind fun s hs => ?_
  obtain ⟨items, trailing, close⟩ := s
  rcases items with _ | ⟨x, _ | ⟨y, ys⟩⟩
  · exact .pure (height_le_of_children rfl)
  · cases trailing <;> exact .pure (Expr.height_le_succ_iff.2 hs)
  · exact .pure (Expr.height_le_succ_iff.2 hs)

theorem primary_height : Gives (primary value) fun x => x.height ≤ n + 1 := by
  refine .after fun found => ?_
  cases found with
  | none => exact unexpected_gives _ _
  | some l =>
    dsimp only
    split
    · refine .after fun found => ?_
      cases found with
      | none => exact unexpected_gives _ _
      | some l => exact .after fun v => .pure (height_le_of_children rfl)
    · refine .after fun _ => .ite (macroSegment_height hv true [] l.span) ?_
      exact .after fun first => pathExpr_height hv true first l.span
    · exact macroCall_height hv false [] l.span l
    · exact parenthesized_height hv l
    · exact (seq_gives hv _).bind fun s hs => .pure (Expr.height_le_succ_iff.2 hs)
    · refine .ite (.after fun v => .pure (height_le_of_children rfl)) (.ite ?_ (unexpected_gives _ _))
      refine .after fun first => .after fun _ => .ite ?_ (.pure (height_le_of_children rfl))
      exact pathExpr_height hv false first l.span

theorem suffix_height {x : Expr} {m : Nat} (hx : x.height ≤ m) (hm : n ≤ m) (l : Lexeme) :
    Gives (suffix value x l) fun y => y.height ≤ m + 1 := by
  unfold suffix
  split
  · refine (args_height hv).bind fun given hgiven => .pure (Expr.height_le_succ_iff.2 ?_)
    exact List.forall_mem_cons.2 ⟨hx, fun c hc => Nat.le_trans (hgiven c hc) hm⟩
  · refine .after fun _ => .after fun k => .pure (Expr.height_le_succ_iff.2 ?_)
    exact List.forall_mem_singleton.2 hx
  · refine .after fun _ => hv.bind fun i hi => .after fun close => .pure ?_
    refine Expr.height_le_succ_iff.2 (List.forall_mem_cons.2 ⟨hx, ?_⟩)
    exact List.forall_mem_singleton.2 (Nat.le_trans hi hm)
  · refine .after fun _ => .pure (Expr.height_le_succ_iff.2 ?_)
    exact List.forall_mem_singleton.2 hx

theorem ranged_height : Gives (ranged value) fun x => x.height ≤ n + 1 := by
  have hrange : ∀ (start : Option Expr) (inclusive : Bool), (∀ x ∈ start, x.height ≤ n) →
      Gives (rangeFrom value start inclusive) fun x => x.height ≤ n + 1 := by
    intro start inclusive hstart
    have hbounds : ∀ (stop : Option Expr) (s : Span), (∀ x ∈ stop, x.height ≤ n) →
        (Expr.range start stop inclusive s).height ≤ n + 1 := by
      intro stop s hstop
      refine Expr.height_le_succ_iff.2 (List.forall_mem_append.2 ⟨?_, ?_⟩)
      · exact fun x hx => hstart x (Option.mem_toList.1 hx)
      · exact fun x hx => hstop x (Option.mem_toList.1 hx)
    refine .after fun _ => .after fun op => ?_
    -- Both ways of learning whether the range has an end go on in the same way.
    refine Gives.ite (Gives.after ?after) (Gives.after ?after)
    intro bounded
    refine Gives.ite (c := bounded = true) ?_ ?_
    · refine hv.bind fun stop hstop => .pure (hbounds (some stop) _ fun x hx => ?_)
      cases hx
      exact hstop
    · exact .pure (hbounds none _ fun x hx => by cases hx)
  refine .after fun found => ?_
  cases found with
  | some inclusive => exact hrange none inclusive fun x hx => by cases hx
  | none =>
    refine hv.bind fun x hx => .after fun found => ?_
    cases found with
    | some inclusive =>
      refine hrange (some x) inclusive fun y hy => ?_
      cases hy
      exact hx
    | none => exact .pure (Nat.le_succ_of_le hx)

end

/-! ## Operators and full expressions -/

/-- How high an expression can be that is read with the given budget. -/
def heightBound (budget : Nat) : Nat := budget * budget + 2 * budget

theorem heightBound_succ (budget : Nat) :
    heightBound (budget + 1) = heightBound budget + 2 * budget + 3 := by
  have hsquare : (budget + 1) * (budget + 1) = budget * budget + 2 * budget + 1 := by
    rw [Nat.add_mul, Nat.mul_add]
    omega
  unfold heightBound
  omega

section

variable {e : Nat → Reader Expr} (limit : Nat)
  (he : ∀ k, Gives (e k) fun x => x.height ≤ heightBound k)

include he

/-- A suffix adds one to the height and costs one level. -/
theorem suffixes_height (budget : Nat) {x : Expr} {m : Nat} (hx : x.height ≤ m)
    (hm : heightBound budget ≤ m) :
    Gives (suffixes limit e budget x) fun y => y.height ≤ m + budget := by
  induction budget generalizing x m with
  | zero =>
    unfold suffixes
    refine .after fun found => ?_
    cases found with
    | none => exact .pure hx
    | some l => exact .ite (tooDeep_gives limit) (.pure hx)
  | succ budget ih =>
    rw [heightBound_succ] at hm
    unfold suffixes
    refine .after fun found => ?_
    cases found with
    | none => exact .pure (Nat.le_trans hx (Nat.le_add_right _ _))
    | some l =>
      refine .ite ?_ (.pure (Nat.le_trans hx (Nat.le_add_right _ _)))
      refine (suffix_height (he budget) hx (by omega) l).bind fun y hy => ?_
      exact (ih hy (by omega)).mono fun z hz => by omega

theorem tested_height (budget : Nat) :
    Gives (tested limit e budget) fun x => x.height ≤ heightBound budget + budget + 2 := by
  refine (primary_height (he budget)).bind fun x hx => ?_
  refine (suffixes_height limit he budget hx (Nat.le_succ _)).bind fun y hy => ?_
  refine .after fun _ => .ite ?_ (.pure (by omega))
  refine .after fun negated => .after fun close => .pure (Expr.height_le_succ_iff.2 ?_)
  exact List.forall_mem_singleton.2 (by omega)

theorem unary_height (budget : Nat) :
    Gives (unary limit e budget) fun x => x.height ≤ heightBound budget + budget + 2 := by
  induction budget with
  | zero =>
    unfold unary
    refine .after fun found => ?_
    cases found with
    | none => exact tested_height limit he 0
    | some u => exact .after fun _ => tooDeep_gives limit
  | succ budget ih =>
    unfold unary
    refine .after fun found => ?_
    cases found with
    | none => exact tested_height limit he (budget + 1)
    | some u =>
      refine .after fun _ => ih.bind fun operand hoperand => .pure ?_
      have happly : ∀ s, (u.1.apply operand s).height ≤ heightBound budget + budget + 2 + 1 := by
        intro s
        cases u.1 <;> exact Expr.height_le_succ_iff.2 (List.forall_mem_singleton.2 hoperand)
      have hbound := heightBound_succ budget
      have := happly (u.2.join operand.span)
      omega

/-- An operator adds one to the height and costs one level.  Its right operand is read by the same
    loop one level down, and has given that level back when it ends up below the operator. -/
theorem operators_height (budget min : Nat) {left : Expr} {m : Nat}
    (hleft : left.height + budget ≤ m) (hm : heightBound budget + 2 * budget + 2 ≤ m) :
    Gives (operators limit e budget min left) fun x => x.height ≤ m := by
  -- A round adds one to the height and takes one level, so the sum of both stays below `m`.
  induction budget generalizing min left m with
  | zero =>
    unfold operators
    refine .after fun found => ?_
    cases found with
    | none => exact .pure hleft
    | some op => exact tooDeep_gives limit
  | succ budget ih =>
    have hbound := heightBound_succ budget
    unfold operators
    refine .after fun found => ?_
    rcases found with _ | op | _
    · exact .pure (by omega)
    · refine .after fun _ => (unary_height limit he budget).bind fun operand hoperand => ?_
      refine (ih (op.level + 1) (m := heightBound budget + 2 * budget + 2) (by omega)
        (Nat.le_refl _)).bind fun right hright => ?_
      have hnode : ∀ s, (Expr.binary op left right s).height ≤ m - budget := by
        intro s
        obtain ⟨k, hk⟩ : ∃ k, m - budget = k + 1 := ⟨m - budget - 1, by omega⟩
        rw [hk]
        refine Expr.height_le_succ_iff.2 (List.forall_mem_cons.2 ⟨by omega, ?_⟩)
        exact List.forall_mem_singleton.2 (by omega)
      have := hnode (left.span.join right.span)
      exact ih min (by omega) (by omega)
    · refine .after fun _ => (filter_height (he budget)).bind fun first hfirst => ?_
      refine (filters_height (he budget)).bind fun rest hrest => ?_
      have hnode : (filtered left first rest).height ≤ m - budget := by
        obtain ⟨k, hk⟩ : ∃ k, m - budget = k + 1 := ⟨m - budget - 1, by omega⟩
        rw [hk]
        refine Expr.height_le_succ_iff.2 (List.forall_mem_cons.2 ⟨by omega, fun x hx => ?_⟩)
        obtain ⟨f, hf, hxf⟩ := List.mem_flatMap.1 hx
        have hle : x.height ≤ heightBound budget := by
          rcases List.mem_cons.1 hf with rfl | hmem
          · exact hfirst x hxf
          · exact hrest f hmem x hxf
        omega
      exact ih min (by omega) (by omega)

theorem operation_height (budget : Nat) :
    Gives (operation limit e budget) fun x => x.height ≤ heightBound budget + 2 * budget + 2 :=
  (unary_height limit he budget).bind fun first hfirst =>
    operators_height limit he budget 0 (by omega) (Nat.le_refl _)

end

theorem exprWithin_height (limit budget : Nat) :
    Gives (exprWithin limit budget) fun x => x.height ≤ heightBound budget := by
  induction budget using Nat.strongRecOn with
  | ind budget ih =>
    cases budget with
    | zero => rw [exprWithin_zero]; exact tooDeep_gives limit
    | succ budget =>
      rw [exprWithin_succ, heightBound_succ]
      refine ranged_height (operation_height limit (fun k => ?_) budget)
      by_cases hk : k ≤ budget
      · rw [if_pos hk]
        exact ih k (Nat.lt_succ_of_le hk)
      · rw [if_neg hk]
        exact tooDeep_gives limit

theorem expr_height (limit : Nat) :
    Gives (expr limit) fun x => x.height ≤ heightBound limit :=
  exprWithin_height limit limit

/-! ## Patterns -/

section

variable {n : Nat} {inner : Reader Pattern} (hi : Gives inner fun p => p.height ≤ n)

omit hi in
/-- A pattern with nothing inside is as low as any. -/
theorem pattern_height_le_of_children {p : Pattern} (h : p.children = []) : p.height ≤ n + 1 := by
  rw [Pattern.height_le_succ_iff, h]
  exact fun c hc => by cases hc

include hi

theorem fieldPattern_height :
    Gives (fieldPattern inner) fun f => ∀ p ∈ f.pattern?.toList, p.height ≤ n := by
  refine .after fun found => ?_
  cases found with
  | some l => exact .pure fun p hp => by cases hp
  | none =>
    refine .after fun name => .after fun _ => .ite ?_ (.pure fun p hp => by cases hp)
    exact hi.bind fun p hp => .pure (List.forall_mem_singleton.2 hp)

theorem structPattern_height (global : Bool) (first : Ident) (start : Span) :
    Gives (structPattern inner global first start) fun p => p.height ≤ n + 1 := by
  refine .after fun more => .after fun _ => .ite ?_ ?_
  · exact (seq_gives hi _).bind fun s hs => .pure (Pattern.height_le_succ_iff.2 hs)
  · refine .after fun _ => .ite ?_ (.pure ?_)
    · refine (seq_gives (fieldPattern_height hi) _).bind fun s hs => .pure ?_
      refine Pattern.height_le_succ_iff.2 fun c hc => ?_
      obtain ⟨f, hf, hc⟩ := List.mem_flatMap.1 hc
      exact hs f hf c hc
    · unfold pathPattern
      split <;> exact pattern_height_le_of_children rfl

theorem tuplePattern_height (opening : Lexeme) :
    Gives (tuplePattern inner opening) fun p => p.height ≤ n + 1 := by
  refine (seq_gives hi _).bind fun s hs => ?_
  obtain ⟨items, trailing, close⟩ := s
  rcases items with _ | ⟨p, _ | ⟨q, qs⟩⟩
  · exact .pure (pattern_height_le_of_children rfl)
  · cases trailing with
    | false => exact .pure (Nat.le_succ_of_le (hs p List.mem_cons_self))
    | true => exact .pure (Pattern.height_le_succ_iff.2 hs)
  · exact .pure (Pattern.height_le_succ_iff.2 hs)

theorem patternAtom_height : Gives (patternAtom inner) fun p => p.height ≤ n + 1 := by
  refine .after fun found => ?_
  cases found with
  | none => exact unexpected_gives _ _
  | some l =>
    dsimp only
    split
    · exact .pure (pattern_height_le_of_children rfl)
    · refine .after fun found => ?_
      cases found with
      | none => exact unexpected_gives _ _
      | some l =>
        refine .ite ?_ (unexpected_gives _ _)
        exact .after fun v => .pure (pattern_height_le_of_children rfl)
    · exact .after fun first => structPattern_height hi true first l.span
    · exact tuplePattern_height hi l
    · exact (seq_gives hi _).bind fun s hs => .pure (Pattern.height_le_succ_iff.2 hs)
    · refine .after fun _ => .ite (.pure (pattern_height_le_of_children rfl))
        (.ite ?_ (.ite ?_ (unexpected_gives _ _)))
      · exact .after fun v => .pure (pattern_height_le_of_children rfl)
      · exact .after fun first => structPattern_height hi false first l.span

/-- Alternatives take no level, and add one to the height. -/
theorem alternatives_height : Gives (alternatives inner) fun p => p.height ≤ n + 1 := by
  have halternative : Gives (alternative? inner) fun x => ∀ p ∈ x, p.height ≤ n := by
    have hsome : Gives (some <$> inner) fun x => ∀ p ∈ x, p.height ≤ n := by
      refine hi.map fun p hp q hq => ?_
      cases hq
      exact hp
    refine .after fun _ => .ite hsome (.after fun _ => .ite hsome ?_)
    exact .pure fun p hp => by cases hp
  refine hi.bind fun first hfirst => (many_gives halternative).bind fun rest hrest => ?_
  cases rest.getLast? with
  | none => exact .pure (Nat.le_succ_of_le hfirst)
  | some final =>
    exact .pure (Pattern.height_le_succ_iff.2 (List.forall_mem_cons.2 ⟨hfirst, hrest⟩))

end

theorem patternWithin_height (limit budget : Nat) :
    Gives (patternWithin limit budget) fun p => p.height ≤ 2 * budget := by
  induction budget with
  | zero => exact tooDeep_gives limit
  | succ budget ih => exact alternatives_height (patternAtom_height ih)

theorem pattern_height (limit : Nat) : Gives (pattern limit) fun p => p.height ≤ 2 * limit :=
  patternWithin_height limit limit

/-- The pattern of a match arm is one higher if it is taken apart. -/
theorem armPattern_height (limit : Nat) : Gives (armPattern limit) fun p =>
    p.height ≤ 2 * limit ∨ p.isDestructured = true ∧ p.height ≤ 2 * limit + 1 := by
  refine (pattern_height limit).bind fun base hbase => .after fun _ => .ite ?_ (.pure (.inl hbase))
  refine .after fun found => ?_
  cases found with
  | none => exact unexpected_gives _ _
  | some opening =>
    dsimp only
    split
    · exact unexpected_gives _ _
    · refine (seq_gives (pattern_height limit) _).bind fun s hs => .pure (.inr ⟨rfl, ?_⟩)
      exact Pattern.height_le_succ_iff.2 (List.forall_mem_cons.2 ⟨hbase, hs⟩)

end Reader

end Stencil
