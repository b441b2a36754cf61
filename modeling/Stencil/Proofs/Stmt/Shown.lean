/-
  Shown — the statement that the printed text of a statement spells out.

  The text of a statement shows its expressions with groups added (`Expr.shown`), and its patterns with
  nested alternatives run together: `a | (b | c)` is printed as `a | b | c` (`Pattern.flatten`).  Nothing
  else is changed.  In particular the text shows the same kind of statement with the same names, and a
  part is left out exactly where the statement has none; that is its outline, the statement with all
  expressions and patterns forgotten (`outline_of_bare_eq`).
-/
import Stencil.Proofs.Expr.Shown
import Stencil.Proofs.Limit.Height
import Mathlib.Data.List.Basic

namespace Stencil

/-! ## Patterns -/

/-- The alternatives of the pattern; one that has none is its only one. -/
def Pattern.branches : Pattern → List Pattern
  | alternatives ps _ => ps
  | p => [p]

mutual

/-- The pattern with alternatives directly inside of alternatives put into one list. -/
def Pattern.flatten : Pattern → Pattern
  | .lit v s => .lit v s
  | .ident n s => .ident n s
  | .path p s => .path p s
  | .placeholder s => .placeholder s
  | .rest s => .rest s
  | .tupleStruct p ps s => .tupleStruct p (Pattern.flattenList ps) s
  | .struct p fs s => .struct p (FieldPattern.flattenList fs) s
  | .tuple ps s => .tuple (Pattern.flattenList ps) s
  | .slice ps s => .slice (Pattern.flattenList ps) s
  | .alternatives ps s => .alternatives (Pattern.flattenBranches ps) s
  | .destructured p ps s => .destructured p.flatten (Pattern.flattenList ps) s

def Pattern.flattenList : List Pattern → List Pattern
  | [] => []
  | p :: ps => p.flatten :: Pattern.flattenList ps

/-- The alternatives of all the patterns. -/
def Pattern.flattenBranches : List Pattern → List Pattern
  | [] => []
  | p :: ps => p.flatten.branches ++ Pattern.flattenBranches ps

def Pattern.flattenOption : Option Pattern → Option Pattern
  | none => none
  | some p => some p.flatten

def FieldPattern.flatten : FieldPattern → FieldPattern
  | .field n p => .field n (Pattern.flattenOption p)
  | .rest s => .rest s

def FieldPattern.flattenList : List FieldPattern → List FieldPattern
  | [] => []
  | f :: fs => f.flatten :: FieldPattern.flattenList fs

end

theorem Pattern.flattenList_eq (ps : List Pattern) :
    Pattern.flattenList ps = ps.map Pattern.flatten := by
  induction ps with
  | nil => rfl
  | cons p ps ih => rw [Pattern.flattenList, ih, List.map_cons]

theorem Pattern.flattenBranches_eq (ps : List Pattern) :
    Pattern.flattenBranches ps = ps.flatMap fun p => p.flatten.branches := by
  induction ps with
  | nil => rfl
  | cons p ps ih => rw [Pattern.flattenBranches, ih, List.flatMap_cons]

theorem FieldPattern.flattenList_eq (fs : List FieldPattern) :
    FieldPattern.flattenList fs = fs.map FieldPattern.flatten := by
  induction fs with
  | nil => rfl
  | cons f fs ih => rw [FieldPattern.flattenList, ih, List.map_cons]

namespace Pattern

/-- What passes from the patterns directly inside to a pattern holds of every pattern. -/
theorem children_induction {motive : Pattern → Prop}
    (h : ∀ p : Pattern, (∀ c ∈ p.children, motive c) → motive p) (p : Pattern) : motive p := by
  induction hheight : p.height using Nat.strongRecOn generalizing p with
  | ind n ih =>
    subst hheight
    refine h p fun c hc => ih c.height ?_ c rfl
    have hle : p.height ≤ (p.height - 1) + 1 := by omega
    have hchild := height_le_succ_iff.1 hle c hc
    have hpos := p.height_pos
    omega

theorem branches_move (g : Nat → Nat) (p : Pattern) : (move g p).branches = move g p.branches := by
  cases p with
  | alternatives ps s => rw [move_alternatives]; rfl
  | _ => rfl

/-- Where a pattern stands plays no part in how its alternatives are put together. -/
theorem move_flatten (g : Nat → Nat) (p : Pattern) : move g p.flatten = (move g p).flatten := by
  induction p using children_induction with
  | h p ih =>
    have hlist : ∀ ps : List Pattern, (∀ c ∈ ps, move g c.flatten = (move g c).flatten) →
        move g (flattenList ps) = flattenList (move g ps) := by
      intro ps hps
      show (flattenList ps).map (move g) = flattenList (ps.map (move g))
      rw [flattenList_eq, flattenList_eq, List.map_map, List.map_map]
      exact List.map_congr_left hps
    cases p with
    | tupleStruct p ps s =>
      rw [move_tupleStruct, flatten, flatten, move_tupleStruct, hlist ps ih]
    | tuple ps s => rw [move_tuple, flatten, flatten, move_tuple, hlist ps ih]
    | slice ps s => rw [move_slice, flatten, flatten, move_slice, hlist ps ih]
    | destructured p ps s =>
      obtain ⟨hbase, hparts⟩ := List.forall_mem_cons.1 ih
      rw [move_destructured, flatten, flatten, move_destructured, hlist ps hparts, hbase]
    | alternatives ps s =>
      have hbranches : move g (flattenBranches ps) = flattenBranches (move g ps) := by
        show (flattenBranches ps).map (move g) = flattenBranches (ps.map (move g))
        rw [flattenBranches_eq, flattenBranches_eq, List.map_flatMap, List.flatMap_map]
        refine List.flatMap_congr fun c hc => ?_
        rw [← ih c hc, branches_move]
        rfl
      rw [move_alternatives, flatten, flatten, move_alternatives, hbranches]
    | struct p fs s =>
      have hfields : move g (FieldPattern.flattenList fs) = FieldPattern.flattenList (move g fs) := by
        show (FieldPattern.flattenList fs).map (move g) = FieldPattern.flattenList (fs.map (move g))
        rw [FieldPattern.flattenList_eq, FieldPattern.flattenList_eq, List.map_map, List.map_map]
        refine List.map_congr_left fun f hf => ?_
        cases f with
        | rest s => rfl
        | field n q =>
          cases q with
          | none => rfl
          | some q =>
            have hq := ih q (List.mem_flatMap.2 ⟨_, hf, List.mem_cons_self⟩)
            exact congrArg (fun q => FieldPattern.field (move g n) (some q)) hq
      rw [move_struct, flatten, flatten, move_struct, hfields]
    | _ => rfl

end Pattern

/-! ## Statements -/

/-- The condition with `f` applied to its expression and `h` to its pattern. -/
def Cond.mapParts (f : Expr → Expr) (h : Pattern → Pattern) : Cond → Cond
  | expr c => .expr (f c)
  | bind p v => .bind (h p) (f v)

/-- The parameter with `f` applied to its default. -/
def Param.map (f : Expr → Expr) (p : Param) : Param := ⟨p.name, p.default.map f⟩

namespace StmtKind

/-- The statement with `f` applied to its expressions and `h` to its patterns. -/
def mapParts (f : Expr → Expr) (h : Pattern → Pattern) : StmtKind → StmtKind
  | assign word mutable p v => .assign word mutable (h p) (v.map f)
  | forLoop p e c => .forLoop (h p) (f e) (c.map f)
  | ifCond c => .ifCond (c.mapParts f h)
  | elseIf c => .elseIf (c.mapParts f h)
  | matchOn e => .matchOn (f e)
  | whenArm p => .whenArm (h p)
  | macroDef n ps => .macroDef n (ps.map (Param.map f))
  | callBlock bs e => .callBlock bs (f e)
  | filterBlock fs => .filterBlock (fs.map (Filter.map f))
  | k => k

/-- What the text of the statement shows. -/
def shown (k : StmtKind) : StmtKind := k.mapParts Expr.shown Pattern.flatten

/-- The statement with all expressions and patterns forgotten, and all places: its kind, its words and
    names, and which of its parts there are. -/
def outline (k : StmtKind) : StmtKind :=
  (bare k).mapParts (fun _ => .unit ⟨0, 0⟩) fun _ => .placeholder ⟨0, 0⟩

theorem mapParts_mapParts (f f' : Expr → Expr) (h h' : Pattern → Pattern) (k : StmtKind) :
    (k.mapParts f h).mapParts f' h' = k.mapParts (fun e => f' (f e)) fun p => h' (h p) := by
  cases k with
  | assign word mutable p v => cases v <;> rfl
  | forLoop p e c => cases c <;> rfl
  | ifCond c => cases c <;> rfl
  | elseIf c => cases c <;> rfl
  | macroDef n ps =>
    show macroDef n ((ps.map (Param.map f)).map (Param.map f')) = _
    rw [List.map_map]
    refine congrArg (macroDef n) (List.map_congr_left fun p _ => ?_)
    cases hdefault : p.default <;> simp [Param.map, hdefault]
  | filterBlock fs =>
    show filterBlock ((fs.map (Filter.map f)).map (Filter.map f')) = _
    rw [List.map_map]
    exact congrArg filterBlock (List.map_congr_left fun x _ => Filter.map_map _ _ x)
  | _ => rfl

theorem move_mapParts {g : Nat → Nat} {f : Expr → Expr} {h : Pattern → Pattern}
    (hf : ∀ e, move g (f e) = f (move g e)) (hh : ∀ p, move g (h p) = h (move g p)) (k : StmtKind) :
    move g (k.mapParts f h) = (move g k).mapParts f h := by
  have hoption : ∀ x : Option Expr, move g (x.map f) = (move g x).map f := by
    intro x
    cases x with
    | none => rfl
    | some e => exact congrArg some (hf e)
  have hcond : ∀ c : Cond, move g (c.mapParts f h) = (move g c).mapParts f h := by
    intro c
    cases c with
    | expr e => exact congrArg Cond.expr (hf e)
    | bind p v => exact congrArg₂ Cond.bind (hh p) (hf v)
  cases k with
  | assign word mutable p v => exact congrArg₂ (assign word mutable) (hh p) (hoption v)
  | forLoop p e c =>
    show forLoop (move g (h p)) (move g (f e)) (move g (c.map f)) = _
    rw [hh, hf, hoption]
    rfl
  | ifCond c => exact congrArg ifCond (hcond c)
  | elseIf c => exact congrArg elseIf (hcond c)
  | matchOn e => exact congrArg matchOn (hf e)
  | whenArm p => exact congrArg whenArm (hh p)
  | callBlock bs e => exact congrArg (callBlock (move g bs)) (hf e)
  | macroDef n ps =>
    refine congrArg (macroDef (move g n)) ?_
    show (ps.map (Param.map f)).map (move g) = (ps.map (move g)).map (Param.map f)
    rw [List.map_map, List.map_map]
    exact List.map_congr_left fun p _ => congrArg (Param.mk (move g p.name)) (hoption p.default)
  | filterBlock fs =>
    refine congrArg filterBlock ?_
    show (fs.map (Filter.map f)).map (move g) = (fs.map (move g)).map (Filter.map f)
    rw [List.map_map, List.map_map]
    exact List.map_congr_left fun x _ => Filter.move_map fun e _ => hf e
  | _ => rfl

theorem bare_shown (k : StmtKind) : bare k.shown = (bare k).shown :=
  move_mapParts Expr.move_shown (Pattern.move_flatten _) k

/-- The text shows the kind of the statement, its names, and which parts there are. -/
theorem outline_of_bare_eq {k k' : StmtKind} (h : bare k' = (bare k).shown) :
    k'.outline = k.outline := by
  unfold outline
  rw [h, shown, mapParts_mapParts]

end StmtKind

end Stencil
