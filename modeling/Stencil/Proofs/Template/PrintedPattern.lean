/-
  PrintedPattern — a printed pattern is read back.

  The text of a pattern is put into a match arm of its own.  What is read there is the pattern with its
  nested alternatives run together, so two patterns with the same text differ in nothing but places and
  in how alternatives are nested in them.  This holds of each pattern inside of another one as well:
  whatever occurs in a normal pattern is normal, and the text of a normal match arm is read back
  (`Stencil.Proofs.Template.PrintedStmt`).

  To compare the two sides it takes one more fact: running alternatives together a second time changes
  nothing (`Pattern.flatten_flatten`).
-/
import Stencil.Proofs.Template.Height
import Stencil.Proofs.Template.PrintedStmt

namespace Stencil

namespace Pattern

/-! ## What occurs in a normal pattern -/

theorem Normal.child [Letters] {p c : Pattern} (h : p.Normal) (hc : c ∈ p.children) : c.Normal := by
  cases h with
  | mk _ children => exact children c hc

theorem Normal.part [Letters] {p q : Pattern} (h : p.Normal) (hq : p.HasPart q) : q.Normal := by
  induction hq with
  | self p => exact h
  | child hc _ ih => exact ih (h.child hc)

/-- Only the whole pattern of a match arm may be taken apart by a list after it. -/
theorem ArmNormal.part [Letters] {p q : Pattern} (h : p.ArmNormal) (hq : p.HasPart q) : q.ArmNormal := by
  cases hq with
  | self => exact h
  | @child _ c _ hc hq =>
    have hchild : c.Normal := by
      cases p with
      | destructured base parts s =>
        rcases List.mem_cons.1 hc with rfl | hc
        · exact h.1
        · exact h.2 c hc
      | _ => exact Normal.child h hc
    exact (hchild.part hq).arm

/-! ## Alternatives run together -/

/-- What is run together stays as it is: both the pattern and each of its alternatives, none of which
    has alternatives itself. -/
theorem flatten_settled (p : Pattern) :
    p.flatten.flatten = p.flatten ∧ ∀ q ∈ p.flatten.branches, q.flatten = q ∧ q.branches = [q] := by
  induction p using children_induction with
  | h p ih =>
    have hlist : ∀ ps : List Pattern, (∀ c ∈ ps, c.flatten.flatten = c.flatten) →
        flattenList (flattenList ps) = flattenList ps := by
      intro ps hps
      rw [flattenList_eq, flattenList_eq, List.map_map]
      exact List.map_congr_left hps
    -- A pattern without alternatives is the only one of its branches.
    have hatom : p.flatten.branches = [p.flatten] → p.flatten.flatten = p.flatten →
        p.flatten.flatten = p.flatten ∧ ∀ q ∈ p.flatten.branches, q.flatten = q ∧ q.branches = [q] := by
      intro hbranches hflat
      refine ⟨hflat, fun q hq => ?_⟩
      rw [hbranches, List.mem_singleton] at hq
      subst hq
      exact ⟨hflat, hbranches⟩
    cases p with
    | tupleStruct p ps s =>
      exact hatom rfl (congrArg (tupleStruct p · s) (hlist ps fun c hc => (ih c hc).1))
    | tuple ps s => exact hatom rfl (congrArg (tuple · s) (hlist ps fun c hc => (ih c hc).1))
    | slice ps s => exact hatom rfl (congrArg (slice · s) (hlist ps fun c hc => (ih c hc).1))
    | destructured p ps s =>
      obtain ⟨hbase, hparts⟩ := List.forall_mem_cons.1 ih
      exact hatom rfl (congrArg₂ (destructured · · s) hbase.1 (hlist ps fun c hc => (hparts c hc).1))
    | struct p fs s =>
      refine hatom rfl (congrArg (struct p · s) ?_)
      rw [FieldPattern.flattenList_eq, FieldPattern.flattenList_eq, List.map_map]
      refine List.map_congr_left fun f hf => ?_
      cases f with
      | rest s => rfl
      | field n q =>
        cases q with
        | none => rfl
        | some q =>
          have hq := (ih q (List.mem_flatMap.2 ⟨_, hf, List.mem_cons_self⟩)).1
          exact congrArg (fun q => FieldPattern.field n (some q)) hq
    | alternatives ps s =>
      have hbranches : ∀ q ∈ flattenBranches ps, q.flatten = q ∧ q.branches = [q] := by
        intro q hq
        rw [flattenBranches_eq] at hq
        obtain ⟨c, hc, hmem⟩ := List.mem_flatMap.1 hq
        exact (ih c hc).2 q hmem
      refine ⟨congrArg (alternatives · s) ?_, hbranches⟩
      calc flattenBranches (flattenBranches ps)
          = (flattenBranches ps).flatMap fun q => q.flatten.branches := flattenBranches_eq _
        _ = (flattenBranches ps).flatMap fun q => [q] :=
            List.flatMap_congr fun q hq => by rw [(hbranches q hq).1, (hbranches q hq).2]
        _ = flattenBranches ps := List.flatMap_singleton' _
    | _ => exact hatom rfl rfl

/-- Running alternatives together a second time changes nothing. -/
theorem flatten_flatten (p : Pattern) : p.flatten.flatten = p.flatten := p.flatten_settled.1

end Pattern

/-! ## Patterns of a template -/

theorem Cond.Normal.pattern [Letters] {c : Cond} (h : c.Normal) : ∀ p ∈ c.pattern?, p.Normal := by
  cases c with
  | expr e => exact nofun
  | bind p v => rintro _ ⟨rfl⟩; exact h.1

/-- The patterns of a normal statement are those of match arms at most. -/
theorem StmtKind.Normal.patterns [Letters] {k : StmtKind} (h : k.Normal) : ∀ p ∈ k.patterns, p.ArmNormal := by
  cases k with
  | assign word mutable p v => exact List.forall_mem_singleton.2 (Pattern.Normal.arm h.1)
  | forLoop p e c => exact List.forall_mem_singleton.2 (Pattern.Normal.arm h.1)
  | whenArm p => exact List.forall_mem_singleton.2 h
  | ifCond c => exact fun p hp => (Cond.Normal.pattern h p (Option.mem_toList.1 hp)).arm
  | elseIf c => exact fun p hp => (Cond.Normal.pattern h p (Option.mem_toList.1 hp)).arm
  | _ => exact nofun

namespace Template

/-- The patterns of a template are as they come out of a tag. -/
theorem patterns_armNormal [Letters] {s : Settings} {source : String} {n : Node}
    (hn : n ∈ (s.parse source).template.nodes) {root p : Pattern} (hroot : root ∈ n.patterns)
    (hp : root.HasPart p) : p.ArmNormal := by
  cases n with
  | tag t trims span => exact ((stmt_normal hn).patterns root hroot).part hp
  | _ => cases hroot

/-- The text of every pattern of a template, however deep inside of another one, is read back as the
    pattern of a match arm under every sufficiently large limit.  The arm is the only node and nothing
    is wrong with it.  The two patterns are the same when places are forgotten and alternatives directly
    inside of alternatives are put into one list. -/
theorem printed_pattern_read_back [Letters] (limit : Nat) (source : String) (n : Node)
    (hn : n ∈ (Settings.parse ⟨.standard, limit⟩ source).template.nodes) (root : Pattern)
    (hroot : root ∈ n.patterns) (p : Pattern) (hp : root.HasPart p) :
    ∃ bound, ∀ limit, bound ≤ limit →
      let read := Settings.parse ⟨.standard, limit⟩ (stmtSource ("when " ++ p.render))
      ∃ p' place trims span, read.template.nodes = [.tag ⟨.whenArm p', place⟩ trims span] ∧
        read.diagnostics = [] ∧ (bare p').flatten = (bare p).flatten := by
  have hnormal : (StmtKind.whenArm p).Normal := patterns_armNormal hn hroot hp
  obtain ⟨bound, hregions⟩ := hnormal.regions_printed rfl
  refine ⟨bound, fun limit hlimit => ?_⟩
  obtain ⟨⟨kind, place⟩, trims, span, rest, hkind, hread, hend⟩ := hregions limit hlimit
  -- The text shows a match arm, so it is one, and the pattern in it is the one that was run together.
  cases kind with
  | whenArm p' =>
    have hp' : bare p' = (bare p).flatten := StmtKind.whenArm.inj hkind
    unfold Settings.parse
    dsimp only
    rw [show "when " ++ p.render = (StmtKind.whenArm p).render from rfl, hread, hend rfl]
    refine ⟨p', place, trims, span, rfl, rfl, ?_⟩
    rw [hp', Pattern.flatten_flatten]
  | _ => cases hkind

/-- Alternatives that stand in parentheses inside of others are read back as one list with them. -/
theorem printed_alternatives_read_back :
    let source := "\x7b% when [P \x7b y: (-1 | (b or 2)), .. \x7d] with [c] %\x7d"
    ∃ n ∈ (parse source).template.nodes, ∃ root ∈ n.patterns, ∃ p, root.HasPart p ∧
      p.render = "-1 | b | 2" ∧ p.flatten.same p = false ∧
      ∃ bound, ∀ limit, bound ≤ limit →
        let read := Settings.parse ⟨.standard, limit⟩ (stmtSource ("when " ++ p.render))
        ∃ p' place trims span, read.template.nodes = [.tag ⟨.whenArm p', place⟩ trims span] ∧
          read.diagnostics = [] ∧ (bare p').flatten = (bare p).flatten := by
  intro source
  have hfound : (parse source).template.nodes.any (fun n => n.patterns.any fun root =>
      root.children.any fun a => a.children.any fun b => b.children.any fun p =>
        p.render == "-1 | b | 2" && !(p.flatten.same p)) = true := by
    decide +kernel
  obtain ⟨n, hn, hroots⟩ := List.any_eq_true.1 hfound
  obtain ⟨root, hroot, has⟩ := List.any_eq_true.1 hroots
  obtain ⟨a, ha, hbs⟩ := List.any_eq_true.1 has
  obtain ⟨b, hb, hps⟩ := List.any_eq_true.1 hbs
  obtain ⟨p, hp, hboth⟩ := List.any_eq_true.1 hps
  rw [Bool.and_eq_true, beq_iff_eq, Bool.not_eq_true'] at hboth
  have hpart : root.HasPart p := .child ha (.child hb (.child hp (.self p)))
  exact ⟨n, hn, root, hroot, p, hpart, hboth.1, hboth.2,
    printed_pattern_read_back 64 source n hn root hroot p hpart⟩

end Template

end Stencil
