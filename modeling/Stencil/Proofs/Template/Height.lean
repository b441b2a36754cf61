/-
  Height — the trees of a template are not high, whatever the source.

  A template can come from anyone, and what works on its trees goes down them by recursion.  The limit
  of nesting keeps the trees low: `Stencil.Proofs.Limit.Height` says how high a single expression or
  pattern can be, and this module follows both through statements, tags and whole sources.  Only the
  pattern of a match arm that is taken apart is one higher than other patterns.  The bounds are 0 for
  a limit of 0, and no tree has a height of 0.
-/
import Stencil.Proofs.Limit.Height
import Stencil.Proofs.Template.Exprs
import Stencil.Proofs.Template.Extent

namespace Stencil

/-! ## The patterns of a node -/

/-- The pattern of a condition, if it has one. -/
def Cond.pattern? : Cond → Option Pattern
  | expr _ => none
  | bind p _ => some p

/-- The full patterns of a statement. -/
def StmtKind.patterns : StmtKind → List Pattern
  | assign _ _ p _ | forLoop p _ _ | whenArm p => [p]
  | ifCond c | elseIf c => c.pattern?.toList
  | _ => []

/-- The full patterns of a node. -/
def Node.patterns : Node → List Pattern
  | tag stmt _ _ => stmt.kind.patterns
  | _ => []

/-! ## Statements -/

/-- Whether the pattern is as low as the limit asks. -/
def Pattern.IsLow (limit : Nat) (p : Pattern) : Prop :=
  p.height ≤ 2 * limit ∨ p.isDestructured = true ∧ p.height ≤ 2 * limit + 1

/-- Every expression and every pattern of a statement or node is as low as the limit asks. -/
structure AreLow (limit : Nat) (exprs : List Expr) (patterns : List Pattern) : Prop where
  exprs : ∀ e ∈ exprs, e.height ≤ Reader.heightBound limit
  patterns : ∀ p ∈ patterns, p.IsLow limit

theorem AreLow.nil (limit : Nat) : AreLow limit [] [] :=
  ⟨List.forall_mem_nil _, List.forall_mem_nil _⟩

theorem Pattern.IsLow.part {limit : Nat} {p q : Pattern} (hp : p.IsLow limit) (h : p.HasPart q) :
    q.IsLow limit := by
  rcases h.eq_or_height_lt with rfl | hlt
  · exact hp
  · -- What is inside of a pattern that is taken apart has lost the one that it may be higher.
    left
    rcases hp with hle | ⟨-, hle⟩ <;> omega

/-- Under the limit 0 no pattern is low: one that is taken apart has another inside of it. -/
theorem Pattern.not_isLow_zero (p : Pattern) : ¬ p.IsLow 0 := by
  rintro (hle | ⟨hdestructured, hle⟩)
  · exact absurd p.height_pos (Nat.not_lt.2 hle)
  · cases p with
    | destructured base ps span =>
      have hbase := Pattern.height_le_succ_iff.1 hle base List.mem_cons_self
      exact absurd base.height_pos (Nat.not_lt.2 hbase)
    | _ => cases hdestructured

namespace Reader

variable {α : Type} {P : α → Prop} (limit : Nat)

theorem after?_gives {item : Reader α} (hitem : Gives item P) (token : Token) :
    Gives (after? token item) fun x => ∀ a ∈ x, P a := by
  refine .after fun _ => .ite ?_ ?_
  · refine hitem.map fun a ha b hb => ?_
    cases hb
    exact ha
  · exact .pure fun a ha => by cases ha

theorem cond_height : Gives (cond limit) fun c =>
    c.value.height ≤ heightBound limit ∧ ∀ p ∈ c.pattern?, p.height ≤ 2 * limit := by
  refine .after fun _ => .ite ?_ ?_
  · refine (pattern_height limit).bind fun p hp => .after fun _ => ?_
    refine (expr_height limit).bind fun e he => .pure ⟨he, fun q hq => ?_⟩
    cases hq
    exact hp
  · exact (expr_height limit).bind fun e he => .pure ⟨he, fun p hp => by cases hp⟩

/-- A branch is as low as its condition. -/
theorem areLow_of_cond {c : Cond}
    (h : c.value.height ≤ heightBound limit ∧ ∀ p ∈ c.pattern?, p.height ≤ 2 * limit) :
    AreLow limit [c.value] c.pattern?.toList :=
  ⟨List.forall_mem_singleton.2 h.1, fun p hp => .inl (h.2 p (Option.mem_toList.1 hp))⟩

theorem param_height : Gives (param limit) fun p =>
    ∀ e ∈ p.default, e.height ≤ heightBound limit :=
  .after fun _ => (after?_gives (expr_height limit) _).bind fun _ hvalue => .pure hvalue

theorem assign_height (word : LetWord) :
    Gives (assign limit word) fun k => AreLow limit k.exprs k.patterns := by
  refine .after fun _ => (pattern_height limit).bind fun p hp => ?_
  refine (after?_gives (expr_height limit) _).bind fun value hvalue => .pure ⟨?_, ?_⟩
  · exact fun e he => hvalue e (Option.mem_toList.1 he)
  · exact List.forall_mem_singleton.2 (.inl hp)

theorem forLoop_height : Gives (forLoop limit) fun k => AreLow limit k.exprs k.patterns := by
  refine (pattern_height limit).bind fun p hp => .after fun _ => ?_
  refine (expr_height limit).bind fun iterable hiterable => ?_
  refine (after?_gives (expr_height limit) _).bind fun cond hcond => .pure ⟨?_, ?_⟩
  · exact List.forall_mem_cons.2 ⟨hiterable, fun e he => hcond e (Option.mem_toList.1 he)⟩
  · exact List.forall_mem_singleton.2 (.inl hp)

theorem macroDef_height : Gives (macroDef limit) fun k => AreLow limit k.exprs k.patterns := by
  refine .after fun _ => .after fun _ => (seq_gives (param_height limit) _).bind fun s hs => ?_
  refine .pure ⟨fun e he => ?_, List.forall_mem_nil _⟩
  obtain ⟨param, hparam, hmem⟩ := List.mem_flatMap.1 he
  exact hs param hparam e (Option.mem_toList.1 hmem)

theorem callBlock_height : Gives (callBlock limit) fun k => AreLow limit k.exprs k.patterns := by
  refine .after fun _ => (expr_height limit).bind fun call hcall => .ite ?_ ?_
  · exact .pure ⟨List.forall_mem_singleton.2 hcall, List.forall_mem_nil _⟩
  · exact .after fun found => unexpected_gives _ found

theorem filterBlock_height :
    Gives (filterBlock limit) fun k => AreLow limit k.exprs k.patterns := by
  refine (filter_height (expr_height limit)).bind fun first hfirst => ?_
  refine (filters_height (expr_height limit)).bind fun more hmore => ?_
  refine .pure ⟨fun e he => ?_, List.forall_mem_nil _⟩
  obtain ⟨f, hf, hmem⟩ := List.mem_flatMap.1 he
  rcases List.mem_cons.1 hf with rfl | hf
  · exact hfirst e hmem
  · exact hmore f hf e hmem

theorem stmtKind?_height {k : Keyword} {body : Reader StmtKind}
    (h : stmtKind? limit k = some body) :
    Gives body fun kind => AreLow limit kind.exprs kind.patterns := by
  cases k with
  | letKw | setKw => cases h; exact assign_height limit _
  | forKw => cases h; exact forLoop_height limit
  | ifKw | elif => cases h; exact (cond_height limit).map fun _ hc => areLow_of_cond limit hc
  | elseKw =>
    cases h
    refine (after?_gives (cond_height limit) _).bind fun found hfound => ?_
    cases found with
    | none => exact .pure (.nil limit)
    | some c => exact .pure (areLow_of_cond limit (hfound c rfl))
  | matchKw =>
    cases h
    refine (expr_height limit).map fun e he => ?_
    exact ⟨List.forall_mem_singleton.2 he, List.forall_mem_nil _⟩
  | whenKw =>
    cases h
    refine (armPattern_height limit).map fun p hp => ?_
    exact ⟨List.forall_mem_nil _, List.forall_mem_singleton.2 hp⟩
  | macroKw => cases h; exact macroDef_height limit
  | callKw => cases h; exact callBlock_height limit
  | filterKw => cases h; exact filterBlock_height limit
  -- The other statements hold neither expressions nor patterns.
  | blockKw | endBlock | extendsKw | includeKw | endMacro =>
    cases h
    exact (Gives.any _).map fun _ _ => .nil limit
  | importKw =>
    cases h
    exact .after fun _ => .after fun _ => .after fun _ => .pure (.nil limit)
  | endFor | breakKw | continueKw | endIf | endMatch | endWhen | endCall | endFilter | rawKw
  | endRaw =>
    cases h
    exact .pure (.nil limit)
  | _ => cases h

theorem stmt_height : Gives (stmt limit) fun s => AreLow limit s.kind.exprs s.kind.patterns := by
  refine .after fun found => ?_
  cases found with
  | none => exact unexpected_gives _ none
  | some l =>
    dsimp only
    split
    · split
      · exact unexpected_gives _ (some l)
      · next body hbody =>
        exact (stmtKind?_height limit hbody).bind fun kind hkind => .after fun _ => .pure hkind
    · exact unexpected_gives _ (some l)

end Reader

/-! ## Templates -/

namespace Region

open Reader

theorem body_height (limit : Nat) (kind : TagKind) (trims : Trims) (span : Span) :
    Gives (body limit kind) fun r =>
      AreLow limit (r.1.toNode trims span).exprs (r.1.toNode trims span).patterns := by
  cases kind with
  | expr =>
    have hexpr : Gives (Body.expr <$> expr limit) fun b =>
        AreLow limit (b.toNode trims span).exprs (b.toNode trims span).patterns := by
      refine (expr_height limit).map fun e he => ?_
      exact ⟨List.forall_mem_singleton.2 he, List.forall_mem_nil _⟩
    exact hexpr.bind fun b hb => .after fun _ => .pure hb
  | block =>
    have hstmt : Gives (Body.stmt <$> stmt limit) fun b =>
        AreLow limit (b.toNode trims span).exprs (b.toNode trims span).patterns :=
      (stmt_height limit).map fun _ hs => hs
    exact hstmt.bind fun b hb => .after fun _ => .pure hb

/-- A turn gives a node that is as low as the limit asks. -/
theorem Turn.areLow [Letters] {s : Settings} {lx next : Lexer} {r : Region} (h : Turn s lx r next)
    {n : Node} (hn : r.node = some n) : AreLow s.limit n.exprs n.patterns := by
  cases h with
  | fault h =>
    unfold ofFault at hn
    dsimp only at hn
    split at hn
    · cases hn
    · cases hn
      split <;> exact .nil _
  | @tag l kind inside h hl =>
    cases hbody : body s.limit kind (feedOf s l inside) with
    | error diagnostic =>
      rw [readTag_of_error hbody] at hn
      cases hn
      exact .nil _
    | ok result =>
      obtain ⟨⟨b, closing⟩, rest⟩ := result
      rw [readTag_of_ok hbody] at hn
      cases hn
      exact body_height s.limit kind _ _ _ _ _ hbody
  | lexeme h hl =>
    unfold ofLexeme at hn
    split at hn <;> cases hn <;> exact .nil _

end Region

namespace Template

/-- Under a limit `l` every expression of a template, however deep inside of a tag, is at most
    `l * l + 2 * l` high.  Every pattern is at most `2 * l` high, or `2 * l + 1` if it is taken apart
    in a match arm.  Under the limit 0 there are no expressions and no patterns. -/
theorem heights_bounded [Letters] (s : Settings) (source : String) (n : Node)
    (hn : n ∈ (s.parse source).template.nodes) :
    (∀ root ∈ n.exprs, ∀ e, root.HasPart e → e.height ≤ s.limit * s.limit + 2 * s.limit) ∧
      (∀ root ∈ n.patterns, ∀ p, root.HasPart p →
        p.height ≤ 2 * s.limit ∨ p.isDestructured = true ∧ p.height ≤ 2 * s.limit + 1) ∧
      (s.limit = 0 → n.exprs = [] ∧ n.patterns = []) := by
  obtain ⟨used, place, r, next, -, -, hturn, hr⟩ := exists_turn_of_node hn
  have hlow := hturn.areLow hr
  refine ⟨fun root hroot e he => ?_, fun root hroot p hp => ?_, fun hlimit => ⟨?_, ?_⟩⟩
  · exact Nat.le_trans he.height_le (hlow.exprs root hroot)
  · exact (hlow.patterns root hroot).part hp
  · refine List.eq_nil_iff_forall_not_mem.2 fun e he => ?_
    have hle := hlow.exprs e he
    rw [hlimit] at hle
    exact absurd e.height_pos (Nat.not_lt.2 hle)
  · refine List.eq_nil_iff_forall_not_mem.2 fun p hp => ?_
    have hp := hlow.patterns p hp
    rw [hlimit] at hp
    exact p.not_isLow_zero hp

/-- Under a limit of one level the loop has an expression of height 3 and a pattern of height 2, and
    the match arm a pattern of height 3: none of the bounds is too large there. -/
theorem heights_reached :
    let s : Settings := ⟨Delims.standard, 1⟩
    let source := "\x7b% for a | b in () is defined .. %\x7d\x7b% when a | b with (c) %\x7d"
    ∃ n ∈ (s.parse source).template.nodes, ∃ m ∈ (s.parse source).template.nodes,
      (n.exprs.map Expr.height = [3] ∧ n.patterns.map Pattern.height = [2] ∧
        m.patterns.map Pattern.height = [3]) ∧
      (∀ root ∈ n.exprs, ∀ e, root.HasPart e → e.height ≤ 1 * 1 + 2 * 1) ∧
      (∀ root ∈ n.patterns, ∀ p, root.HasPart p →
        p.height ≤ 2 * 1 ∨ p.isDestructured = true ∧ p.height ≤ 2 * 1 + 1) ∧
      (∀ root ∈ m.patterns, ∀ p, root.HasPart p →
        p.height ≤ 2 * 1 ∨ p.isDestructured = true ∧ p.height ≤ 2 * 1 + 1) := by
  intro s source
  have hloop : (s.parse source).template.nodes.any (fun n =>
      n.exprs.map Expr.height == [3] && n.patterns.map Pattern.height == [2]) = true := by
    decide +kernel
  have harm : (s.parse source).template.nodes.any (fun n =>
      n.patterns.map Pattern.height == [3]) = true := by
    decide +kernel
  obtain ⟨n, hn, hheights⟩ := List.any_eq_true.1 hloop
  obtain ⟨m, hm, hheight⟩ := List.any_eq_true.1 harm
  simp only [Bool.and_eq_true, beq_iff_eq] at hheights hheight
  obtain ⟨hexprs, hpatterns, -⟩ := heights_bounded s source n hn
  obtain ⟨-, hpatterns', -⟩ := heights_bounded s source m hm
  exact ⟨n, hn, m, hm, ⟨hheights.1, hheights.2, hheight⟩, hexprs, hpatterns, hpatterns'⟩

end Template

end Stencil
