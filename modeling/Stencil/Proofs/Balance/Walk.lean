/-
  Walk — what one tag does to the open tags, and what a row of tags does.

  `Effect` lists everything a visit can do, the complaints included.  The crux is the tags that end an
  arm before it is known whether they belong here: an arm and the end of a match both drop the arm on
  top of the open tags and only then look for the match.  That they never drop an arm in vain rests on
  the invariant `ArmsOnMatches`: an arm is opened directly on a match, and nothing can be closed from
  under it.  Under it every visit is an `Effect` (`effect_of_visit`), a visit that refuses its tag
  leaves the open tags as they were, and every `Effect` keeps the invariant (`Effect.armsOnMatches`).

  For a row of tags, `after` is what is open behind it and `reports` is what it is complained of on the
  way; with the complaints about the tags still open at the end they are all (`check_eq`).
-/
import Mathlib.Data.List.Perm.Subperm
import Stencil.Proofs.Balance.Report

namespace Stencil

/-! ## What statements open and close -/

/-- The kind of tag that the statement opens. -/
def StmtKind.opens? : StmtKind → Option Opener
  | block _ => some .block
  | forLoop .. => some .forLoop
  | ifCond _ => some .ifCond
  | matchOn _ => some .matchOn
  | whenArm _ => some .whenArm
  | macroDef .. => some .macroDef
  | callBlock .. => some .callBlock
  | filterBlock _ => some .filterBlock
  | raw => some .raw
  | _ => none

/-- The kind of tag that the statement is the end tag of. -/
def StmtKind.closes? : StmtKind → Option Opener
  | endBlock _ => some .block
  | endFor => some .forLoop
  | endIf => some .ifCond
  | endMatch => some .matchOn
  | endWhen => some .whenArm
  | endMacro _ => some .macroDef
  | endCall => some .callBlock
  | endFilter => some .filterBlock
  | endRaw => some .raw
  | _ => none

/-- The name that the statement gives as an end tag. -/
def StmtKind.endName? : StmtKind → Option String
  | endBlock name | endMacro name => name.map (·.name)
  | _ => none

theorem StmtKind.opens?_eq_none_of_closes? {k : StmtKind} {kind : Opener}
    (h : k.closes? = some kind) : k.opens? = none := by
  cases k <;> first | rfl | cases h

namespace Balance

/-- Every open arm of a match lies directly on an open match. -/
def ArmsOnMatches (stack : Stack) : Prop :=
  ∀ o below, o :: below <:+ stack → o.kind = .whenArm → top? below = some .matchOn

/-- The open tags that an end tag of the kind looks at.  The end of a match passes over the arm on top. -/
def closable (kind : Opener) (stack : Stack) : Stack := if kind = .matchOn then endArm stack else stack

/-- The complaints that a tag does not belong at its place. -/
inductive Refuses : Imbalance → Prop
  | misplaced (tag : String) : Refuses (.misplaced tag)
  | outsideLoop (word : String) : Refuses (.outsideLoop word)

/-- What the visit of a statement does. -/
inductive Effect (stack : Stack) (k : StmtKind) (span : Span) : Outcome → Prop
  /-- The statement changes nothing. -/
  | kept (hk : k.opens? = none) : Effect stack k span (stack, none)
  /-- The tag does not belong here and is ignored. -/
  | refused (problem : Imbalance) (h : Refuses problem) :
      Effect stack k span (stack, some ⟨.unbalanced problem, span⟩)
  /-- The `else` of the innermost tag is met. -/
  | elseMet (o : OpenTag) (rest : Stack) (hk : k.opens? = none) (hstack : stack = o :: rest) :
      Effect stack k span ({ o with hasElse := true } :: rest, none)
  | opened (kind : Opener) (name : Option String) (hk : k.opens? = some kind)
      (harm : kind = .whenArm → top? stack = some .matchOn) :
      Effect stack k span (⟨kind, span, name, false⟩ :: stack, none)
  /-- An arm ends the arm before it. -/
  | nextArm (a : OpenTag) (rest : Stack) (ha : a.kind = .whenArm) (hk : k.opens? = some .whenArm)
      (hmatch : top? rest = some .matchOn) (hstack : stack = a :: rest) :
      Effect stack k span (⟨.whenArm, span, none, false⟩ :: rest, none)
  /-- An end tag closes the innermost tag, even if it names another one. -/
  | closed (o : OpenTag) (rest : Stack) (name : Option String) (hk : k.closes? = some o.kind)
      (hstack : stack = o :: rest) :
      Effect stack k span (rest, misnamed? o.kind o.name name span)
  /-- The end of a match ends its last arm too. -/
  | closedMatch (a o : OpenTag) (rest : Stack) (ha : a.kind = .whenArm) (ho : o.kind = .matchOn)
      (hk : k.closes? = some .matchOn) (hstack : stack = a :: o :: rest) :
      Effect stack k span (rest, none)

section

variable {stack : Stack} {k : StmtKind} {span : Span} {out : Outcome}

/-! ## Arms lie on matches -/

theorem armsOnMatches_nil : ArmsOnMatches [] := by
  intro o below hsuffix
  cases List.suffix_nil.1 hsuffix

theorem armsOnMatches_cons_iff {o : OpenTag} :
    ArmsOnMatches (o :: stack) ↔
      (o.kind = .whenArm → top? stack = some .matchOn) ∧ ArmsOnMatches stack := by
  constructor
  · intro h
    exact ⟨h o stack List.suffix_rfl, fun p below hsuffix =>
      h p below (hsuffix.trans (List.suffix_cons o stack))⟩
  · rintro ⟨htop, hrest⟩ p below hsuffix harm
    rcases List.suffix_cons_iff.1 hsuffix with heq | hsuffix
    · obtain ⟨rfl, rfl⟩ := List.cons.inj heq
      exact htop harm
    · exact hrest p below hsuffix harm

theorem top?_eq_some_iff {kind : Opener} :
    top? stack = some kind ↔ ∃ o rest, stack = o :: rest ∧ o.kind = kind := by
  cases stack with
  | nil => simp [top?]
  | cons o rest => simp [top?]

/-! ## One tag -/

theorem effect_closing {kind : Opener} {name : Option String} (hk : k.closes? = some kind) :
    Effect stack k span (closing stack kind span name) := by
  cases stack with
  | nil => exact .refused _ (.misplaced _)
  | cons o rest =>
    simp only [closing]
    split
    · next ho =>
      subst ho
      exact .closed o rest name hk rfl
    · exact .refused _ (.misplaced _)

theorem effect_inLoop (word : String) (hk : k.opens? = none) :
    Effect stack k span (inLoop stack word span) := by
  unfold inLoop
  split
  · exact .kept hk
  · exact .refused _ (.outsideLoop word)

theorem effect_elseIf (hk : k.opens? = none) : Effect stack k span (elseIf stack span) := by
  unfold elseIf
  split
  · split
    · exact .kept hk
    · exact .refused _ (.misplaced _)
  · exact .refused _ (.misplaced _)

theorem effect_elsePart (hk : k.opens? = none) : Effect stack k span (elsePart stack span) := by
  unfold elsePart
  split
  · next o rest =>
    split
    · exact .elseMet o rest hk rfl
    · exact .refused _ (.misplaced _)
  · exact .refused _ (.misplaced _)

theorem effect_arm (hk : k.opens? = some .whenArm) (harms : ArmsOnMatches stack) :
    Effect stack k span (arm stack span) := by
  cases stack with
  | nil => exact .refused _ (.misplaced _)
  | cons a rest =>
    by_cases ha : a.kind = .whenArm
    · -- The arm on top lies on a match, so dropping it is never in vain.
      have hmatch : top? rest = some .matchOn := (armsOnMatches_cons_iff.1 harms).1 ha
      have hvisit : arm (a :: rest) span = (⟨.whenArm, span, none, false⟩ :: rest, none) := by
        simp only [arm, endArm, if_pos ha, if_pos hmatch, opening]
      rw [hvisit]
      exact .nextArm a rest ha hk hmatch rfl
    · simp only [arm, endArm, if_neg ha]
      split
      · next hmatch => exact .opened .whenArm none hk fun _ => hmatch
      · exact .refused _ (.misplaced _)

theorem effect_endMatch (hk : k.closes? = some .matchOn) (harms : ArmsOnMatches stack) :
    Effect stack k span (closing (endArm stack) .matchOn span none) := by
  cases stack with
  | nil => exact .refused _ (.misplaced _)
  | cons a rest =>
    by_cases ha : a.kind = .whenArm
    · obtain ⟨o, rest, rfl, ho⟩ := top?_eq_some_iff.1 ((armsOnMatches_cons_iff.1 harms).1 ha)
      have hvisit : closing (endArm (a :: o :: rest)) .matchOn span none = (rest, none) := by
        simp [closing, endArm, ha, ho, misnamed?]
      rw [hvisit]
      exact .closedMatch a o rest ha ho hk rfl
    · simp only [endArm, if_neg ha]
      exact effect_closing hk

/-- Every visit does one of the things listed, as long as the arms lie on matches. -/
theorem effect_of_visit (harms : ArmsOnMatches stack) (k : StmtKind) (span : Span) :
    Effect stack k span (visit stack k span) := by
  cases k with
  | block | forLoop | ifCond | matchOn | macroDef | callBlock | filterBlock | raw =>
    exact .opened _ _ rfl Opener.noConfusion
  | endBlock | endFor | endIf | endMacro | endCall | endFilter | endWhen | endRaw =>
    exact effect_closing rfl
  | whenArm p => exact effect_arm rfl harms
  | endMatch => exact effect_endMatch rfl harms
  | elseIf c => exact effect_elseIf rfl
  | elseCond => exact effect_elsePart rfl
  | breakLoop => exact effect_inLoop "break" rfl
  | continueLoop => exact effect_inLoop "continue" rfl
  | extendFrom | includeFrom | importAs | assign => exact .kept rfl

/-- The step lemma: whatever a visit does, the arms still lie on matches. -/
theorem Effect.armsOnMatches (h : Effect stack k span out) (harms : ArmsOnMatches stack) :
    ArmsOnMatches out.1 := by
  cases h with
  | kept hk => exact harms
  | refused problem h => exact harms
  | elseMet o rest hk hstack =>
    subst hstack
    obtain ⟨htop, hrest⟩ := armsOnMatches_cons_iff.1 harms
    exact armsOnMatches_cons_iff.2 ⟨htop, hrest⟩
  | opened kind name hk harm => exact armsOnMatches_cons_iff.2 ⟨harm, harms⟩
  | nextArm a rest ha hk hmatch hstack =>
    subst hstack
    exact armsOnMatches_cons_iff.2 ⟨fun _ => hmatch, (armsOnMatches_cons_iff.1 harms).2⟩
  | closed o rest name hk hstack =>
    subst hstack
    exact (armsOnMatches_cons_iff.1 harms).2
  | closedMatch a o rest ha ho hk hstack =>
    subst hstack
    exact (armsOnMatches_cons_iff.1 (armsOnMatches_cons_iff.1 harms).2).2

/-! ### What a complaint means -/

/-- A complaint about a visited tag, with the open tags before and after: either the tag is refused
    and nothing changes, or it names another tag than the innermost one, which it closes. -/
inductive Complaint (k : StmtKind) (span : Span) : Stack → Diagnostic → Stack → Prop
  | refused {stack : Stack} {problem : Imbalance} (h : Refuses problem) :
      Complaint k span stack ⟨.unbalanced problem, span⟩ stack
  | misnamed {o : OpenTag} {rest : Stack} {expected found : String} (hk : k.closes? = some o.kind)
      (hname : o.name = some expected) (hne : expected ≠ found) :
      Complaint k span (o :: rest) ⟨.unbalanced (.misnamed o.kind expected found), span⟩ rest

/-- An end tag is named wrongly when both tags have a name and these differ. -/
theorem misnamed?_eq_some_iff {kind : Opener} {expected? found? : Option String} {e : Diagnostic} :
    misnamed? kind expected? found? span = some e ↔
      ∃ expected found, expected? = some expected ∧ found? = some found ∧ expected ≠ found ∧
        e = ⟨.unbalanced (.misnamed kind expected found), span⟩ := by
  constructor
  · intro h
    unfold misnamed? at h
    split at h
    · next expected found =>
      split at h
      · cases h
      · next hne => exact ⟨expected, found, rfl, rfl, hne, (Option.some.inj h).symm⟩
    · cases h
  · rintro ⟨expected, found, rfl, rfl, hne, rfl⟩
    exact if_neg hne

/-- An end tag closes the innermost tag if that has its kind, whatever the names are. -/
theorem visit_of_closes? {o : OpenTag} {rest : Stack} (hk : k.closes? = some o.kind)
    (hstack : closable o.kind stack = o :: rest) :
    visit stack k span = (rest, misnamed? o.kind o.name k.endName? span) := by
  have hvisit : visit stack k span = closing (closable o.kind stack) o.kind span k.endName? := by
    cases k <;> cases hkind : o.kind <;> first | rfl | (rw [hkind] at hk; cases hk)
  rw [hvisit, hstack]
  exact if_pos rfl

theorem Effect.complaint {e : Diagnostic} (h : Effect stack k span out) (he : out.2 = some e) :
    Complaint k span stack e out.1 := by
  cases h with
  | refused problem h =>
    cases he
    exact .refused h
  | closed o rest name hk hstack =>
    subst hstack
    obtain ⟨expected, found, hname, -, hne, rfl⟩ := misnamed?_eq_some_iff.1 he
    exact .misnamed hk hname hne
  | kept | elseMet | opened | nextArm | closedMatch => cases he

/-! ### Which tags are open -/

/-- What stays of an open tag as long as it is open: its kind and its place. -/
def key (o : OpenTag) : Opener × Span := (o.kind, o.span)

/-- Whether the statement ends open tags of the kind: with an end tag, or an arm with what comes
    after it in its match. -/
def Terminates (k : StmtKind) (kind : Opener) : Prop :=
  k.closes? = some kind ∨
    (kind = .whenArm ∧ (k.opens? = some .whenArm ∨ k.closes? = some .matchOn))

/-- The open tags before and after a visit: those that are ended, those that stay, and at most one
    that is new.  A visit that opens a tag does not complain. -/
structure Turnover (stack : Stack) (k : StmtKind) (span : Span) (out : Outcome)
    (ended kept added : List (Opener × Span)) : Prop where
  before : stack.map key = ended ++ kept
  after : out.1.map key = added ++ kept
  ends : ∀ x ∈ ended, Terminates k x.1
  opens : added = [] ∧ (k.opens? = none ∨ out.2 ≠ none) ∨
    out.2 = none ∧ ∃ kind, k.opens? = some kind ∧ added = [(kind, span)]

theorem Effect.turnover (h : Effect stack k span out) :
    ∃ ended kept added, Turnover stack k span out ended kept added := by
  cases h with
  | kept hk =>
    exact ⟨[], _, [], rfl, rfl, List.forall_mem_nil _, .inl ⟨rfl, .inl hk⟩⟩
  | refused problem h =>
    exact ⟨[], _, [], rfl, rfl, List.forall_mem_nil _, .inl ⟨rfl, .inr (Option.some_ne_none _)⟩⟩
  | elseMet o rest hk hstack =>
    subst hstack
    exact ⟨[], _, [], rfl, rfl, List.forall_mem_nil _, .inl ⟨rfl, .inl hk⟩⟩
  | opened kind name hk harm =>
    exact ⟨[], _, [(kind, span)], rfl, rfl, List.forall_mem_nil _, .inr ⟨rfl, kind, hk, rfl⟩⟩
  | nextArm a rest ha hk hmatch hstack =>
    subst hstack
    exact ⟨[key a], _, [(.whenArm, span)], rfl, rfl,
      List.forall_mem_singleton.2 (.inr ⟨ha, .inl hk⟩), .inr ⟨rfl, _, hk, rfl⟩⟩
  | closed o rest name hk hstack =>
    subst hstack
    exact ⟨[key o], _, [], rfl, rfl, List.forall_mem_singleton.2 (.inl hk),
      .inl ⟨rfl, .inl (StmtKind.opens?_eq_none_of_closes? hk)⟩⟩
  | closedMatch a o rest ha ho hk hstack =>
    subst hstack
    refine ⟨[key a, key o], _, [], rfl, rfl, ?_,
      .inl ⟨rfl, .inl (StmtKind.opens?_eq_none_of_closes? hk)⟩⟩
    refine List.forall_mem_cons.2 ⟨.inr ⟨ha, .inr hk⟩, List.forall_mem_singleton.2 (.inl ?_)⟩
    rw [hk, ← ho]
    rfl

/-- The only statement that may be refused although it opens a tag is an arm. -/
theorem refused_of_opens? {kind : Opener} {e : Diagnostic} (hk : k.opens? = some kind)
    (he : (visit stack k span).2 = some e) :
    kind = .whenArm ∧ e = ⟨.unbalanced (.misplaced "when"), span⟩ := by
  cases k with
  | whenArm p =>
    cases hk
    refine ⟨rfl, ?_⟩
    change (arm stack span).2 = some e at he
    unfold arm at he
    dsimp only at he
    split at he
    · cases he
    · exact (Option.some.inj he).symm
  | block | forLoop | ifCond | matchOn | macroDef | callBlock | filterBlock | raw => cases he
  | _ => cases hk

end

/-! ## A row of tags -/

/-- The tags that are open after a row. -/
def after (stack : Stack) (row : List (StmtKind × Span)) : Stack :=
  row.foldl (fun open' t => (visit open' t.1 t.2).1) stack

/-- The complaints about the tags of a row while they are visited. -/
def reports (stack : Stack) : List (StmtKind × Span) → List Diagnostic
  | [] => []
  | (k, span) :: rest => (visit stack k span).2.toList ++ reports (visit stack k span).1 rest

section

variable (stack : Stack) (row : List (StmtKind × Span))

/-- The complaints on the way come first, then those about the tags still open. -/
theorem check_eq : check stack row = reports stack row ++ finish (after stack row) := by
  induction row generalizing stack with
  | nil => rfl
  | cons t row ih =>
    show (visit stack t.1 t.2).2.toList ++ check (visit stack t.1 t.2).1 row = _
    rw [ih, ← List.append_assoc]
    rfl

theorem after_concat (t : StmtKind × Span) :
    after stack (row ++ [t]) = (visit (after stack row) t.1 t.2).1 :=
  List.foldl_append

variable {stack row}

/-- The run lemma: after every row the arms lie on matches. -/
theorem armsOnMatches_after (h : ArmsOnMatches stack) : ArmsOnMatches (after stack row) := by
  induction row generalizing stack with
  | nil => exact h
  | cons t row ih => exact ih ((effect_of_visit h t.1 t.2).armsOnMatches h)

/-- The visit of a tag of the row, seen from the rows that end before it and behind it. -/
theorem after_take_succ {n : Nat} {t : StmtKind × Span} (ht : row[n]? = some t) :
    after stack (row.take (n + 1)) = (visit (after stack (row.take n)) t.1 t.2).1 := by
  rw [List.take_add_one, ht]
  exact after_concat stack (row.take n) t

theorem mem_reports_iff {e : Diagnostic} :
    e ∈ reports stack row ↔ ∃ (n : Nat) (t : StmtKind × Span), row[n]? = some t ∧
      (visit (after stack (row.take n)) t.1 t.2).2 = some e := by
  induction row generalizing stack with
  | nil => simp [reports]
  | cons t row ih =>
    show e ∈ (visit stack t.1 t.2).2.toList ++ reports (visit stack t.1 t.2).1 row ↔ _
    rw [List.mem_append, Option.mem_toList, ih]
    constructor
    · rintro (he | ⟨n, u, hu, he⟩)
      · exact ⟨0, t, rfl, he⟩
      · exact ⟨n + 1, u, hu, he⟩
    · rintro ⟨n, u, hu, he⟩
      cases n with
      | zero =>
        cases hu
        exact .inl he
      | succ n => exact .inr ⟨n, u, hu, he⟩

/-! ### Places -/

theorem map_snd_key (stack : Stack) : (stack.map key).map Prod.snd = stack.map (·.span) := by
  rw [List.map_map]
  rfl

theorem map_span_finish (stack : Stack) :
    (finish stack).map (·.span) = (stack.map (·.span)).reverse := by
  unfold finish
  rw [List.map_map, ← List.map_reverse]
  rfl

/-- A complaint of the visit is about the visited tag, which is then not opened. -/
theorem Turnover.places {k : StmtKind} {span : Span} {ended kept added : List (Opener × Span)}
    (h : Turnover stack k span (visit stack k span) ended kept added) :
    ((visit stack k span).2.toList.map (·.span) ++ added.map Prod.snd).Sublist [span] := by
  cases hproblem : (visit stack k span).2 with
  | none =>
    obtain ⟨rfl, -⟩ | ⟨-, kind, -, rfl⟩ := h.opens
    · exact List.nil_sublist _
    · exact List.Sublist.refl _
  | some e =>
    obtain ⟨rfl, -⟩ | ⟨hnone, -⟩ := h.opens
    · have hspan : e.span = span := ((visit_visits stack k span).problem e hproblem).1
      rw [← hspan]
      exact List.Sublist.refl _
    · rw [hproblem] at hnone
      cases hnone

/-- Each tag is complained of once at most, when it is visited or because it stays open: the places
    of the complaints are among those of the tags, each taken once. -/
theorem places_subperm (h : ArmsOnMatches stack) :
    ((check stack row).map (·.span)).Subperm (stack.map (·.span) ++ row.map Prod.snd) := by
  induction row generalizing stack with
  | nil =>
    show ((finish stack).map (·.span)).Subperm (stack.map (·.span) ++ [])
    rw [map_span_finish, List.append_nil]
    exact (List.reverse_perm _).subperm
  | cons t row ih =>
    obtain ⟨k, span⟩ := t
    have heffect := effect_of_visit h k span
    obtain ⟨ended, kept, added, hturn⟩ := heffect.turnover
    show (((visit stack k span).2.toList ++ check (visit stack k span).1 row).map (·.span)).Subperm
      (stack.map (·.span) ++ span :: row.map Prod.snd)
    have hrest := ih (heffect.armsOnMatches h)
    rw [← map_snd_key, hturn.after, List.map_append] at hrest
    rw [← map_snd_key stack, hturn.before, List.map_append, List.map_append]
    have hplaces := hturn.places
    generalize (visit stack k span).2.toList.map (·.span) = own at hplaces ⊢
    have hown : (own ++ ((added.map Prod.snd ++ kept.map Prod.snd) ++ row.map Prod.snd)).Subperm
        (span :: ((ended.map Prod.snd ++ kept.map Prod.snd) ++ row.map Prod.snd)) := by
      rw [List.append_assoc (added.map Prod.snd), ← List.append_assoc own]
      exact (hplaces.append ((List.sublist_append_right _ _).append_right _)).subperm
    exact ((List.subperm_append_left own).2 hrest).trans (hown.trans List.perm_middle.symm.subperm)

/-- The complaints made on the way come in the order of the tags. -/
theorem reports_sublist : ((reports stack row).map (·.span)).Sublist (row.map Prod.snd) := by
  induction row generalizing stack with
  | nil => exact List.Sublist.refl _
  | cons t row ih =>
    obtain ⟨k, span⟩ := t
    show (((visit stack k span).2.toList ++ reports (visit stack k span).1 row).map (·.span)).Sublist
      ([span] ++ row.map Prod.snd)
    rw [List.map_append]
    refine List.Sublist.append ?_ ih
    cases hproblem : (visit stack k span).2 with
    | none => exact List.nil_sublist _
    | some e =>
      rw [← ((visit_visits stack k span).problem e hproblem).1]
      exact List.Sublist.refl _

/-- The tags that are open lie on each other in the order of the row. -/
theorem after_sublist (h : ArmsOnMatches stack) :
    ((after stack row).map (·.span)).reverse.Sublist
      ((stack.map (·.span)).reverse ++ row.map Prod.snd) := by
  induction row generalizing stack with
  | nil => exact List.sublist_append_left _ _
  | cons t row ih =>
    obtain ⟨k, span⟩ := t
    have heffect := effect_of_visit h k span
    obtain ⟨ended, kept, added, hturn⟩ := heffect.turnover
    have hadded : (added.map Prod.snd).reverse.Sublist [span] :=
      ((List.sublist_append_right _ _).trans hturn.places).reverse
    have hrest := ih (heffect.armsOnMatches h)
    refine hrest.trans ?_
    rw [← map_snd_key, ← map_snd_key stack, hturn.after, hturn.before, List.map_append,
      List.map_append, List.reverse_append, List.reverse_append, List.append_assoc]
    exact (List.sublist_append_left _ _).append (hadded.append_right (row.map Prod.snd))

end

end Balance

end Stencil
