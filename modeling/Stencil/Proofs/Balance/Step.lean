/-
  Step — what the walk over the control tags does without complaint.

  `Balance.visit` says for every tag what becomes of the open tags and what is wrong.  To tell which
  rows of tags have nothing wrong, only the tags that fit matter, and of the open tags only their kind,
  their name and whether their `else` has been met: a `Frame`.  `Step` lists what a tag that fits does to
  the frames.  These are exactly the visits without complaint (`step_of_visit`, `visit_of_step`), so a
  row of tags is in order if and only if a `Run` leads from no open tags to none (`check_eq_nil_iff`).
-/
import Stencil.Balance

namespace Stencil

/-! ## What statements open and close -/

/-- Whether the statement stands by itself, at any place. -/
def StmtKind.isPlain : StmtKind → Bool
  | extendFrom _ | includeFrom _ | importAs .. | assign .. => true
  | _ => false

/-- Whether the statement stands by itself, inside a loop only. -/
def StmtKind.isJump : StmtKind → Bool
  | breakLoop | continueLoop => true
  | _ => false

namespace Balance

/-- What the tags after an open tag depend on. -/
structure Frame where
  kind : Opener
  name : Option String
  hasElse : Bool

/-- The frame of a tag that has just been opened. -/
def Frame.new (kind : Opener) (name : Option String) : Frame := ⟨kind, name, false⟩

/-- The frame of an open tag. -/
def Frame.of (o : OpenTag) : Frame := ⟨o.kind, o.name, o.hasElse⟩

/-- The frames of the open tags, the innermost first. -/
def frames (stack : Stack) : List Frame := stack.map Frame.of

/-- Whether one of the open tags is a loop. -/
def loops (fs : List Frame) : Bool := fs.any fun f => f.kind = .forLoop

/-- The frame that a statement opens.  An arm is not among them, since it closes the arm before it. -/
inductive Opens : StmtKind → Frame → Prop
  | block (name : Ident) : Opens (.block name) (.new .block (some name.name))
  | forLoop (p : Pattern) (iterable : Expr) (cond : Option Expr) :
      Opens (.forLoop p iterable cond) (.new .forLoop none)
  | ifCond (c : Cond) : Opens (.ifCond c) (.new .ifCond none)
  | matchOn (subject : Expr) : Opens (.matchOn subject) (.new .matchOn none)
  | macroDef (name : Ident) (params : List Param) :
      Opens (.macroDef name params) (.new .macroDef (some name.name))
  | callBlock (bindings : List Ident) (call : Expr) :
      Opens (.callBlock bindings call) (.new .callBlock none)
  | filterBlock (filters : List Filter) : Opens (.filterBlock filters) (.new .filterBlock none)
  | raw : Opens .raw (.new .raw none)

/-- The kind of tag that an end tag closes, and the name it gives.  The end of a match, which closes
    the last arm too, and the end of an arm are not among them. -/
inductive Closes : StmtKind → Opener → Option String → Prop
  | block (name : Option Ident) : Closes (.endBlock name) .block (name.map (·.name))
  | forLoop : Closes .endFor .forLoop none
  | ifCond : Closes .endIf .ifCond none
  | macroDef (name : Option Ident) : Closes (.endMacro name) .macroDef (name.map (·.name))
  | callBlock : Closes .endCall .callBlock none
  | filterBlock : Closes .endFilter .filterBlock none
  | raw : Closes .endRaw .raw none

/-- The name of a tag and the name on its end tag do not differ; either may have none. -/
def Agree (expected found : Option String) : Prop := ∀ e ∈ expected, ∀ f ∈ found, e = f

theorem agree_none (expected : Option String) : Agree expected none := by
  intro e _ f hf
  cases hf

/-- What a tag that fits does to the frames. -/
inductive Step : List Frame → StmtKind → List Frame → Prop
  | plain {k : StmtKind} (fs : List Frame) (hk : k.isPlain = true) : Step fs k fs
  | jump {k : StmtKind} {fs : List Frame} (hk : k.isJump = true) (hloop : loops fs = true) :
      Step fs k fs
  | opening {k : StmtKind} {f : Frame} (fs : List Frame) (hk : Opens k f) :
      Step fs k (f :: fs)
  | closing {k : StmtKind} {f : Frame} {name : Option String} (fs : List Frame)
      (hk : Closes k f.kind name) (hname : Agree f.name name) : Step (f :: fs) k fs
  | elseIf {f : Frame} (fs : List Frame) (c : Cond)
      (hf : f.kind = .ifCond ∧ f.hasElse = false) : Step (f :: fs) (.elseIf c) (f :: fs)
  | elsePart {f : Frame} (fs : List Frame)
      (hf : (f.kind = .ifCond ∨ f.kind = .forLoop) ∧ f.hasElse = false) :
      Step (f :: fs) .elseCond ({ f with hasElse := true } :: fs)
  | arm {f : Frame} (fs : List Frame) (p : Pattern) (hf : f.kind = .matchOn) :
      Step (f :: fs) (.whenArm p) (.new .whenArm none :: f :: fs)
  | nextArm {a f : Frame} (fs : List Frame) (p : Pattern) (ha : a.kind = .whenArm)
      (hf : f.kind = .matchOn) :
      Step (a :: f :: fs) (.whenArm p) (.new .whenArm none :: f :: fs)
  | endArm {a : Frame} (fs : List Frame) (ha : a.kind = .whenArm) : Step (a :: fs) .endWhen fs
  | endMatch {f : Frame} (fs : List Frame) (hf : f.kind = .matchOn) : Step (f :: fs) .endMatch fs
  | endLastArm {a f : Frame} (fs : List Frame) (ha : a.kind = .whenArm) (hf : f.kind = .matchOn) :
      Step (a :: f :: fs) .endMatch fs

/-! ## Visits without complaint -/

theorem frames_eq_cons_iff {stack : Stack} {f : Frame} {fs : List Frame} :
    frames stack = f :: fs ↔ ∃ o rest, stack = o :: rest ∧ .of o = f ∧ frames rest = fs :=
  List.map_eq_cons_iff

theorem loops_frames (stack : Stack) :
    loops (frames stack) = stack.any fun o => o.kind = .forLoop := by
  unfold loops frames
  rw [List.any_map]
  rfl

theorem misnamed?_eq_none_iff {kind : Opener} {expected found : Option String} {span : Span} :
    misnamed? kind expected found span = none ↔ Agree expected found := by
  cases expected with
  | none => simp [misnamed?, Agree]
  | some e =>
    cases found with
    | none => simp [misnamed?, Agree]
    | some f => simp [misnamed?, Agree]

section

variable {stack stack' : Stack} {span : Span}

theorem closing_eq_iff {kind : Opener} {name : Option String} :
    closing stack kind span name = (stack', none) ↔
      ∃ o, stack = o :: stack' ∧ o.kind = kind ∧ Agree o.name name := by
  constructor
  · intro h
    cases stack with
    | nil => cases h
    | cons o rest =>
      simp only [closing] at h
      split at h
      · next hkind =>
        obtain ⟨rfl, hname⟩ := Prod.mk.inj h
        exact ⟨o, rfl, hkind, misnamed?_eq_none_iff.1 hname⟩
      · cases h
  · rintro ⟨o, rfl, rfl, hname⟩
    simp only [closing, if_true, misnamed?_eq_none_iff.2 hname]

/-- A tag that fits under a condition, and is ignored otherwise. -/
theorem fits_iff {c : Prop} [Decidable c] {after other : Stack} {problem : Diagnostic} :
    (if c then ((after, none) : Outcome) else (other, some problem)) = (stack', none) ↔
      c ∧ stack' = after := by
  constructor
  · intro h
    split at h
    · next hc =>
      cases h
      exact ⟨hc, rfl⟩
    · cases h
  · rintro ⟨hc, rfl⟩
    exact if_pos hc

theorem elseIf_cons_eq_iff {o : OpenTag} : elseIf (o :: stack) span = (stack', none) ↔
    (o.kind = .ifCond ∧ o.hasElse = false) ∧ stack' = o :: stack :=
  fits_iff

theorem elsePart_cons_eq_iff {o : OpenTag} : elsePart (o :: stack) span = (stack', none) ↔
    ((o.kind = .ifCond ∨ o.kind = .forLoop) ∧ o.hasElse = false) ∧
      stack' = { o with hasElse := true } :: stack :=
  fits_iff

theorem inLoop_eq_iff {word : String} : inLoop stack word span = (stack', none) ↔
    loops (frames stack) = true ∧ stack' = stack := by
  rw [loops_frames]
  exact fits_iff

/-- With or without an arm on top, the match is reached. -/
theorem endArm_eq_cons_iff {o : OpenTag} {rest : Stack} (ho : o.kind = .matchOn) :
    endArm stack = o :: rest ↔
      stack = o :: rest ∨ ∃ a, a.kind = .whenArm ∧ stack = a :: o :: rest := by
  constructor
  · intro h
    cases stack with
    | nil => cases h
    | cons a below =>
      simp only [endArm] at h
      split at h
      · next ha => exact .inr ⟨a, ha, by rw [h]⟩
      · exact .inl h
  · rintro (rfl | ⟨a, ha, rfl⟩)
    · simp [endArm, ho]
    · simp [endArm, ha]

theorem arm_eq_iff : arm stack span = (stack', none) ↔
    ∃ o rest, endArm stack = o :: rest ∧ o.kind = .matchOn ∧
      stack' = ⟨.whenArm, span, none, false⟩ :: o :: rest := by
  constructor
  · intro h
    obtain ⟨htop, rfl⟩ := fits_iff.1 h
    obtain ⟨o, hhead, ho⟩ := Option.map_eq_some_iff.1 htop
    obtain ⟨rest, hrest⟩ := List.head?_eq_some_iff.1 hhead
    exact ⟨o, rest, hrest, ho, by rw [hrest]⟩
  · rintro ⟨o, rest, hend, ho, rfl⟩
    refine fits_iff.2 ⟨?_, by rw [hend]⟩
    rw [hend]
    exact congrArg some ho

theorem step_of_closing {k : StmtKind} {kind : Opener} {name : Option String}
    (hk : Closes k kind name) (h : closing stack kind span name = (stack', none)) :
    Step (frames stack) k (frames stack') := by
  obtain ⟨o, rfl, rfl, hname⟩ := closing_eq_iff.1 h
  exact .closing _ hk hname

/-- A visit without complaint is a step. -/
theorem step_of_visit {k : StmtKind} (h : visit stack k span = (stack', none)) :
    Step (frames stack) k (frames stack') := by
  cases k with
  | extendFrom | includeFrom | importAs | assign => cases h; exact .plain _ rfl
  | block | forLoop | ifCond | matchOn | macroDef | callBlock | filterBlock | raw =>
    cases h
    exact .opening _ (by constructor)
  | endBlock | endFor | endIf | endMacro | endCall | endFilter | endRaw =>
    exact step_of_closing (by constructor) h
  | breakLoop | continueLoop =>
    obtain ⟨hloop, rfl⟩ := inLoop_eq_iff.1 h
    exact .jump rfl hloop
  | elseIf c =>
    cases stack with
    | nil => cases h
    | cons o rest =>
      obtain ⟨hallowed, rfl⟩ := elseIf_cons_eq_iff.1 h
      exact .elseIf (frames rest) c hallowed
  | elseCond =>
    cases stack with
    | nil => cases h
    | cons o rest =>
      obtain ⟨hallowed, rfl⟩ := elsePart_cons_eq_iff.1 h
      exact .elsePart (f := .of o) (frames rest) hallowed
  | whenArm p =>
    obtain ⟨o, rest, hend, ho, rfl⟩ := arm_eq_iff.1 h
    rcases (endArm_eq_cons_iff ho).1 hend with rfl | ⟨a, ha, rfl⟩
    · exact .arm (frames rest) p ho
    · exact .nextArm (frames rest) p ha ho
  | endWhen =>
    obtain ⟨o, rfl, hkind, -⟩ := closing_eq_iff.1 h
    exact .endArm _ hkind
  | endMatch =>
    obtain ⟨o, hend, ho, -⟩ := closing_eq_iff.1 h
    rcases (endArm_eq_cons_iff ho).1 hend with rfl | ⟨a, ha, rfl⟩
    · exact .endMatch (frames stack') ho
    · exact .endLastArm (frames stack') ha ho

theorem Closes.visit_eq {k : StmtKind} {kind : Opener} {name : Option String}
    (h : Closes k kind name) : visit stack k span = closing stack kind span name := by
  cases h <;> rfl

/-- A step is a visit without complaint. -/
theorem visit_of_step {k : StmtKind} {fs : List Frame} (h : Step (frames stack) k fs) (span : Span) :
    ∃ stack', visit stack k span = (stack', none) ∧ frames stack' = fs := by
  generalize hframes : frames stack = before at h
  cases h with
  | plain _ hk =>
    cases k <;> cases hk <;> exact ⟨stack, rfl, hframes⟩
  | jump hk hloop =>
    rw [← hframes] at hloop
    refine ⟨stack, ?_, hframes⟩
    cases k <;> cases hk <;> exact inLoop_eq_iff.2 ⟨hloop, rfl⟩
  | @opening _ f _ hk =>
    refine ⟨⟨f.kind, span, f.name, f.hasElse⟩ :: stack, ?_, congrArg (f :: ·) hframes⟩
    cases hk <;> rfl
  | closing fs hk hname =>
    obtain ⟨o, rest, rfl, rfl, rfl⟩ := frames_eq_cons_iff.1 hframes
    refine ⟨rest, ?_, rfl⟩
    rw [hk.visit_eq]
    exact closing_eq_iff.2 ⟨o, rfl, rfl, hname⟩
  | elseIf fs c hallowed =>
    obtain ⟨o, rest, rfl, rfl, rfl⟩ := frames_eq_cons_iff.1 hframes
    exact ⟨_, elseIf_cons_eq_iff.2 ⟨hallowed, rfl⟩, rfl⟩
  | elsePart fs hallowed =>
    obtain ⟨o, rest, rfl, rfl, rfl⟩ := frames_eq_cons_iff.1 hframes
    exact ⟨_, elsePart_cons_eq_iff.2 ⟨hallowed, rfl⟩, rfl⟩
  | arm fs p ho =>
    obtain ⟨o, rest, rfl, rfl, rfl⟩ := frames_eq_cons_iff.1 hframes
    have hend : endArm (o :: rest) = o :: rest := (endArm_eq_cons_iff ho).2 (.inl rfl)
    exact ⟨_, arm_eq_iff.2 ⟨o, rest, hend, ho, rfl⟩, rfl⟩
  | nextArm fs p ha ho =>
    obtain ⟨a, below, rfl, rfl, hbelow⟩ := frames_eq_cons_iff.1 hframes
    obtain ⟨o, rest, rfl, rfl, rfl⟩ := frames_eq_cons_iff.1 hbelow
    have hend : endArm (a :: o :: rest) = o :: rest :=
      (endArm_eq_cons_iff ho).2 (.inr ⟨a, ha, rfl⟩)
    exact ⟨_, arm_eq_iff.2 ⟨o, rest, hend, ho, rfl⟩, rfl⟩
  | endArm fs ha =>
    obtain ⟨a, rest, rfl, rfl, rfl⟩ := frames_eq_cons_iff.1 hframes
    exact ⟨rest, closing_eq_iff.2 ⟨a, rfl, ha, agree_none _⟩, rfl⟩
  | endMatch fs ho =>
    obtain ⟨o, rest, rfl, rfl, rfl⟩ := frames_eq_cons_iff.1 hframes
    have hend : endArm (o :: rest) = o :: rest := (endArm_eq_cons_iff ho).2 (.inl rfl)
    exact ⟨rest, closing_eq_iff.2 ⟨o, hend, ho, agree_none _⟩, rfl⟩
  | endLastArm fs ha ho =>
    obtain ⟨a, below, rfl, rfl, hbelow⟩ := frames_eq_cons_iff.1 hframes
    obtain ⟨o, rest, rfl, rfl, rfl⟩ := frames_eq_cons_iff.1 hbelow
    have hend : endArm (a :: o :: rest) = o :: rest :=
      (endArm_eq_cons_iff ho).2 (.inr ⟨a, ha, rfl⟩)
    exact ⟨rest, closing_eq_iff.2 ⟨o, hend, ho, agree_none _⟩, rfl⟩

end

/-! ## Rows without complaint -/

/-- Tags that fit, one after another. -/
inductive Run : List Frame → List StmtKind → List Frame → Prop
  | nil (fs : List Frame) : Run fs [] fs
  | cons {fs mid fs' : List Frame} {k : StmtKind} {ks : List StmtKind} (hstep : Step fs k mid)
      (hrun : Run mid ks fs') : Run fs (k :: ks) fs'

theorem Run.append {fs mid fs' : List Frame} {ks ks' : List StmtKind} (h : Run fs ks mid)
    (h' : Run mid ks' fs') : Run fs (ks ++ ks') fs' := by
  induction h with
  | nil fs => exact h'
  | cons hstep _ ih => exact .cons hstep (ih h')

theorem Run.single {fs fs' : List Frame} {k : StmtKind} (h : Step fs k fs') : Run fs [k] fs' :=
  .cons h (.nil fs')

theorem finish_eq_nil_iff {stack : Stack} : finish stack = [] ↔ stack = [] := by
  unfold finish
  rw [List.map_eq_nil_iff, List.reverse_eq_nil_iff]

/-- Nothing is wrong with a row of statements if and only if a run through it ends with no tag
    open. -/
theorem check_eq_nil_iff (stack : Stack) (row : List (StmtKind × Span)) :
    check stack row = [] ↔ Run (frames stack) (row.map Prod.fst) [] := by
  induction row generalizing stack with
  | nil =>
    show finish stack = [] ↔ Run (frames stack) [] []
    rw [finish_eq_nil_iff]
    constructor
    · rintro rfl
      exact .nil []
    · intro hrun
      generalize hframes : frames stack = fs at hrun
      cases hrun
      exact List.map_eq_nil_iff.1 hframes
  | cons first row ih =>
    obtain ⟨k, span⟩ := first
    show (visit stack k span).2.toList ++ check (visit stack k span).1 row = [] ↔
      Run (frames stack) (k :: row.map Prod.fst) []
    rw [List.append_eq_nil_iff, Option.toList_eq_nil_iff]
    constructor
    · rintro ⟨hfits, hrest⟩
      exact .cons (step_of_visit (Prod.ext rfl hfits)) ((ih _).1 hrest)
    · intro hrun
      cases hrun with
      | cons hstep hrun =>
        obtain ⟨stack', hvisit, rfl⟩ := visit_of_step hstep span
        rw [hvisit]
        exact ⟨rfl, (ih stack').2 hrun⟩

end Balance

end Stencil
