/-
  Grammar — the rows of control tags that are in order.

  `Stencil.Balance` walks a row of tags with a stack.  Here the same is said by a grammar, in which
  nothing is remembered but whether a loop is around: `Derives`.  The walk has nothing to complain about
  if and only if the row can be derived (`validate_eq_nil_iff`).

  From the grammar to the walk, a derived row leads back to the tags that were open before it, by
  induction on the derivation (`Derives.leads`).  From the walk to the grammar, the tags still open
  have to be accounted for: `Completes fs ks` says that `ks` begins with a row of items inside the
  innermost of the frames `fs`, goes on with what ends that frame, and so on outwards.  Put before such a
  row, a tag that fits gives such a row again (`Completes.step`): an item grows, a frame that was open
  becomes an item, or a frame gets its end.
-/
import Stencil.Proofs.Balance.Step

namespace Stencil

namespace Balance

/-! ## The grammar -/

/-- An opening tag and an end tag around any row of items.  An end tag may repeat the name. -/
inductive Encloses : StmtKind → StmtKind → Prop
  | block {name : Ident} {repeated : Option Ident} (h : ∀ r ∈ repeated, r.name = name.name) :
      Encloses (.block name) (.endBlock repeated)
  | macroDef {name : Ident} {repeated : Option Ident} (params : List Param)
      (h : ∀ r ∈ repeated, r.name = name.name) :
      Encloses (.macroDef name params) (.endMacro repeated)
  | callBlock (bindings : List Ident) (call : Expr) : Encloses (.callBlock bindings call) .endCall
  | filterBlock (filters : List Filter) : Encloses (.filterBlock filters) .endFilter
  | raw : Encloses .raw .endRaw

/-- What a stretch of a row of tags can be. -/
inductive Part where
  | item
  /-- Any number of items. -/
  | body
  /-- What follows the first body of a branch, with its end tag. -/
  | branches
  /-- What follows the first body of a match, with its end tag. -/
  | arms

/-- `Derives part inLoop ks`: the statements `ks` make up such a part, where `inLoop` says whether a
    loop is around them. -/
inductive Derives : Part → Bool → List StmtKind → Prop
  | nil (inLoop : Bool) : Derives .body inLoop []
  | cons {inLoop : Bool} {u w : List StmtKind} (hu : Derives .item inLoop u)
      (hw : Derives .body inLoop w) : Derives .body inLoop (u ++ w)
  | plain {k : StmtKind} (inLoop : Bool) (hk : k.isPlain = true) : Derives .item inLoop [k]
  | jump {k : StmtKind} (hk : k.isJump = true) : Derives .item true [k]
  | enclosed {inLoop : Bool} {o c : StmtKind} {w : List StmtKind} (h : Encloses o c)
      (hw : Derives .body inLoop w) : Derives .item inLoop (o :: (w ++ [c]))
  | loop {w : List StmtKind} (inLoop : Bool) (p : Pattern) (iterable : Expr) (cond : Option Expr)
      (hw : Derives .body true w) :
      Derives .item inLoop (.forLoop p iterable cond :: (w ++ [.endFor]))
  | loopElse {w v : List StmtKind} (inLoop : Bool) (p : Pattern) (iterable : Expr)
      (cond : Option Expr) (hw : Derives .body true w) (hv : Derives .body true v) :
      Derives .item inLoop
        (.forLoop p iterable cond :: (w ++ .elseCond :: (v ++ [.endFor])))
  | branch {inLoop : Bool} {w v : List StmtKind} (c : Cond) (hw : Derives .body inLoop w)
      (hv : Derives .branches inLoop v) : Derives .item inLoop (.ifCond c :: (w ++ v))
  | elseIf {inLoop : Bool} {w v : List StmtKind} (c : Cond) (hw : Derives .body inLoop w)
      (hv : Derives .branches inLoop v) : Derives .branches inLoop (.elseIf c :: (w ++ v))
  | elsePart {inLoop : Bool} {w : List StmtKind} (hw : Derives .body inLoop w) :
      Derives .branches inLoop (.elseCond :: (w ++ [.endIf]))
  | endIf (inLoop : Bool) : Derives .branches inLoop [.endIf]
  | matching {inLoop : Bool} {w v : List StmtKind} (subject : Expr) (hw : Derives .body inLoop w)
      (hv : Derives .arms inLoop v) : Derives .item inLoop (.matchOn subject :: (w ++ v))
  | arm {inLoop : Bool} {w v : List StmtKind} (p : Pattern) (hw : Derives .body inLoop w)
      (hv : Derives .arms inLoop v) : Derives .arms inLoop (.whenArm p :: (w ++ v))
  | endedArm {inLoop : Bool} {w u v : List StmtKind} (p : Pattern) (hw : Derives .body inLoop w)
      (hu : Derives .body inLoop u) (hv : Derives .arms inLoop v) :
      Derives .arms inLoop (.whenArm p :: (w ++ .endWhen :: (u ++ v)))
  | endMatch (inLoop : Bool) : Derives .arms inLoop [.endMatch]

/-! ## From the grammar to the walk -/

theorem loops_cons_of_loops (f : Frame) {fs : List Frame} (h : loops fs = true) :
    loops (f :: fs) = true := by
  unfold loops at h ⊢
  rw [List.any_cons, h, Bool.or_true]

theorem agree_some_iff {name : Ident} {repeated : Option Ident} :
    Agree (some name.name) (repeated.map (·.name)) ↔ ∀ r ∈ repeated, r.name = name.name := by
  constructor
  · intro h r hr
    exact (h name.name rfl r.name (Option.mem_map_of_mem _ hr)).symm
  · intro h e he f hf
    cases he
    obtain ⟨r, hr, rfl⟩ := Option.map_eq_some_iff.1 hf
    exact (h r hr).symm

theorem Encloses.opens_closes {o c : StmtKind} (h : Encloses o c) :
    ∃ f name, Opens o f ∧ Closes c f.kind name ∧ Agree f.name name := by
  cases h with
  | @block name repeated h =>
    exact ⟨_, _, .block name, .block repeated, agree_some_iff.2 h⟩
  | @macroDef name repeated params h =>
    exact ⟨_, _, .macroDef name params, .macroDef repeated, agree_some_iff.2 h⟩
  | callBlock bindings call => exact ⟨_, _, .callBlock bindings call, .callBlock, agree_none _⟩
  | filterBlock filters => exact ⟨_, _, .filterBlock filters, .filterBlock, agree_none _⟩
  | raw => exact ⟨_, _, .raw, .raw, agree_none _⟩

/-- Where the walk over a part begins, and where it leads to. -/
def Part.Leads (fs : List Frame) (ks : List StmtKind) : Part → Prop
  | item | body => Run fs ks fs
  | branches => Run (.new .ifCond none :: fs) ks fs
  | arms => Run (.new .matchOn none :: fs) ks fs ∧
      Run (.new .whenArm none :: .new .matchOn none :: fs) ks fs

/-- A derived part leads back to the tags that are open around it. -/
theorem Derives.leads {part : Part} {inLoop : Bool} {ks : List StmtKind}
    (h : Derives part inLoop ks) (fs : List Frame) (hloop : inLoop = true → loops fs = true) :
    part.Leads fs ks := by
  -- Inside of any tag, loops that were around are still around.
  have hinside : ∀ {b : Bool} {fs : List Frame}, (b = true → loops fs = true) →
      ∀ f, b = true → loops (f :: fs) = true :=
    fun h f hb => loops_cons_of_loops f (h hb)
  induction h generalizing fs with
  | nil => exact .nil fs
  | cons _ _ ihu ihw => exact (ihu fs hloop).append (ihw fs hloop)
  | plain _ hk => exact .single (.plain fs hk)
  | jump hk => exact .single (.jump hk (hloop rfl))
  | enclosed h _ ih =>
    obtain ⟨f, name, hopens, hcloses, hname⟩ := h.opens_closes
    have hbody := ih (f :: fs) (hinside hloop f)
    exact .cons (.opening fs hopens) (hbody.append (.single (.closing fs hcloses hname)))
  | loop _ p iterable cond _ ih =>
    have hbody := ih (.new .forLoop none :: fs) fun _ => rfl
    have hend : Step (.new .forLoop none :: fs) .endFor fs := .closing fs .forLoop (agree_none _)
    exact .cons (.opening fs (.forLoop p iterable cond)) (hbody.append (.single hend))
  | loopElse _ p iterable cond _ _ ihw ihv =>
    have hbody := ihw (.new .forLoop none :: fs) fun _ => rfl
    have hother := ihv (⟨.forLoop, none, true⟩ :: fs) fun _ => rfl
    have hend : Step (⟨.forLoop, none, true⟩ :: fs) .endFor fs :=
      .closing fs .forLoop (agree_none _)
    have helse : Step (.new .forLoop none :: fs) .elseCond (⟨.forLoop, none, true⟩ :: fs) :=
      .elsePart fs ⟨.inr rfl, rfl⟩
    have hrest := Run.cons helse (hother.append (.single hend))
    exact .cons (.opening fs (.forLoop p iterable cond)) (hbody.append hrest)
  | branch c _ _ ihw ihv =>
    exact .cons (.opening fs (.ifCond c)) ((ihw _ (hinside hloop _)).append (ihv fs hloop))
  | elseIf c _ _ ihw ihv =>
    have hbody := ihw (.new .ifCond none :: fs) (hinside hloop _)
    exact .cons (.elseIf fs c ⟨rfl, rfl⟩) (hbody.append (ihv fs hloop))
  | elsePart _ ih =>
    have hbody := ih (⟨.ifCond, none, true⟩ :: fs) (hinside hloop _)
    have hend : Step (⟨.ifCond, none, true⟩ :: fs) .endIf fs := .closing fs .ifCond (agree_none _)
    exact .cons (.elsePart fs ⟨.inl rfl, rfl⟩) (hbody.append (.single hend))
  | endIf => exact .single (.closing fs .ifCond (agree_none _))
  | matching subject _ _ ihw ihv =>
    have hbody := ihw (.new .matchOn none :: fs) (hinside hloop _)
    exact .cons (.opening fs (.matchOn subject)) (hbody.append (ihv fs hloop).1)
  | arm p _ _ ihw ihv =>
    have hrest := (ihw _ (hinside (hinside hloop _) _)).append (ihv fs hloop).2
    exact ⟨.cons (.arm fs p rfl) hrest, .cons (.nextArm fs p rfl rfl) hrest⟩
  | endedArm p _ _ _ ihw ihu ihv =>
    have hafter := (ihu _ (hinside hloop _)).append (ihv fs hloop).1
    have hbody := ihw (.new .whenArm none :: .new .matchOn none :: fs)
      (hinside (hinside hloop _) _)
    have hrest := hbody.append (.cons (.endArm _ rfl) hafter)
    exact ⟨.cons (.arm fs p rfl) hrest, .cons (.nextArm fs p rfl rfl) hrest⟩
  | endMatch => exact ⟨.single (.endMatch fs rfl), .single (.endLastArm fs rfl rfl)⟩

/-! ## From the walk to the grammar -/

theorem loops_cons_of_ne {f : Frame} {fs : List Frame} (h : f.kind ≠ .forLoop) :
    loops (f :: fs) = loops fs := by
  unfold loops
  rw [List.any_cons, decide_eq_false h, Bool.false_or]

/-- How a frame that is not an arm can end, after a row of items in it. -/
inductive Ends (inLoop : Bool) : Frame → List StmtKind → Prop
  | closing {k : StmtKind} {f : Frame} {name : Option String} (hk : Closes k f.kind name)
      (hname : Agree f.name name) : Ends inLoop f [k]
  | elseLoop {w : List StmtKind} (name : Option String) (hw : Derives .body inLoop w) :
      Ends inLoop ⟨.forLoop, name, false⟩ (.elseCond :: (w ++ [.endFor]))
  | branches {v : List StmtKind} (name : Option String) (hv : Derives .branches inLoop v) :
      Ends inLoop ⟨.ifCond, name, false⟩ v
  | arms {v : List StmtKind} (name : Option String) (hasElse : Bool)
      (hv : Derives .arms inLoop v) : Ends inLoop ⟨.matchOn, name, hasElse⟩ v

/-- `Completes fs ks`: after `ks` every one of the frames `fs` has come to its end.  An arm ends with its
    own end tag, or with the arms after it and the end of the match. -/
inductive Completes : List Frame → List StmtKind → Prop
  | done {w : List StmtKind} (hw : Derives .body false w) : Completes [] w
  | frame {f : Frame} {fs : List Frame} {w v rest : List StmtKind}
      (hw : Derives .body (loops (f :: fs)) w) (hv : Ends (loops (f :: fs)) f v)
      (hrest : Completes fs rest) : Completes (f :: fs) (w ++ (v ++ rest))
  | endedArm {a : Frame} {fs : List Frame} {w rest : List StmtKind} (ha : a.kind = .whenArm)
      (hw : Derives .body (loops (a :: fs)) w) (hrest : Completes fs rest) :
      Completes (a :: fs) (w ++ .endWhen :: rest)
  | arm {a f : Frame} {fs : List Frame} {w v rest : List StmtKind} (ha : a.kind = .whenArm)
      (hf : f.kind = .matchOn) (hw : Derives .body (loops (a :: f :: fs)) w)
      (hv : Derives .arms (loops (f :: fs)) v) (hrest : Completes fs rest) :
      Completes (a :: f :: fs) (w ++ (v ++ rest))

/-- An item can stand before the rest of a row. -/
theorem Completes.prepend {fs : List Frame} {u ks : List StmtKind}
    (hu : Derives .item (loops fs) u) (h : Completes fs ks) : Completes fs (u ++ ks) := by
  cases h with
  | done hw => exact .done (.cons hu hw)
  | frame hw hv hrest =>
    rw [← List.append_assoc]
    exact .frame (.cons hu hw) hv hrest
  | endedArm ha hw hrest =>
    rw [← List.append_assoc]
    exact .endedArm ha (.cons hu hw) hrest
  | arm ha hf hw hv hrest =>
    rw [← List.append_assoc]
    exact .arm ha hf (.cons hu hw) hv hrest

section

variable {k : StmtKind} {f : Frame} {fs : List Frame}

/-- With its end tag, a tag that has just been opened becomes an item. -/
theorem item_of_closes {c : StmtKind} {name : Option String} {w : List StmtKind}
    (hk : Opens k f) (hc : Closes c f.kind name) (hname : Agree f.name name)
    (hw : Derives .body (loops (f :: fs)) w) : Derives .item (loops fs) (k :: (w ++ [c])) := by
  cases hk with
  | block n => cases hc; exact .enclosed (.block (agree_some_iff.1 hname)) hw
  | macroDef n params => cases hc; exact .enclosed (.macroDef params (agree_some_iff.1 hname)) hw
  | callBlock bindings call => cases hc; exact .enclosed (.callBlock bindings call) hw
  | filterBlock filters => cases hc; exact .enclosed (.filterBlock filters) hw
  | raw => cases hc; exact .enclosed .raw hw
  | forLoop p iterable cond => cases hc; exact .loop _ p iterable cond hw
  | ifCond c => cases hc; exact .branch c hw (.endIf _)
  | matchOn subject => cases hc

/-- With its end, a tag that has just been opened becomes an item. -/
theorem item_of_ends {w v : List StmtKind} (hk : Opens k f)
    (hw : Derives .body (loops (f :: fs)) w) (hv : Ends (loops (f :: fs)) f v) :
    Derives .item (loops fs) (k :: (w ++ v)) := by
  cases hv with
  | closing hc hname => exact item_of_closes hk hc hname hw
  | elseLoop _ hv => cases hk; exact .loopElse _ _ _ _ hw hv
  | branches _ hv => cases hk; exact .branch _ hw hv
  | arms _ _ hv => cases hk; exact .matching _ hw hv

section

variable {inLoop : Bool} {w v : List StmtKind}

theorem Ends.to_branches (h : Ends inLoop f v) (hf : f.kind = .ifCond) :
    Derives .branches inLoop v := by
  obtain ⟨kind, name, hasElse⟩ := f
  cases hf
  cases h with
  | closing hk hname => cases hk; exact .endIf inLoop
  | branches _ hv => exact hv

theorem Ends.to_arms (h : Ends inLoop f v) (hf : f.kind = .matchOn) : Derives .arms inLoop v := by
  obtain ⟨kind, name, hasElse⟩ := f
  cases hf
  cases h with
  | closing hk hname => cases hk
  | arms _ _ hv => exact hv

/-- None of these ends is the end of an arm. -/
theorem Ends.kind_ne (h : Ends inLoop f v) : f.kind ≠ .whenArm := by
  intro hf
  obtain ⟨kind, name, hasElse⟩ := f
  cases hf
  cases h with
  | closing hk hname => cases hk

theorem Ends.of_elseIf (hf : f.kind = .ifCond ∧ f.hasElse = false) (c : Cond)
    (hw : Derives .body inLoop w) (hv : Ends inLoop f v) :
    Ends inLoop f (.elseIf c :: (w ++ v)) := by
  have hbranches := hv.to_branches hf.1
  obtain ⟨kind, name, hasElse⟩ := f
  obtain ⟨rfl, rfl⟩ := hf
  exact .branches name (.elseIf c hw hbranches)

/-- Once its `else` has been met, a branch or loop can only end with its end tag. -/
theorem Ends.of_else (hf : (f.kind = .ifCond ∨ f.kind = .forLoop) ∧ f.hasElse = false)
    (hw : Derives .body inLoop w) (hv : Ends inLoop { f with hasElse := true } v) :
    Ends inLoop f (.elseCond :: (w ++ v)) := by
  obtain ⟨kind, name, hasElse⟩ := f
  obtain ⟨rfl | rfl, rfl⟩ := hf
  · cases hv with
    | closing hk hname => cases hk; exact .branches name (.elsePart hw)
  · cases hv with
    | closing hk hname => cases hk; exact .elseLoop name hw

theorem Ends.of_arms (hf : f.kind = .matchOn) (hv : Derives .arms inLoop v) : Ends inLoop f v := by
  obtain ⟨kind, name, hasElse⟩ := f
  cases hf
  exact .arms name hasElse hv

end

/-- The innermost frame, if it is not an arm, ends after a row of items. -/
theorem Completes.exists_ends {ks : List StmtKind} (h : Completes (f :: fs) ks)
    (hf : f.kind ≠ .whenArm) :
    ∃ w v rest, ks = w ++ (v ++ rest) ∧ Derives .body (loops (f :: fs)) w ∧
      Ends (loops (f :: fs)) f v ∧ Completes fs rest := by
  cases h with
  | frame hw hv hrest => exact ⟨_, _, _, rfl, hw, hv, hrest⟩
  | endedArm ha => exact absurd ha hf
  | arm ha => exact absurd ha hf

/-- An arm with all that follows it in the match. -/
theorem Completes.exists_arms {a : Frame} {ks : List StmtKind} (h : Completes (a :: f :: fs) ks)
    (ha : a.kind = .whenArm) (hf : f.kind = .matchOn) (p : Pattern) :
    ∃ v rest, .whenArm p :: ks = v ++ rest ∧ Derives .arms (loops (f :: fs)) v ∧
      Completes fs rest := by
  have hloops : loops (a :: f :: fs) = loops (f :: fs) := loops_cons_of_ne (by rw [ha]; decide)
  cases h with
  | frame hw hv hrest => exact absurd ha hv.kind_ne
  | endedArm _ hw hrest =>
    rw [hloops] at hw
    obtain ⟨u, v, rest, rfl, hu, hv, hrest⟩ := hrest.exists_ends (by rw [hf]; decide)
    refine ⟨_, rest, ?_, .endedArm p hw hu (hv.to_arms hf), hrest⟩
    simp only [List.cons_append, List.append_assoc]
  | @arm _ _ _ w v rest _ _ hw hv hrest =>
    rw [hloops] at hw
    refine ⟨_, rest, ?_, .arm p hw hv, hrest⟩
    simp only [List.cons_append, List.append_assoc]

/-- The innermost frame may end at once. -/
theorem Completes.of_ends {v rest : List StmtKind} (hv : Ends (loops (f :: fs)) f v)
    (hrest : Completes fs rest) : Completes (f :: fs) (v ++ rest) :=
  .frame (.nil _) hv hrest

end

/-- A tag that fits, put before a row that ends all that is open after it, gives a row that ends all
    that is open before it. -/
theorem Completes.step {fs mid : List Frame} {k : StmtKind} {ks : List StmtKind}
    (h : Completes mid ks) (hstep : Step fs k mid) : Completes fs (k :: ks) := by
  -- What completes the stack behind the statement is cut where the statement needs it, and put together
  -- again with the statement in front.
  cases hstep with
  | plain _ hk => exact h.prepend (.plain _ hk)
  | jump hk hloop => exact h.prepend (by rw [hloop]; exact .jump hk)
  | opening _ hk =>
    obtain ⟨w, v, rest, rfl, hw, hv, hrest⟩ := h.exists_ends (by cases hk <;> exact Opener.noConfusion)
    have hitem := hrest.prepend (item_of_ends hk hw hv)
    rwa [List.cons_append, List.append_assoc] at hitem
  | closing _ hk hname => exact .of_ends (.closing hk hname) h
  | elseIf _ c hf =>
    obtain ⟨w, v, rest, rfl, hw, hv, hrest⟩ := h.exists_ends (by rw [hf.1]; decide)
    have hends := Completes.of_ends (.of_elseIf hf c hw hv) hrest
    rwa [List.cons_append, List.append_assoc] at hends
  | @elsePart f fs hf =>
    have hne : f.kind ≠ .whenArm := by
      rcases hf.1 with hkind | hkind <;> rw [hkind] <;> decide
    obtain ⟨w, v, rest, rfl, hw, hv, hrest⟩ := h.exists_ends hne
    have hends := Completes.of_ends (f := f) (.of_else hf hw hv) hrest
    rwa [List.cons_append, List.append_assoc] at hends
  | arm _ p hf =>
    obtain ⟨v, rest, heq, hv, hrest⟩ := h.exists_arms rfl hf p
    rw [heq]
    exact .of_ends (.of_arms hf hv) hrest
  | nextArm _ p ha hf =>
    obtain ⟨v, rest, heq, hv, hrest⟩ := h.exists_arms rfl hf p
    rw [heq]
    exact .arm ha hf (.nil _) hv hrest
  | endArm _ ha => exact .endedArm ha (.nil _) h
  | endMatch _ hf => exact .of_ends (.of_arms hf (.endMatch _)) h
  | endLastArm _ ha hf => exact .arm ha hf (.nil _) (.endMatch _) h

/-- A run that leaves nothing open ends all that was open before it. -/
theorem Run.completes {fs fs' : List Frame} {ks : List StmtKind} (h : Run fs ks fs')
    (hdone : fs' = []) : Completes fs ks := by
  induction h with
  | nil fs =>
    subst hdone
    exact .done (.nil false)
  | cons hstep _ ih => exact (ih hdone).step hstep

end Balance

/-- Nothing is wrong with the nesting of the control tags of a template if and only if their statements
    are a row of items outside of any loop. -/
theorem Template.validate_eq_nil_iff (t : Template) :
    t.validate = [] ↔
      Balance.Derives .body false (t.tags.map fun (_, stmt, _) => stmt.kind) := by
  unfold Template.validate
  rw [Balance.check_eq_nil_iff, List.map_map]
  constructor
  · intro hrun
    cases hrun.completes rfl with
    | done hbody => exact hbody
  · intro hbody
    exact hbody.leads [] (fun h => nomatch h)

end Stencil
