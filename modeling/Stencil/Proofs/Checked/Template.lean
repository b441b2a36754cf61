/-
  Template — a machine reads a source node by node.

  Between two nodes the lexer of the machine stands outside a tag and nothing waits in the queue, so each turn of
  the reader is a turn of the machine: content, a comment, the body of a raw block, or a tag.  The text and the
  modifiers of a node are cut out of the source by its place.  Another lexeme does not occur there
  (`Lexer.token_outside`).  A whole source is read as it is without a machine (`template_eq`), and the literals in
  its nodes are among what the machine has decoded.
-/
import Stencil.Proofs.Checked.Tag

namespace Stencil

variable [Letters]

/-- Outside a tag the lexer yields nothing but content, comments, the bodies of raw blocks and the opening
    delimiters of tags. -/
theorem Lexer.token_outside {d : Delims} {lx next : Lexer} {l : Lexeme} (hout : lx.inTag = false)
    (h : lx.step d = .token l next) : l.token ∈ [.content, .comment, .rawText, .beginExpr, .beginBlock] := by
  cases Lexer.emits_of_step h with
  | content hm => exact List.mem_cons_self
  | comment hm => exact List.mem_of_elem_eq_true rfl
  | raw hm => exact List.mem_of_elem_eq_true rfl
  | @opening o kind hm hr ho hk => cases kind <;> exact List.mem_of_elem_eq_true rfl
  | closing hm | word hm => rw [Lexer.inTag_of_mode hm] at hout; cases hout

namespace Checked

open Reader (next)

variable {d : Delims} {s : Settings} {source : List Char} {lx nx : Lexer} {l : Lexeme} {diagnostic : Diagnostic}
  {fuel : Nat}

/-! ## Nodes outside tags -/

/-- The node of a lexeme outside a tag is the one of its region. -/
theorem node?_eq (hat : At source lx.pos lx.rest) (hout : lx.inTag = false) (h : lx.Emits d l nx)
    (hl : l.token.opens? = none) :
    ∃ n : Node, Machine.node? d source l = some n ∧ Region.ofLexeme d l = ⟨some n, none⟩ ∧ n.inner? = none := by
  cases h.outside hout hl with
  | content hm hr ho =>
    refine ⟨_, ?_, rfl, rfl⟩
    unfold Machine.node?
    dsimp only [Lexer.lexeme, Lexer.spanOf]
    rw [hat.slice_take]
    rfl
  | raw hm hn =>
    refine ⟨_, ?_, rfl, rfl⟩
    unfold Machine.node?
    dsimp only [Lexer.lexeme, Lexer.spanOf]
    rw [hat.slice_take]
    rfl
  | comment hm hr ho hk hc =>
    refine ⟨_, ?_, rfl, rfl⟩
    unfold Machine.node?
    dsimp only [Lexer.lexeme, Lexer.spanOf]
    rw [commentTrims?_closed hat ho hk hc]
    rfl

/-- So is the node of a comment or raw block that goes on to the end of the source. -/
theorem unclosed?_eq (hat : At source lx.pos lx.rest) (hout : lx.inTag = false) (h : lx.Refuses d diagnostic nx) :
    ∃ n : Node, Machine.unclosed? d source ⟨lx.pos, nx.pos⟩ diagnostic.fault = some n ∧ n.inner? = none ∧
      Region.ofFault d lx nx diagnostic =
        ⟨if Span.isEmpty ⟨lx.pos, nx.pos⟩ then none else some n, some diagnostic⟩ := by
  cases h.outside hout with
  | comment hm hr ho hk hc =>
    refine ⟨_, ?_, rfl, rfl⟩
    dsimp only [Machine.unclosed?]
    rw [commentTrims?_open hat]
    rfl
  | raw hm hn =>
    have hslice : slice? (lx.spanOf lx.rest.length) source = some lx.rest := by
      have htake := hat.slice_take lx.rest.length
      rw [List.take_length] at htake
      rw [Lexer.spanOf, List.take_length, htake]
    refine ⟨.raw (String.ofList lx.rest) (lx.spanOf lx.rest.length), ?_, rfl, rfl⟩
    show Machine.unclosed? d source (lx.spanOf lx.rest.length) .unclosedRaw = _
    rw [Machine.unclosed?, hslice]
    rfl

/-! ## Asking for the next lexeme -/

variable {m : Machine d source}

namespace Machine.Settled

/-- One round of the lexer is enough: outside a tag there are no blanks. -/
theorem pull_eq (h : m.Settled lx) : Machine.pull m = match lx.step d with
    | .done => .ok (none, m)
    | .fault diagnostic nx => .error (.failed diagnostic (m.moved nx))
    | .token l nx => .ok (some l, m.moved nx) := by
  have hpull : Machine.pull m = Machine.pullFrom (2 * byteLen source + 1 + 1) m := rfl
  rw [hpull, Machine.pullFrom]
  dsimp only
  rw [h.stands.step?_eq]
  cases hstep : lx.step d with
  | done => rfl
  | fault diagnostic nx => rfl
  | token l nx =>
    have htoken := Lexer.token_outside h.outside hstep
    dsimp only
    rw [if_neg fun hblank => by rw [hblank] at htoken; revert htoken; decide]

theorem next_of_done (h : m.Settled lx) (hstep : lx.step d = .done) :
    (next : Program d source _) m = .ok (none, m) := by
  have hpull := h.pull_eq
  rw [hstep] at hpull
  exact next_of_pull_ok h.peeked hpull

theorem next_of_fault (h : m.Settled lx) (hstep : lx.step d = .fault diagnostic nx) :
    (next : Program d source _) m = .error (.failed diagnostic (m.moved nx)) := by
  have hpull := h.pull_eq
  rw [hstep] at hpull
  exact next_of_pull_error h.peeked hpull

theorem next_of_token (h : m.Settled lx) (hstep : lx.step d = .token l nx) :
    (next : Program d source _) m = .ok (some l, (m.moved nx).taking l) := by
  have hpull := h.pull_eq
  rw [hstep] at hpull
  exact next_of_pull_ok h.peeked hpull

end Machine.Settled

/-! ## Whole sources -/

namespace Covered

variable {m mid m' : Machine d source} {rs rs' : List Region} {ns ns' : List Node}

omit [Letters] in
/-- One stretch behind another. -/
theorem append (h : Covered m rs ns mid) (h' : Covered mid rs' ns' m') : Covered m (rs ++ rs') (ns ++ ns') m' where
  nodes := by rw [h.nodes, h'.nodes, List.filterMap_append]
  errors := by rw [h'.errors, h.errors, List.filterMap_append, List.append_assoc]
  calls := List.Subset.trans h.calls h'.calls
  sound := fun call hcall => (h'.sound call hcall).elim (h.sound call) .inr
  decoded := by
    refine List.forall_mem_append.2 ⟨fun n hn kind trims part hpart => ?_, h'.decoded⟩
    exact (h.decoded n hn kind trims part hpart).mono h'.calls

omit [Letters] in
/-- A region without a literal. -/
theorem of_bare {r : Region} {n : Option Node} (hnode : r.node = n) (hbare : ∀ n' ∈ n, Node.inner? n' = none)
    (herrors : m'.errors = m.errors ++ r.diagnostic.toList) (hcalls : m'.calls = m.calls) :
    Covered m [r] n.toList m' where
  nodes := by rw [← hnode]; cases h : r.node <;> simp [h]
  errors := by rw [herrors]; cases h : r.diagnostic <;> simp [h]
  calls := fun _ hcall => hcalls ▸ hcall
  sound := fun _ hcall => .inl (hcalls ▸ hcall)
  decoded := fun n' hn' kind trims part hpart => by
    rw [hbare n' (Option.mem_toList.1 hn')] at hpart
    cases hpart

end Covered

/-- A fault outside a tag is the last of a source. -/
theorem regions_of_refuses (s : Settings) (hout : lx.inTag = false) (h : lx.Refuses s.delims diagnostic nx) :
    regions s nx = [] := by
  have hend : ∀ pos, regions s ⟨pos, lx.rest.drop lx.rest.length, .template⟩ = [] := fun pos => by
    rw [List.drop_length]
    exact regions_nil s pos
  cases h.outside hout with
  | comment hm hr ho hk hc => exact hend _
  | raw hm hn => exact hend _

omit [Letters] in
/-- The machine after one turn, when its lexer has gone on to a place outside a tag. -/
theorem Machine.Settled.turn {r : Region} {used : List Char} (h : m.Settled lx) (hcovers : Region.Covers lx r used nx)
    {m' : Machine d source} (hcursor : m'.cursor = nx.pos) (hmode : m'.mode = nx.mode) (hpeeked : m'.peeked = []) :
    m'.Settled nx :=
  ⟨⟨h.stands.here.reaches hcovers.reaches, hcursor, hmode⟩, hcovers.outside, hpeeked⟩

/-- A lexeme outside a tag begins a node, which is read as the reader does. -/
theorem node_eq {m : Machine s.delims source} (h : m.Settled lx) (hstep : lx.step s.delims = .token l nx) :
    ∃ r place n m', Region.Turn s lx r place ∧ Machine.node l ((m.moved nx).taking l) = some (n, m') ∧
      m'.Settled place ∧ Covered m [r] [n] m' := by
  have hemits := Lexer.emits_of_step hstep
  obtain ⟨hreach, hspan⟩ := hemits.reaches
  have hstands : ((m.moved nx).taking l).Stands nx := ⟨h.stands.here.reaches hreach, rfl, rfl⟩
  unfold Machine.node
  cases hl : l.token.opens? with
  | some kind =>
    obtain ⟨-, hinside⟩ := Region.mode_of_opening h.outside hemits hl
    have hopen : At source l.span.start lx.rest := by
      rw [hspan]
      exact h.stands.here
    have htrim : (s.delims.openingAt lx.rest).bind (·.trim) = l.trim := by
      obtain ⟨-, o, ho, -, rfl, -⟩ := hemits.opening_of_opens hl h.outside
      rw [ho]
      rfl
    obtain ⟨n, m', htag, hsettled, hcovered⟩ := tag_eq hopen htrim hinside hstands h.peeked rfl
    exact ⟨_, _, n, m', .tag hstep hl, htag, hsettled,
      hcovered.nodes, hcovered.errors, hcovered.calls, hcovered.sound, hcovered.decoded⟩
  | none =>
    have hturn : Region.Turn s lx _ nx := .lexeme hstep hl
    obtain ⟨used, hcovers⟩ := hturn.covers h.outside
    obtain ⟨n, hnode, hregion, hbare⟩ := node?_eq h.stands.here h.outside hemits hl
    refine ⟨_, nx, n, (m.moved nx).taking l, hturn, by rw [hnode]; rfl, h.turn hcovers rfl rfl h.peeked, ?_⟩
    rw [hregion]
    exact .of_bare (n := some n) rfl (fun n' hn' => by cases hn'; exact hbare) (List.append_nil _).symm rfl

/-- From a place outside a tag on, the machine reads the regions of the source. -/
theorem templateFrom_eq {m : Machine s.delims source} (h : m.Settled lx) (hfuel : lx.weight < fuel) :
    ∃ ns m', Machine.templateFrom fuel m = some (ns, m') ∧ Covered m (regions s lx) ns m' := by
  -- Every turn makes the place lighter, so the fuel lasts as long as it exceeds the weight.
  induction fuel generalizing m lx with
  | zero => omega
  | succ fuel ih =>
    rw [Machine.templateFrom]
    cases hstep : lx.step s.delims with
    | done =>
      rw [show Machine.next m = _ from h.next_of_done hstep, regions_of_done hstep]
      exact ⟨[], m, rfl, rfl, (List.append_nil _).symm, fun _ hcall => hcall, fun _ hcall => .inl hcall,
        List.forall_mem_nil _⟩
    | fault diagnostic nx =>
      have hrefuses := Lexer.refuses_of_step hstep
      have hturn : Region.Turn s lx _ nx := .fault hstep
      obtain ⟨used, hcovers⟩ := hturn.covers h.outside
      obtain ⟨n, hunclosed, hbare, hregion⟩ := unclosed?_eq h.stands.here h.outside hrefuses
      have hafter : ((m.moved nx).blaming diagnostic).Settled nx := h.turn hcovers rfl rfl h.peeked
      have hspan : (⟨m.cursor, (m.moved nx).cursor⟩ : Span) = ⟨lx.pos, nx.pos⟩ := by rw [h.stands.cursor]; rfl
      have hfirst : Covered m [Region.ofFault s.delims lx nx diagnostic]
          (if Span.isEmpty ⟨lx.pos, nx.pos⟩ then none else some n).toList ((m.moved nx).blaming diagnostic) := by
        rw [hregion]
        refine .of_bare rfl (fun n' hn' => ?_) rfl rfl
        split at hn' <;> cases hn'
        exact hbare
      rw [show Machine.next m = _ from h.next_of_fault hstep, hturn.regions_eq]
      dsimp only
      rw [hspan, hunclosed]
      simp only [Option.bind_eq_bind, Option.bind_some]
      by_cases hempty : Span.isEmpty ⟨lx.pos, nx.pos⟩ = true
      · rw [if_pos hempty] at hfirst ⊢
        rw [regions_of_refuses s h.outside hrefuses]
        exact ⟨[], _, rfl, hfirst⟩
      · rw [if_neg hempty] at hfirst ⊢
        obtain ⟨ns, m', hrun, hrest⟩ := ih hafter (by have := hturn.weight_lt; omega)
        rw [hrun]
        exact ⟨n :: ns, m', rfl, hfirst.append hrest⟩
    | token l nx =>
      obtain ⟨r, place, n, mid, hturn, hnode, hsettled, hfirst⟩ := node_eq h hstep
      obtain ⟨ns, m', hrun, hrest⟩ := ih hsettled (by have := hturn.weight_lt; omega)
      rw [show Machine.next m = _ from h.next_of_token hstep, hturn.regions_eq]
      simp only [Option.bind_eq_bind, hnode, Option.bind_some, hrun, Option.pure_def]
      exact ⟨n :: ns, m', rfl, hfirst.append hrest⟩

/-- A machine reads a whole source as it is read without one. -/
theorem template_eq (s : Settings) (source : String) :
    ∃ m', Machine.template s source.toList = some ((s.parse source).template.nodes, m') ∧
      m'.errors = (s.parse source).diagnostics ∧ (∀ call ∈ m'.calls, call.Sound source.toList) ∧
      ∀ n ∈ (s.parse source).template.nodes, DecodedNode m'.calls n := by
  have hstart : (Machine.start s.delims source.toList).Settled (Lexer.start source.toList) :=
    ⟨⟨At.start _, rfl, rfl⟩, rfl, rfl⟩
  obtain ⟨ns, m', hrun, hcovered⟩ := templateFrom_eq hstart hstart.stands.here.weight_lt
  have hnodes : ns = (s.parse source).template.nodes := hcovered.nodes
  subst hnodes
  refine ⟨m', hrun, hcovered.errors, fun call hcall => ?_, hcovered.decoded⟩
  exact (hcovered.sound call hcall).elim (fun hnone => by cases hnone) id

theorem parse?_eq (s : Settings) (source : String) : parse? s source = some (s.parse source) := by
  obtain ⟨m', hrun, herrors, -, -⟩ := template_eq s source
  unfold parse?
  rw [hrun]
  show some (Parsed.mk source ⟨_⟩ m'.errors) = _
  rw [herrors]
  rfl

end Checked

end Stencil
