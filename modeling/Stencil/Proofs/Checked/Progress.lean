/-
  Progress — every step of the lexer leaves less to do.

  A lexer is a place in the source and what is read there.  The places it can come to are those that lead
  from the start by steps, by entering the body of a raw block, which may be asked for anywhere, and by skipping
  the rest of a tag (`Reachable`).  At each of them the lexer stands between two characters of the source, and
  the text from there on is what is left to read.

  Most steps move forward.  Two do not: an opening delimiter inside a tag is reported where it stands, and the
  body of a raw block may be empty.  Both leave a tag or a raw block, and nothing but `enterRaw` comes back
  there without using up the delimiter of a tag.  So two for each byte and one for what has to be left
  (`remaining`) is lowered by every step (`Step.Progresses`), and a run cannot have more steps than that
  (`Steps.length_le`).  The loops that skip a tag or pass over blanks are such runs.
-/
import Stencil.Proofs.Checked.Lexer

namespace Stencil

namespace Lexer

/-- The places that the lexer can come to in the source. -/
inductive Reachable [Letters] (d : Delims) (source : List Char) : Lexer → Prop
  | start : Reachable d source (start source)
  | token {lx next : Lexer} {l : Lexeme} (h : Reachable d source lx)
      (hstep : lx.step d = .token l next) : Reachable d source next
  | fault {lx next : Lexer} {diagnostic : Diagnostic} (h : Reachable d source lx)
      (hstep : lx.step d = .fault diagnostic next) : Reachable d source next
  | enterRaw {lx : Lexer} (h : Reachable d source lx) : Reachable d source { lx with mode := .raw }
  | skipTag {lx : Lexer} (h : Reachable d source lx) : Reachable d source (lx.skipTag d)

/-- How much is left to do at a place of the source: two for each byte, and one for leaving a tag or raw
    block. -/
def remaining (source : List Char) (lx : Lexer) : Nat :=
  2 * (byteLen source - lx.pos) + lx.mode.pending

/-- So many steps lead from the one place to the other. -/
inductive Steps [Letters] (d : Delims) : Nat → Lexer → Lexer → Prop
  | refl (lx : Lexer) : Steps d 0 lx lx
  | token {n : Nat} {lx next place : Lexer} {l : Lexeme} (hstep : lx.step d = .token l next)
      (h : Steps d n next place) : Steps d (n + 1) lx place
  | fault {n : Nat} {lx next place : Lexer} {diagnostic : Diagnostic}
      (hstep : lx.step d = .fault diagnostic next) (h : Steps d n next place) :
      Steps d (n + 1) lx place

end Lexer

/-- What a step at a place of the source leads to.  A lexeme lies between the two places, and only the body of
    a raw block can be empty; a fault that does not move leads out of a tag or raw block; the last place is
    the end of the source. -/
def Step.Progresses (source : List Char) (lx : Lexer) : Step → Prop
  | .token l next =>
    l.span = ⟨lx.pos, next.pos⟩ ∧
      (lx.pos < next.pos ∨
        next.pos = lx.pos ∧ l.token = .rawText ∧ lx.mode = .raw ∧ next.mode = .template) ∧
      next.remaining source < lx.remaining source
  | .fault _ next =>
    (lx.pos < next.pos ∨ next.pos = lx.pos ∧ lx.mode ≠ .template ∧ next.mode = .template) ∧
      next.remaining source < lx.remaining source
  | .done => lx.pos = byteLen source

/-- The loop that passes over blanks: the first step from byte `pos` on that yields none. -/
def Checked.next? [Letters] (d : Delims) (source : List Char) : Nat → Nat → Mode → Option Step
  | 0, _, _ => none
  | fuel + 1, pos, mode => do
    match ← step? d source pos mode with
    | .token l next =>
      if l.token = .blank then next? d source fuel next.pos next.mode else return .token l next
    | .fault diagnostic next => return .fault diagnostic next
    | .done => return .done

namespace Lexer

open Checked

variable {d : Delims} {source used : List Char} {lx next place : Lexer} {l : Lexeme}
  {diagnostic : Diagnostic} {n fuel : Nat}

/-! ## Places -/

/-- The lexer stands between two characters of the source, with the text from there on to read. -/
theorem Reachable.at [Letters] (h : Reachable d source lx) : At source lx.pos lx.rest := by
  induction h with
  | start => exact At.start source
  | token _ hstep ih => exact ih.reaches (emits_of_step hstep).reaches.1
  | fault _ hstep ih =>
    obtain ⟨used, hreach⟩ := (refuses_of_step hstep).reaches
    exact ih.reaches hreach
  | enterRaw _ ih => exact ih
  | @skipTag lx _ ih =>
    obtain ⟨used, hreach⟩ := reaches_skipTag d lx
    exact ih.reaches hreach

/-! ## Steps -/

/-- There is less to do at a place further on, and at one where a tag or raw block has been left. -/
theorem remaining_lt (hle : next.pos ≤ byteLen source)
    (h : lx.pos < next.pos ∨ next.pos = lx.pos ∧ lx.mode ≠ .template ∧ next.mode = .template) :
    next.remaining source < lx.remaining source := by
  unfold remaining
  rcases h with hlt | ⟨hpos, hmode, htemplate⟩
  · have := next.mode.pending_le_one
    omega
  · have hleave : lx.mode.pending = 1 := by
      cases hm : lx.mode with
      | template => exact absurd hm hmode
      | tag kind afterDot => rfl
      | raw => rfl
    have hleft : next.mode.pending = 0 := by rw [htemplate]; rfl
    omega

theorem Reachable.pos_le [Letters] (h : Reachable d source lx) : lx.pos ≤ byteLen source := by
  have := h.at.byteLen
  omega

/-- A lexeme uses up its characters; only the body of a raw block has none. -/
theorem Emits.pos_lt [Letters] (h : lx.Emits d l next) : lx.pos < next.pos ∨
    next.pos = lx.pos ∧ l.token = .rawText ∧ lx.mode = .raw ∧ next.mode = .template := by
  have hpos := h.reaches.1.pos
  by_cases htext : l.text = []
  · have hraw : lx.mode = .raw := by
      by_contra hm
      exact h.text_ne_nil hm htext
    rw [htext, byteLen_nil] at hpos
    cases h with
    | raw hm hn => exact .inr ⟨hpos, rfl, hm, rfl⟩
    | content hm => rw [hraw] at hm; cases hm
    | opening hm => rw [hraw] at hm; cases hm
    | comment hm => rw [hraw] at hm; cases hm
    | closing hm => rw [hraw] at hm; cases hm
    | word hm => rw [hraw] at hm; cases hm
  · have := byteLen_pos htext
    omega

theorem pos_lt_advance (lx : Lexer) {n : Nat} (mode : Mode) (hn : 0 < n) (hr : lx.rest ≠ []) :
    lx.pos < (lx.advance n mode).pos := by
  have hpos : 0 < byteLen (lx.rest.take n) := by
    apply byteLen_pos
    rw [Ne, List.take_eq_nil_iff]
    rintro (h0 | hnil)
    · omega
    · exact hr hnil
  show lx.pos < lx.pos + byteLen (lx.rest.take n)
  omega

/-- A fault uses up characters, or leaves a tag or raw block. -/
theorem Refuses.pos_lt [Letters] (h : lx.Refuses d diagnostic next) : lx.pos < next.pos ∨
    next.pos = lx.pos ∧ lx.mode ≠ .template ∧ next.mode = .template := by
  cases h with
  | comment hm hr ho hk hc => exact .inl (lx.pos_lt_advance _ (List.length_pos_iff.2 hr) hr)
  | raw hm hn =>
    by_cases hr : lx.rest = []
    · refine .inr ⟨?_, by rw [hm]; exact Mode.noConfusion, rfl⟩
      show lx.pos + byteLen (lx.rest.take _) = lx.pos
      rw [hr, List.take_nil]
      rfl
    · exact .inl (lx.pos_lt_advance _ (List.length_pos_iff.2 hr) hr)
  | opening hm hr hc ho => exact .inr ⟨rfl, by rw [hm]; exact Mode.noConfusion, rfl⟩
  | word hm hr hc ho hs =>
    exact .inl (lx.pos_lt_advance _ (Nat.succ_pos _) (by rw [hr]; exact List.cons_ne_nil _ _))

theorem Reachable.progresses [Letters] (h : Reachable d source lx) : (lx.step d).Progresses source lx := by
  cases hstep : lx.step d with
  | token l next =>
    have hemits := emits_of_step hstep
    have hmoves := hemits.pos_lt
    refine ⟨hemits.reaches.2, hmoves, remaining_lt (h.token hstep).pos_le ?_⟩
    rcases hmoves with hlt | ⟨hpos, -, hraw, htemplate⟩
    · exact .inl hlt
    · exact .inr ⟨hpos, by rw [hraw]; exact Mode.noConfusion, htemplate⟩
  | fault diagnostic next =>
    have hmoves := (refuses_of_step hstep).pos_lt
    exact ⟨hmoves, remaining_lt (h.fault hstep).pos_le hmoves⟩
  | done =>
    have hlen := h.at.byteLen
    rw [(rest_eq_nil_of_step hstep).1, byteLen_nil] at hlen
    exact hlen.symm

/-! ## Runs -/

/-- A run has no more steps than there is to do at its start. -/
theorem Steps.length_le [Letters] (hsteps : lx.Steps d n place) (h : Reachable d source lx) :
    n + place.remaining source ≤ lx.remaining source := by
  induction hsteps with
  | refl lx => exact Nat.le_of_eq (Nat.zero_add _)
  | @token n lx next place l hstep _ ih =>
    have hprogress := h.progresses
    rw [hstep] at hprogress
    have hlt := hprogress.2.2
    have hrest := ih (h.token hstep)
    omega
  | @fault n lx next place diagnostic hstep _ ih =>
    have hprogress := h.progresses
    rw [hstep] at hprogress
    have hlt := hprogress.2
    have hrest := ih (h.fault hstep)
    omega

/-- There are no more characters left than bytes. -/
theorem Reachable.weight_le [Letters] (h : Reachable d source lx) : lx.weight ≤ lx.remaining source := by
  have hlen := h.at.byteLen
  have hchars := length_le_byteLen lx.rest
  unfold weight remaining
  omega

/-- The loop over blanks ends, at a step that yields none. -/
theorem Reachable.next?_eq [Letters] (h : Reachable d source lx) (hfuel : lx.remaining source < fuel) :
    ∃ n place, lx.Steps d n place ∧ next? d source fuel lx.pos lx.mode = some (place.step d) ∧
      ∀ l after, place.step d = .token l after → l.token ≠ .blank := by
  induction fuel generalizing lx with
  | zero => omega
  | succ fuel ih =>
    have hprogress := h.progresses
    rw [next?, step?_eq h.at]
    cases hstep : lx.step d with
    | token l next =>
      rw [hstep] at hprogress
      have hlt := hprogress.2.2
      by_cases hblank : l.token = .blank
      · obtain ⟨n, place, hsteps, hnext, hword⟩ := ih (h.token hstep) (by omega)
        refine ⟨n + 1, place, .token hstep hsteps, ?_, hword⟩
        show (if l.token = .blank then _ else _) = _
        rw [if_pos hblank, hnext]
      · refine ⟨0, lx, .refl lx, ?_, fun l' after heq => ?_⟩
        · show (if l.token = .blank then _ else _) = _
          rw [if_neg hblank, hstep]
          rfl
        · rw [hstep] at heq
          cases heq
          exact hblank
    | fault diagnostic next =>
      exact ⟨0, lx, .refl lx, by rw [hstep]; rfl, fun l after heq => by rw [hstep] at heq; cases heq⟩
    | done =>
      exact ⟨0, lx, .refl lx, by rw [hstep]; rfl, fun l after heq => by rw [hstep] at heq; cases heq⟩

/-- At every place that the lexer can come to: the place lies between two characters of the source, a step by
    byte offsets is possible there and is the step that is made, and it makes progress.  A run from there
    has no more steps than are left to do, and the loops that skip a tag and pass over blanks end within
    as many rounds. -/
theorem reachable_progress [Letters] (h : Reachable d source lx) :
    (lx.pos ≤ byteLen source ∧ from? lx.pos source = some lx.rest ∧
      step? d source lx.pos lx.mode = some (lx.step d)) ∧
    (lx.step d).Progresses source lx ∧
    (∀ n place, lx.Steps d n place → n + place.remaining source ≤ lx.remaining source) ∧
    ∀ fuel, lx.remaining source < fuel →
      skipTag? d source fuel lx.pos lx.mode = some (lx.skipTag d) ∧
        ∃ n place, lx.Steps d n place ∧ next? d source fuel lx.pos lx.mode = some (place.step d) ∧
          ∀ l after, place.step d = .token l after → l.token ≠ .blank := by
  refine ⟨⟨h.pos_le, h.at.from?, step?_eq h.at⟩, h.progresses, fun n place hsteps => hsteps.length_le h,
    fun fuel hfuel => ⟨?_, h.next?_eq hfuel⟩⟩
  have := h.weight_le
  exact skipTag?_eq h.at (by omega)

/-- The step that does not move: behind an opening delimiter stands another one.  It leaves the tag, and there
    are at most five steps from there on. -/
theorem progress_before_opening :
    let source : List Char := ['\x7b', '\x7b', '\x7b', '\x7b']
    let lx : Lexer := ⟨2, ['\x7b', '\x7b'], .tag .expr false⟩
    Reachable .standard source lx ∧
      (∃ diagnostic, lx.step .standard = .fault diagnostic ⟨2, ['\x7b', '\x7b'], .template⟩) ∧
      (lx.step .standard).Progresses source lx ∧
      (∀ n place, lx.Steps .standard n place → n + place.remaining source ≤ 5) ∧
      skipTag? .standard source 6 2 (.tag .expr false) = some (lx.skipTag .standard) := by
  intro source lx
  have hreach : Reachable .standard source lx := .token (l := ⟨.beginExpr, ⟨0, 2⟩, _, none⟩) .start rfl
  obtain ⟨-, hprogress, hruns, hloops⟩ := reachable_progress hreach
  exact ⟨hreach, ⟨_, rfl⟩, hprogress, hruns, (hloops 6 (by decide)).1⟩

end Lexer

end Stencil
