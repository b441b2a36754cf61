/-
  Tag — the way of the lexer through one tag.

  The inside of a tag is read twice over: `feed` collects its lexemes up to the closing delimiter or
  the first fault, and `skipTag` only looks for the end.  Both are loops over `step`, so what a step
  does to places and modes (`Stencil.Proofs.Lexer.Step`) lifts to the whole tag:
    * the place after the tag is reached from the place before it, whatever happened in between;
    * the lexemes of a feed stand in a row, each after the one before it (`InRow`);
    * a closing delimiter is the last thing read, so it ends where the feed ends.
-/
import Stencil.Proofs.Lexer.Spelling
import Stencil.Proofs.Lexer.Step

namespace Stencil

/-- The lexemes stand one after the other between the offsets `p` and `q`, none of them empty. -/
def Lexeme.InRow : Nat → List Lexeme → Nat → Prop
  | p, [], q => p ≤ q
  | p, l :: ls, q => p ≤ l.span.start ∧ l.span.start < l.span.stop ∧ InRow l.span.stop ls q

theorem Lexeme.InRow.weaken {p p' q : Nat} {ls : List Lexeme} (h : InRow p ls q) (hp : p' ≤ p) :
    InRow p' ls q := by
  cases ls with
  | nil => exact Nat.le_trans hp h
  | cons l ls => exact ⟨Nat.le_trans hp h.1, h.2⟩

theorem byteLen_pos {cs : List Char} (h : cs ≠ []) : 0 < byteLen cs := by
  cases cs with
  | nil => exact absurd rfl h
  | cons c cs =>
    have := c.utf8Size_pos
    rw [byteLen_cons]
    omega

namespace Lexer

variable {d : Delims} {lx next : Lexer} {l : Lexeme} {diagnostic : Diagnostic}

/-- A lexeme outside a raw block takes at least one byte. -/
theorem Emits.span_lt [Letters] (h : lx.Emits d l next) (hm : lx.mode ≠ .raw) :
    l.span.start < l.span.stop := by
  obtain ⟨hreach, hspan⟩ := h.reaches
  have hpos := byteLen_pos (h.text_ne_nil hm)
  have hnext := hreach.pos
  rw [hspan]
  show lx.pos < next.pos
  omega

/-! ## Modes -/

/-- A lexeme inside a tag either closes it or leaves the lexer in it. -/
theorem Emits.mode_of_tag [Letters] {kind : TagKind} {afterDot : Bool} (h : lx.Emits d l next)
    (hm : lx.mode = .tag kind afterDot) :
    (l.token = Token.closes kind ∧ next.mode = .template) ∨
      (l.token.isClosing = false ∧ ∃ dot, next.mode = .tag kind dot) := by
  cases h.inTag hm with
  | closing hr hc => exact .inl ⟨rfl, rfl⟩
  | word hr hc ho hs => exact .inr ⟨(Scan.spells_of_read hs).isClosing, _, rfl⟩

/-- No step inside a tag or in content leads into the body of a raw block. -/
theorem Emits.mode_ne_raw [Letters] (h : lx.Emits d l next) : next.mode ≠ .raw := by
  cases h <;> exact Mode.noConfusion

theorem Refuses.mode_ne_raw [Letters] (h : lx.Refuses d diagnostic next) : next.mode ≠ .raw := by
  cases h with
  | word hm' => rw [mode_advance, hm']; exact Mode.noConfusion
  | _ => exact Mode.noConfusion

theorem mode_eq_template (hin : ¬ lx.inTag = true) (hraw : lx.mode ≠ .raw) :
    lx.mode = .template := by
  unfold inTag at hin
  split at hin
  · exact absurd rfl hin
  · next hnot =>
    cases hm : lx.mode with
    | template => rfl
    | tag kind afterDot => exact absurd hm (hnot kind afterDot)
    | raw => exact absurd hm hraw

/-- A lexeme inside a tag closes it or is spelled as its token asks. -/
theorem Emits.spells [Letters] {kind : TagKind} {afterDot : Bool} (h : lx.Emits d l next)
    (hm : lx.mode = .tag kind afterDot) :
    l.token = Token.closes kind ∨ l.token.Spells l.text := by
  cases h.inTag hm with
  | closing hr hc => exact .inl rfl
  | @word c cs token more hr hc ho hs =>
    have hspells := Scan.spells_of_read hs
    right
    show token.Spells (lx.rest.take (more + 1))
    rw [hr, List.take_succ_cons]
    exact hspells

/-! ## The two loops, step by step -/

theorem feed_of_done [Letters] (h : lx.step d = .done) : lx.feed d = ([], .atEnd lx.pos, lx) := by
  rw [feed.eq_def]
  split
  · rfl
  · next h' => rw [h] at h'; cases h'
  · next h' => rw [h] at h'; cases h'

theorem feed_of_fault [Letters] (h : lx.step d = .fault diagnostic next) :
    lx.feed d = ([], .fault diagnostic, next) := by
  rw [feed.eq_def]
  split
  · next h' => rw [h] at h'; cases h'
  · next h' => rw [h] at h'; cases h'; rfl
  · next h' => rw [h] at h'; cases h'

theorem feed_of_token [Letters] (h : lx.step d = .token l next) :
    lx.feed d = if l.token.isClosing then ([l], .atEnd next.pos, next)
      else (if l.token = .blank then (next.feed d).1 else l :: (next.feed d).1,
        (next.feed d).2.1, (next.feed d).2.2) := by
  rw [feed.eq_def]
  split
  · next h' => rw [h] at h'; cases h'
  · next h' => rw [h] at h'; cases h'
  · next h' => rw [h] at h'; cases h'; rfl

theorem skipTag_of_done [Letters] (hin : lx.inTag = true) (h : lx.step d = .done) :
    lx.skipTag d = { lx with mode := .template } := by
  rw [skipTag.eq_def, if_pos hin]
  split
  · next h' => rw [h] at h'; cases h'
  · next h' => rw [h] at h'; cases h'
  · rfl

theorem skipTag_of_fault [Letters] (hin : lx.inTag = true) (h : lx.step d = .fault diagnostic next) :
    lx.skipTag d = next.skipTag d := by
  rw [skipTag.eq_def, if_pos hin]
  split
  · next h' => rw [h] at h'; cases h'
  · next h' => rw [h] at h'; cases h'; rfl
  · next h' => rw [h] at h'; cases h'

theorem skipTag_of_token [Letters] (hin : lx.inTag = true) (h : lx.step d = .token l next) :
    lx.skipTag d = next.skipTag d := by
  rw [skipTag.eq_def, if_pos hin]
  split
  · next h' => rw [h] at h'; cases h'; rfl
  · next h' => rw [h] at h'; cases h'
  · next h' => rw [h] at h'; cases h'

/-- Outside a tag there is nothing to skip. -/
theorem skipTag_of_outside [Letters] (hout : lx.inTag = false) : lx.skipTag d = lx := by
  rw [skipTag.eq_def, if_neg (by rw [hout]; decide)]

/-! ## Skipping -/

/-- After a tag has been skipped, content is read. -/
theorem mode_skipTag [Letters] (hraw : lx.mode ≠ .raw) : (lx.skipTag d).mode = .template := by
  fun_induction skipTag d lx with
  | case1 lx hin l next h ih => exact ih (emits_of_step h).mode_ne_raw
  | case2 lx hin diagnostic next h ih => exact ih (refuses_of_step h).mode_ne_raw
  | case3 lx hin h => rfl
  | case4 lx hin => exact mode_eq_template hin hraw

theorem reaches_skipTag [Letters] (d : Delims) (lx : Lexer) : ∃ used, lx.Reaches used (lx.skipTag d) := by
  fun_induction skipTag d lx with
  | case1 lx hin l next h ih =>
    obtain ⟨used, hused⟩ := ih
    exact ⟨_, (emits_of_step h).reaches.1.trans hused⟩
  | case2 lx hin diagnostic next h ih =>
    obtain ⟨first, hfirst⟩ := (refuses_of_step h).reaches
    obtain ⟨used, hused⟩ := ih
    exact ⟨_, hfirst.trans hused⟩
  | case3 lx hin h => exact ⟨[], (Reaches.refl lx).with_mode .template⟩
  | case4 lx hin => exact ⟨[], Reaches.refl lx⟩

/-! ## Feeding -/

theorem reaches_feed [Letters] (d : Delims) (lx : Lexer) : ∃ used, lx.Reaches used (lx.feed d).2.2 := by
  fun_induction feed d lx with
  | case1 lx h => exact ⟨[], Reaches.refl lx⟩
  | case2 lx diagnostic next h => exact (refuses_of_step h).reaches
  | case3 lx l next h hclose => exact ⟨_, (emits_of_step h).reaches.1⟩
  | case4 lx l next h hclose ls stop after heq ih =>
    rw [heq] at ih
    obtain ⟨used, hused⟩ := ih
    exact ⟨_, (emits_of_step h).reaches.1.trans hused⟩

theorem mode_feed_ne_raw [Letters] (hraw : lx.mode ≠ .raw) : (lx.feed d).2.2.mode ≠ .raw := by
  fun_induction feed d lx with
  | case1 lx h => exact hraw
  | case2 lx diagnostic next h => exact (refuses_of_step h).mode_ne_raw
  | case3 lx l next h hclose => exact (emits_of_step h).mode_ne_raw
  | case4 lx l next h hclose ls stop after heq ih =>
    rw [heq] at ih
    exact ih (emits_of_step h).mode_ne_raw

/-- The lexemes of a feed stand in a row from the place it starts at to the place it ends at. -/
theorem inRow_feed [Letters] (hraw : lx.mode ≠ .raw) :
    Lexeme.InRow lx.pos (lx.feed d).1 (lx.feed d).2.2.pos := by
  fun_induction feed d lx with
  | case1 lx h => exact Nat.le_refl _
  | case2 lx diagnostic next h =>
    obtain ⟨used, hused⟩ := (refuses_of_step h).reaches
    exact hused.pos_le
  | case3 lx l next h hclose =>
    have hspan := (emits_of_step h).reaches.2
    refine ⟨?_, (emits_of_step h).span_lt hraw, ?_⟩
    · rw [hspan]
    · rw [hspan]; exact Nat.le_refl _
  | case4 lx l next h hclose ls stop after heq ih =>
    rw [heq] at ih
    have hrow := ih (emits_of_step h).mode_ne_raw
    obtain ⟨hreach, hspan⟩ := (emits_of_step h).reaches
    split
    · exact hrow.weaken hreach.pos_le
    · refine ⟨?_, (emits_of_step h).span_lt hraw, ?_⟩
      · rw [hspan]
      · rw [hspan]; exact hrow

/-- A closing delimiter ends where the feed ends, and content follows it. -/
theorem closing_of_mem_feed [Letters] {kind : TagKind} {afterDot : Bool} (hm : lx.mode = .tag kind afterDot)
    (hl : l ∈ (lx.feed d).1) (hclose : l.token.isClosing = true) :
    l.span.stop = (lx.feed d).2.2.pos ∧ (lx.feed d).2.2.mode = .template := by
  fun_induction feed d lx generalizing afterDot with
  | case1 lx h => cases hl
  | case2 lx diagnostic next h => cases hl
  | case3 lx l' next h hclose' =>
    obtain rfl : l = l' := List.mem_singleton.1 hl
    refine ⟨by rw [(emits_of_step h).reaches.2], ?_⟩
    rcases (emits_of_step h).mode_of_tag hm with ⟨-, hnext⟩ | ⟨hopen, -⟩
    · exact hnext
    · rw [hclose] at hopen; cases hopen
  | case4 lx l' next h hclose' ls stop after heq ih =>
    rw [heq] at ih
    have hmem : l ∈ ls := by
      dsimp only at hl
      split at hl
      · exact hl
      · rcases List.mem_cons.1 hl with rfl | hmem
        · exact absurd hclose hclose'
        · exact hmem
    rcases (emits_of_step h).mode_of_tag hm with ⟨htoken, -⟩ | ⟨-, dot, hnext⟩
    · rw [htoken] at hclose'
      exact absurd (Token.isClosing_closes kind) hclose'
    · exact ih hnext hmem

/-- Every lexeme of a feed is a closing delimiter or spelled as its token asks. -/
theorem spells_of_mem_feed [Letters] {kind : TagKind} {afterDot : Bool} (hm : lx.mode = .tag kind afterDot)
    (hl : l ∈ (lx.feed d).1) : l.token = Token.closes kind ∨ l.token.Spells l.text := by
  fun_induction feed d lx generalizing afterDot with
  | case1 lx h => cases hl
  | case2 lx diagnostic next h => cases hl
  | case3 lx l' next h hclose =>
    obtain rfl : l = l' := List.mem_singleton.1 hl
    exact (emits_of_step h).spells hm
  | case4 lx l' next h hclose ls stop after heq ih =>
    rw [heq] at ih
    rcases (emits_of_step h).mode_of_tag hm with ⟨htoken, -⟩ | ⟨-, dot, hnext⟩
    · rw [htoken] at hclose
      exact absurd (Token.isClosing_closes kind) hclose
    · dsimp only at hl
      split at hl
      · exact ih hnext hl
      · rcases List.mem_cons.1 hl with rfl | hmem
        · exact (emits_of_step h).spells hm
        · exact ih hnext hmem

end Lexer

/-- Between two offsets, every lexeme of a row ends after the first. -/
theorem Lexeme.InRow.stop_pos {p q : Nat} {ls : List Lexeme} (h : InRow p ls q) {l : Lexeme}
    (hl : l ∈ ls) : p < l.span.stop := by
  induction ls generalizing p with
  | nil => cases hl
  | cons l' ls ih =>
    obtain ⟨hstart, hlt, hrow⟩ := h
    rcases List.mem_cons.1 hl with rfl | hmem
    · omega
    · have := ih hrow hmem
      omega

theorem Lexeme.InRow.start_le {p q : Nat} {ls : List Lexeme} (h : InRow p ls q) {l : Lexeme}
    (hl : l ∈ ls) : p ≤ l.span.start := by
  induction ls generalizing p with
  | nil => cases hl
  | cons l' ls ih =>
    obtain ⟨hstart, hlt, hrow⟩ := h
    rcases List.mem_cons.1 hl with rfl | hmem
    · exact hstart
    · have := ih hrow hmem
      omega

end Stencil
