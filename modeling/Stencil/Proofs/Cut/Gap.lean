/-
  Gap — blanks put between two lexemes of a tag.

  On its way through a tag the lexer comes by places between lexemes (`Lexer.Passes`).  Up to such a
  place it has walked over lexemes and then over blanks (`Passes.exists_walk`).  If blanks are put in at
  the place, or among blanks that follow it, the walk is the same: its text is read alike before any
  blank (`Walks.elsewhere`).  The blanks themselves are passed by, and what comes after them is read as
  before, so many bytes further on (`Passes.feed_gap`).
-/
import Stencil.Proofs.Cut.Stretch
import Stencil.Proofs.Template.Extent

namespace Stencil

namespace Lexer

variable [Letters] {d : Delims} {lx place : Lexer} {kind : TagKind} {afterDot : Bool}

/-- The lexemes of a walk lie before its end. -/
theorem Walks.span_le {next : Lexer} {cs : List Char} {ls : List Lexeme} (h : lx.Walks d cs ls next) :
    ∀ l ∈ ls, l.span.start ≤ l.span.stop ∧ l.span.stop ≤ next.pos := by
  have first : ∀ {lx mid next : Lexer} {l : Lexeme}, lx.step d = .token l mid → mid.pos ≤ next.pos →
      l.span.start ≤ l.span.stop ∧ l.span.stop ≤ next.pos := by
    intro lx mid next l hstep hle
    obtain ⟨hreach, hspan⟩ := (emits_of_step hstep).reaches
    rw [hspan]
    exact ⟨hreach.pos_le, hle⟩
  induction h with
  | last hstep => exact List.forall_mem_singleton.2 (first hstep (Nat.le_refl _))
  | blank hstep hblank hmore ih => exact ih
  | more hstep hclose hblank hmore ih =>
    exact List.forall_mem_cons.2 ⟨first hstep hmore.reaches.pos_le, ih⟩

/-- Where a closing delimiter is read, the lexemes stop there. -/
theorem stop_of_closing {l : Lexeme} (hl : l ∈ (lx.feed d).1) (hclose : l.token.isClosing = true) :
    (lx.feed d).2.1 = .atEnd (lx.feed d).2.2.pos := by
  fun_induction feed d lx with
  | case1 lx h => rfl
  | case2 lx diagnostic next h => cases hl
  | case3 lx l' next h hclose' => rfl
  | case4 lx l' next h hclose' ls stop after heq ih =>
    rw [heq] at ih
    apply ih
    dsimp only at hl
    split at hl
    · exact hl
    · rcases List.mem_cons.1 hl with rfl | hmem
      · exact absurd hclose hclose'
      · exact hmem

/-- Up to a place inside a tag that is closed, the lexer has walked over lexemes, if there are any, and
    then over blanks. -/
theorem Passes.exists_walk (h : lx.Passes d place) (hm : lx.mode = .tag kind afterDot)
    (hin : place.inTag = true) (hclose : ∃ l ∈ (lx.feed d).1, l.token.isClosing = true) :
    ∃ cs ls mid bs dot, (cs = [] ∧ ls = [] ∧ mid = lx ∨ lx.Walks d cs ls mid) ∧
      mid.mode = .tag kind dot ∧ mid.Reaches bs place ∧ ∀ c ∈ bs, isBlank c = true := by
  -- The blanks before the place are kept apart as `bs`; those before a lexeme are part of the walk.
  induction h generalizing afterDot with
  | here lx => exact ⟨[], [], lx, [], afterDot, .inl ⟨rfl, rfl, rfl⟩, hm, .refl lx, List.forall_mem_nil _⟩
  | fault hin' hstep hnext ih =>
    rw [feed_of_fault hstep] at hclose
    obtain ⟨l, hl, -⟩ := hclose
    cases hl
  | @token lx next place l hin' hstep hnext ih =>
    by_cases hends : l.token.isClosing = true
    · -- The lexer has left the tag, and comes by no other place of it.
      have hout : next.inTag = false := by
        rcases (emits_of_step hstep).mode_of_tag hm with ⟨-, hmode⟩ | ⟨hopen, -⟩
        · unfold inTag
          rw [hmode]
        · rw [hends] at hopen
          cases hopen
      cases hnext with
      | here => rw [hin] at hout; cases hout
      | token hin'' => rw [hin''] at hout; cases hout
      | fault hin'' => rw [hin''] at hout; cases hout
    have hopen : l.token.isClosing = false := Bool.eq_false_iff.2 hends
    obtain ⟨c, more, hwords⟩ := words_of_step hm hstep hopen
    have hreach := (emits_of_step hstep).reaches.1
    rw [feed_of_token hstep, if_neg hends] at hclose
    by_cases hblank : l.token = .blank
    · rw [if_pos hblank] at hclose
      obtain ⟨cs, ls, mid, bs, dot, hwalk, hmid, hbs, hall⟩ := ih hwords.mode hin hclose
      rcases hwalk with ⟨rfl, rfl, rfl⟩ | hwalk
      · have hspells := Scan.spells_of_read hwords.read
        rw [List.take_left, hblank, ← hwords.text] at hspells
        refine ⟨[], [], lx, l.text ++ bs, afterDot, .inl ⟨rfl, rfl, rfl⟩, hm, hreach.trans hbs, ?_⟩
        exact List.forall_mem_append.2 ⟨List.all_eq_true.1 hspells.2, hall⟩
      · exact ⟨_, ls, mid, bs, dot, .inr (.blank hstep hblank hwalk), hmid, hbs, hall⟩
    · rw [if_neg hblank] at hclose
      have hclose' : ∃ m ∈ (next.feed d).1, m.token.isClosing = true := by
        obtain ⟨m, hmem, hm'⟩ := hclose
        rcases List.mem_cons.1 hmem with rfl | hmem
        · exact absurd hm' hends
        · exact ⟨m, hmem, hm'⟩
      obtain ⟨cs, ls, mid, bs, dot, hwalk, hmid, hbs, hall⟩ := ih hwords.mode hin hclose'
      rcases hwalk with ⟨rfl, rfl, rfl⟩ | hwalk
      · exact ⟨_, [l], _, bs, dot, .inr (.last hstep hopen hblank), hmid, hbs, hall⟩
      · exact ⟨_, l :: ls, mid, bs, dot, .inr (.more hstep hopen hblank hwalk), hmid, hbs, hall⟩

/-- Blanks put in at a place that the lexer comes by inside a tag, or among blanks that follow it, leave
    the lexemes in front as they are, and those behind are read so many bytes further on. -/
theorem Passes.feed_gap (h : lx.Passes .standard place) (hm : lx.mode = .tag kind afterDot)
    (hin : place.inTag = true) (hclose : ∃ l ∈ (lx.feed .standard).1, l.token.isClosing = true)
    {gap rest blanks : List Char} (hrest : place.rest = gap ++ rest) (hgap : ∀ c ∈ gap, isBlank c = true)
    (hne : blanks ≠ []) (hblanks : ∀ c ∈ blanks, isBlank c = true) :
    ∃ used ls dot, lx.rest = used ++ rest ∧
      (∀ l ∈ ls, l.span.start ≤ l.span.stop ∧ l.span.stop ≤ lx.pos + byteLen used) ∧
      let behind : Lexer := ⟨lx.pos + byteLen used, rest, .tag kind dot⟩
      lx.feed .standard = (ls ++ (behind.feed .standard).1, (behind.feed .standard).2) ∧
      Lexer.feed .standard ⟨lx.pos, used ++ (blanks ++ rest), .tag kind afterDot⟩ =
        (ls ++ move (· + byteLen blanks) (behind.feed .standard).1,
          move (· + byteLen blanks) (behind.feed .standard).2) := by
  obtain ⟨cs, ls, mid, bs, dot, hwalk, hmid, hbs, hall⟩ := h.exists_walk hm hin hclose
  have hfront : ∀ c ∈ bs ++ gap, isBlank c = true := List.forall_mem_append.2 ⟨hall, hgap⟩
  have hmidrest : mid.rest = (bs ++ gap) ++ rest := by
    rw [hbs.text, hrest, List.append_assoc]
  -- What comes behind the walk is read from where its blanks end.
  have hpass : mid.feed .standard =
      Lexer.feed .standard ⟨mid.pos + byteLen (bs ++ gap), rest, .tag kind dot⟩ := by
    have hmideq : mid = ⟨mid.pos, (bs ++ gap) ++ rest, .tag kind dot⟩ := by
      rw [← hmidrest, ← hmid]
    rw [hmideq]
    exact feed_blanks hfront rest mid.pos
  have hpass' : Lexer.feed .standard ⟨mid.pos, (bs ++ gap) ++ (blanks ++ rest), .tag kind dot⟩ =
      move (· + byteLen blanks)
        (Lexer.feed .standard ⟨mid.pos + byteLen (bs ++ gap), rest, .tag kind dot⟩) := by
    rw [feed_blanks hfront, feed_blanks hblanks, ← feed_shift]
    rfl
  rcases hwalk with ⟨rfl, rfl, rfl⟩ | hwalk
  · obtain rfl : afterDot = dot := by
      rw [hm] at hmid
      cases hmid
      rfl
    exact ⟨bs ++ gap, [], afterDot, hmidrest, List.forall_mem_nil _, hpass, hpass'⟩
  · obtain ⟨w, ws, hw⟩ : ∃ w ws, (bs ++ gap) ++ (blanks ++ rest) = w :: (ws ++ rest) ∧
        isBlank w = true := by
      have hboth : ∀ c ∈ (bs ++ gap) ++ blanks, isBlank c = true :=
        List.forall_mem_append.2 ⟨hfront, hblanks⟩
      obtain ⟨w, ws, hws⟩ := List.exists_cons_of_ne_nil
        (show (bs ++ gap) ++ blanks ≠ [] from fun hnil => hne (List.append_eq_nil_iff.1 hnil).2)
      refine ⟨w, ws, ?_, hboth w (by rw [hws]; exact List.mem_cons_self)⟩
      rw [← List.append_assoc, hws, List.cons_append]
    have hreach := hwalk.reaches
    obtain ⟨dot', hdot, hwalk'⟩ := hwalk.elsewhere hw.2 hm (.inl rfl) (ws ++ rest)
    obtain rfl : dot = dot' := by
      rw [hmid] at hdot
      cases hdot
      rfl
    have hpos : lx.pos + byteLen (cs ++ (bs ++ gap)) = mid.pos + byteLen (bs ++ gap) := by
      rw [byteLen_append, hreach.pos, Nat.add_assoc]
    refine ⟨cs ++ (bs ++ gap), ls, dot, ?_, ?_, ?_⟩
    · rw [hreach.text, hmidrest, List.append_assoc cs]
    · intro l hl
      obtain ⟨hstart, hstop⟩ := hwalk.span_le l hl
      exact ⟨hstart, by omega⟩
    · dsimp only
      rw [hpos, hwalk.feed_eq, hpass]
      refine ⟨rfl, ?_⟩
      rw [List.append_assoc, hw.1, hwalk'.feed_eq, ← hw.1, hpass']
      rfl

end Lexer

end Stencil
