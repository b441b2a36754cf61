/-
  Ahead — where a machine stands in a tag, and how it gets out of it.

  While the grammar reads a tag, the machine and the feed of the tag keep in step.  What the feed has left is what
  waits in the queue, and then what the lexer will find.  As long as the closing delimiter has not been seen the
  lexer is on its way through the tag (`Ahead.going`); once it waits in the queue, it is the last lexeme there and
  the lexer stands right behind it (`Ahead.shut`), so from then on nothing may be lexed until it has been taken.

  When the grammar fails, the closing delimiter has not been seen, or it waits, or it has been taken: these are
  the three cases of `Left`, and the three ways out of `recover`.  They lead to the same place, the one where
  skipping the tag with the lexer alone ends (`recover_eq`).  A fault among the lexemes belongs to the first case:
  the lexer has moved past it, and possibly out of the tag.
-/
import Stencil.Proofs.Checked.Decoding

namespace Stencil

namespace Lexer

variable {d : Delims} {lx mid place : Lexer}

theorem Passes.trans [Letters] (h : lx.Passes d mid) (h' : mid.Passes d place) : lx.Passes d place := by
  induction h with
  | here => exact h'
  | token hin hstep _ ih => exact .token hin hstep (ih h')
  | fault hin hstep _ ih => exact .fault hin hstep (ih h')

/-- Where the lexer leaves the tag, skipping it ends. -/
theorem Passes.skipTag_of_outside [Letters] (h : lx.Passes d place) (hout : place.inTag = false) :
    lx.skipTag d = place := by
  rw [← h.skipTag_eq, Lexer.skipTag_of_outside hout]

end Lexer

namespace Checked

variable {d : Delims} {source : List Char} {m : Machine d source} {feed : Feed} {lx : Lexer} {kind : TagKind}
  {dot : Bool}

/-- There is less to do at a place of the source than the bound says. -/
theorem At.weight_lt (h : At source lx.pos lx.rest) : lx.weight < enough source := by
  have hle := h.length_le
  have hone := lx.mode.pending_le_one
  unfold Lexer.weight enough
  omega

theorem At.reaches_start (h : At source lx.pos lx.rest) : ∃ used, (Lexer.start source).Reaches used lx := by
  obtain ⟨front, hsource, hpos⟩ := h
  exact ⟨front, hsource, by rw [hpos]; exact (Nat.zero_add _).symm⟩

/-- At the end of the source. -/
theorem At.pos_eq (h : At source lx.pos lx.rest) (hrest : lx.rest = []) : lx.pos = Stencil.byteLen source := by
  rw [h.byteLen, hrest, byteLen_nil, Nat.add_zero]

/-! ## Places -/

/-- The lexer of the machine stands at the place. -/
structure Machine.Stands (m : Machine d source) (lx : Lexer) : Prop where
  here : At source lx.pos lx.rest
  cursor : m.cursor = lx.pos
  mode : m.mode = lx.mode

namespace Machine.Stands

theorem moved (m : Machine d source) (h : At source lx.pos lx.rest) : (m.moved lx).Stands lx := ⟨h, rfl, rfl⟩

theorem moved_eq (h : m.Stands lx) : m.moved lx = m := by
  obtain ⟨-, hcursor, hmode⟩ := h
  unfold Machine.moved
  rw [← hcursor, ← hmode]

theorem step?_eq [Letters] (h : m.Stands lx) : step? d source m.cursor m.mode = some (lx.step d) := by
  rw [h.cursor, h.mode]
  exact Checked.step?_eq h.here

theorem skipTag?_eq [Letters] (h : m.Stands lx) :
    skipTag? d source (enough source) m.cursor m.mode = some (lx.skipTag d) := by
  rw [h.cursor, h.mode]
  exact Checked.skipTag?_eq h.here h.here.weight_lt

end Machine.Stands

/-- No lexeme of the queue closes the tag. -/
def Open (queue : List Lexeme) : Prop := ∀ l ∈ queue, l.token.isClosing = false

/-- The last lexeme of the queue, and no other one, closes the tag, and it ends at the offset. -/
structure ClosesAt (queue : List Lexeme) (pos : Nat) : Prop where
  exists_last : ∃ front closing, queue = front ++ [closing] ∧ Open front ∧ closing.token.isClosing = true ∧
    closing.span.stop = pos

/-- The feed has left what waits in the queue of the machine, and what its lexer will find, which has come from
    `inside` on its way through the tag. -/
inductive Ahead [Letters] (inside : Lexer) (m : Machine d source) (feed : Feed) : Prop
  | going {lx : Lexer} {kind : TagKind} {dot : Bool} (stands : m.Stands lx) (passes : inside.Passes d lx)
      (mode : lx.mode = .tag kind dot) (queue : Open m.peeked)
      (lexemes : feed.lexemes = m.peeked ++ (lx.feed d).1) (stop : feed.stop = (lx.feed d).2.1)
  | shut {lx : Lexer} (stands : m.Stands lx) (passes : inside.Passes d lx) (out : lx.inTag = false)
      (queue : ClosesAt m.peeked lx.pos) (lexemes : feed.lexemes = m.peeked)

/-- Where the closing delimiter of the tag is when the machine is left. -/
inductive Left [Letters] (inside : Lexer) (m : Machine d source) : Prop
  | unseen {lx : Lexer} (stands : m.Stands lx) (passes : inside.Passes d lx) (closed : m.closed = none)
      (queue : Open m.peeked)
  | waits {lx : Lexer} (stands : m.Stands lx) (passes : inside.Passes d lx) (out : lx.inTag = false)
      (closed : m.closed = none) (queue : ClosesAt m.peeked lx.pos)
  | taken {lx : Lexer} {place : Span} (stands : m.Stands lx) (passes : inside.Passes d lx)
      (out : lx.inTag = false) (closed : m.closed = some place) (pos : place.stop = lx.pos)
      (queue : m.peeked = [])

theorem Ahead.left [Letters] {inside : Lexer} (h : Ahead inside m feed) (hclosed : m.closed = none) :
    Left inside m := by
  cases h with
  | going stands passes _ queue => exact .unseen stands passes hclosed queue
  | shut stands passes out queue => exact .waits stands passes out hclosed queue

/-- What else the machine remembers does not count. -/
theorem Ahead.congr [Letters] {inside : Lexer} {m' : Machine d source} (h : Ahead inside m feed)
    (hcursor : m'.cursor = m.cursor)
    (hmode : m'.mode = m.mode) (hpeeked : m'.peeked = m.peeked) : Ahead inside m' feed := by
  cases h with
  | going stands passes mode queue lexemes stop =>
    exact .going ⟨stands.here, hcursor.trans stands.cursor, hmode.trans stands.mode⟩ passes mode
      (hpeeked ▸ queue) (hpeeked ▸ lexemes) stop
  | shut stands passes out queue lexemes =>
    exact .shut ⟨stands.here, hcursor.trans stands.cursor, hmode.trans stands.mode⟩ passes out
      (hpeeked ▸ queue) (hpeeked ▸ lexemes)

theorem Left.congr [Letters] {inside : Lexer} {m' : Machine d source} (h : Left inside m)
    (hcursor : m'.cursor = m.cursor)
    (hmode : m'.mode = m.mode) (hpeeked : m'.peeked = m.peeked) (hclosed : m'.closed = m.closed) :
    Left inside m' := by
  cases h with
  | unseen stands passes closed queue =>
    exact .unseen ⟨stands.here, hcursor.trans stands.cursor, hmode.trans stands.mode⟩ passes
      (hclosed.trans closed) (hpeeked ▸ queue)
  | waits stands passes out closed queue =>
    exact .waits ⟨stands.here, hcursor.trans stands.cursor, hmode.trans stands.mode⟩ passes out
      (hclosed.trans closed) (hpeeked ▸ queue)
  | taken stands passes out closed pos queue =>
    exact .taken ⟨stands.here, hcursor.trans stands.cursor, hmode.trans stands.mode⟩ passes out
      (hclosed.trans closed) pos (hpeeked.trans queue)

/-- Wherever the closing delimiter is, the tag ends where skipping it ends, and the machine goes on from there
    with an empty queue. -/
theorem recover_eq [Letters] {inside : Lexer} (h : Left inside m) :
    ∃ m' : Machine d source, m.recover = some ((inside.skipTag d).pos, m') ∧
      m'.Stands (inside.skipTag d) ∧ m'.peeked = [] ∧ m'.errors = m.errors ∧ m'.calls = m.calls := by
  unfold Machine.recover
  cases h with
  | @unseen lx stands passes closed queue =>
    have hfind : m.peeked.find? (·.token.isClosing) = none := by
      rw [List.find?_eq_none]
      intro l hl
      rw [queue l hl]
      exact Bool.false_ne_true
    -- The lexer skips what is left, and from any place it passes that ends where skipping the whole tag does.
    obtain ⟨used, hreach⟩ := Lexer.reaches_skipTag d lx
    rw [closed]
    dsimp only
    rw [hfind]
    dsimp only
    rw [stands.skipTag?_eq, ← passes.skipTag_eq]
    exact ⟨_, rfl, ⟨stands.here.reaches hreach, rfl, rfl⟩, rfl, rfl, rfl⟩
  | @waits lx stands passes out closed queue =>
    obtain ⟨front, closing, hqueue, hopen, hclosing, hpos⟩ := queue.exists_last
    -- The first lexeme in the queue that closes the tag is its last, behind which the lexer stands.
    have hfront : front.find? (·.token.isClosing) = none := by
      rw [List.find?_eq_none]
      intro l hl
      rw [hopen l hl]
      exact Bool.false_ne_true
    rw [closed]
    dsimp only
    rw [hqueue, List.find?_append, hfront, List.find?_singleton, if_pos hclosing]
    dsimp only [Option.none_or]
    rw [hpos, passes.skipTag_of_outside out]
    exact ⟨_, rfl, ⟨stands.here, stands.cursor, stands.mode⟩, rfl, rfl, rfl⟩
  | @taken lx place stands passes out closed pos queue =>
    rw [closed]
    dsimp only
    rw [pos, passes.skipTag_of_outside out]
    exact ⟨_, rfl, ⟨stands.here, stands.cursor, stands.mode⟩, rfl, rfl, rfl⟩

/-! ## Asking the lexer -/

/-- What the lexer gives when it is asked at the place, told by the lexemes that are left there, and the place
    behind it. -/
inductive Pulls [Letters] (d : Delims) (lx : Lexer) : Except Diagnostic (Option Lexeme) → Lexer → Prop
  | fault {diagnostic : Diagnostic} {place : Lexer} (lexemes : (lx.feed d).1 = [])
      (stop : (lx.feed d).2.1 = .fault diagnostic) : Pulls d lx (.error diagnostic) place
  | done {place : Lexer} {kind : TagKind} {dot : Bool} (mode : place.mode = .tag kind dot)
      (rest : place.rest = []) (lexemes : (lx.feed d).1 = (place.feed d).1)
      (stop : (lx.feed d).2.1 = (place.feed d).2.1) (step : place.step d = .done) : Pulls d lx (.ok none) place
  | closing {l : Lexeme} {place : Lexer} (closing : l.token.isClosing = true) (lexemes : (lx.feed d).1 = [l])
      (pos : l.span.stop = place.pos) (out : place.inTag = false) : Pulls d lx (.ok (some l)) place
  | word {l : Lexeme} {place : Lexer} {kind : TagKind} {dot : Bool} (inside : l.token.isClosing = false)
      (mode : place.mode = .tag kind dot) (lexemes : (lx.feed d).1 = l :: (place.feed d).1)
      (stop : (lx.feed d).2.1 = (place.feed d).2.1) : Pulls d lx (.ok (some l)) place

/-- Only the lexemes that are left at the place count. -/
theorem Pulls.of_feed [Letters] {lx' place : Lexer} {result : Except Diagnostic (Option Lexeme)}
    (h : Pulls d lx' result place)
    (hls : (lx.feed d).1 = (lx'.feed d).1) (hstop : (lx.feed d).2.1 = (lx'.feed d).2.1) :
    Pulls d lx result place := by
  cases h with
  | fault lexemes stop => exact .fault (hls.trans lexemes) (hstop.trans stop)
  | done mode rest lexemes stop step => exact .done mode rest (hls.trans lexemes) (hstop.trans stop) step
  | closing hclosing lexemes pos out => exact .closing hclosing (hls.trans lexemes) pos out
  | word inside mode lexemes stop => exact .word inside mode (hls.trans lexemes) (hstop.trans stop)

/-- Inside a tag the machine is given the next lexeme that is not a blank. -/
theorem pullFrom_eq [Letters] {fuel : Nat} (h : m.Stands lx) (hm : lx.mode = .tag kind dot)
    (hfuel : lx.weight < fuel) :
    ∃ result place, Pulls d lx result place ∧ At source place.pos place.rest ∧ lx.Passes d place ∧
      Machine.pullFrom fuel m = match result with
        | .ok found => .ok (found, m.moved place)
        | .error diagnostic => .error (.failed diagnostic (m.moved place)) := by
  -- Each round over a blank makes the place lighter, so the fuel lasts as long as it exceeds the weight.
  induction fuel generalizing m lx dot with
  | zero => omega
  | succ fuel ih =>
    have hin : lx.inTag = true := Lexer.inTag_of_mode hm
    rw [Machine.pullFrom]
    dsimp only
    rw [h.step?_eq]
    cases hstep : lx.step d with
    | done =>
      refine ⟨.ok none, lx, .done hm (Lexer.rest_eq_nil_of_step hstep).1 rfl rfl hstep, h.here, .here lx, ?_⟩
      dsimp only
      rw [h.moved_eq]
    | fault diagnostic place =>
      have hfeed := Lexer.feed_of_fault hstep
      obtain ⟨used, hreach⟩ := (Lexer.refuses_of_step hstep).reaches
      exact ⟨.error diagnostic, place, .fault (by rw [hfeed]) (by rw [hfeed]), h.here.reaches hreach,
        .fault hin hstep (.here place), rfl⟩
    | token l place =>
      have hemits := Lexer.emits_of_step hstep
      obtain ⟨hreach, hspan⟩ := hemits.reaches
      have hplace := h.here.reaches hreach
      have hpasses : lx.Passes d place := .token hin hstep (.here place)
      have hfeed := Lexer.feed_of_token hstep
      dsimp only
      rcases hemits.mode_of_tag hm with ⟨htoken, hout⟩ | ⟨hinside, dot', hmode⟩
      · have hclosing : l.token.isClosing = true := by rw [htoken]; exact Token.isClosing_closes kind
        have hsolid : l.token ≠ .blank := by rw [htoken]; cases kind <;> exact Token.noConfusion
        rw [if_pos hclosing] at hfeed
        rw [if_neg hsolid]
        exact ⟨.ok (some l), place, .closing hclosing (by rw [hfeed]) (by rw [hspan])
          (by rw [Lexer.inTag, hout]), hplace, hpasses, rfl⟩
      · rw [if_neg (by rw [hinside]; exact Bool.false_ne_true)] at hfeed
        by_cases hblank : l.token = .blank
        · have hlt := Lexer.step_token_weight hstep
          obtain ⟨result, place', hpulls, hhere, hpasses', heq⟩ :=
            ih (m := m.moved place) (.moved m hplace) hmode (by omega)
          rw [if_pos hblank] at hfeed ⊢
          exact ⟨result, place', hpulls.of_feed (by rw [hfeed]) (by rw [hfeed]), hhere,
            hpasses.trans hpasses', heq⟩
        · rw [if_neg hblank] at hfeed ⊢
          exact ⟨.ok (some l), place, .word hinside hmode (by rw [hfeed]) (by rw [hfeed]), hplace, hpasses, rfl⟩

theorem pull_eq [Letters] (h : m.Stands lx) (hm : lx.mode = .tag kind dot) :
    ∃ result place, Pulls d lx result place ∧ At source place.pos place.rest ∧ lx.Passes d place ∧
      Machine.pull m = match result with
        | .ok found => .ok (found, m.moved place)
        | .error diagnostic => .error (.failed diagnostic (m.moved place)) :=
  pullFrom_eq h hm h.here.weight_lt

end Checked

end Stencil
