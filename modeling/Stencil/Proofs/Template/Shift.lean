/-
  Shift — reading does not depend on how much text stands before.

  A lexer does not hold the text before its place, only the offset.  So if `k` bytes more stand in
  front, every step yields the same lexeme or fault, `k` bytes further on; and the same holds of a
  whole tag, of a region and of a run.  The moves here are `move (· + k)`.
-/
import Stencil.Proofs.Template.Turn

namespace Stencil

instance : Placed Step where
  move g
    | .token l next => .token (move g l) (move g next)
    | .fault diagnostic next => .fault (move g diagnostic) (move g next)
    | .done => .done

instance : Placed Region := ⟨fun g r => ⟨move g r.node, move g r.diagnostic⟩⟩

namespace Lexer

variable (k : Nat) (d : Delims) (lx : Lexer)

/-! ## Steps -/

theorem spanOf_shift (n : Nat) :
    (move (· + k) lx).spanOf n = move (· + k) (lx.spanOf n) :=
  congrArg (Span.mk (lx.pos + k)) (Nat.add_right_comm ..)

theorem lexeme_shift (t : Token) (n : Nat) (trim : Option Trim) :
    (move (· + k) lx).lexeme t n trim = move (· + k) (lx.lexeme t n trim) :=
  congrArg (Lexeme.mk t · (lx.rest.take n) trim) (spanOf_shift k lx n)

theorem advance_shift (n : Nat) (mode : Mode) :
    (move (· + k) lx).advance n mode = move (· + k) (lx.advance n mode) :=
  congrArg (Lexer.mk · (lx.rest.drop n) mode) (Nat.add_right_comm ..)

theorem rawStep_shift : (move (· + k) lx).rawStep d = move (· + k) (lx.rawStep d) := by
  have hrest : (move (· + k) lx).rest = lx.rest := rfl
  unfold rawStep
  rw [hrest]
  split
  · rw [lexeme_shift, advance_shift]; rfl
  · dsimp only
    rw [spanOf_shift, advance_shift]; rfl

theorem templateStep_shift (cs : List Char) :
    (move (· + k) lx).templateStep d cs = move (· + k) (lx.templateStep d cs) := by
  have hrest : (move (· + k) lx).rest = lx.rest := rfl
  unfold templateStep
  rw [hrest]
  split
  · dsimp only
    rw [lexeme_shift, advance_shift]; rfl
  · split
    · rw [lexeme_shift, advance_shift]; rfl
    · split
      · rw [lexeme_shift, advance_shift]; rfl
      · rw [spanOf_shift, advance_shift]; rfl

theorem tagStep_shift [Letters] (kind : TagKind) (afterDot : Bool) (c : Char) (cs : List Char) :
    (move (· + k) lx).tagStep d kind afterDot c cs =
      move (· + k) (lx.tagStep d kind afterDot c cs) := by
  have hrest : (move (· + k) lx).rest = lx.rest := rfl
  unfold tagStep
  rw [hrest]
  split
  · rw [lexeme_shift, advance_shift]; rfl
  · split
    · rw [spanOf_shift, advance_shift]; rfl
    · split
      · dsimp only
        rw [lexeme_shift, advance_shift]; rfl
      · next fault range more hs =>
        rw [advance_shift]
        have hrange : range.shift (move (· + k) lx).pos = move (· + k) (range.shift lx.pos) := by
          show Span.mk (range.start + (lx.pos + k)) (range.stop + (lx.pos + k)) =
            ⟨range.start + lx.pos + k, range.stop + lx.pos + k⟩
          rw [Nat.add_assoc, Nat.add_assoc]
        rw [hrange]
        rfl

/-- One step, with `k` bytes more in front. -/
theorem step_shift [Letters] : (move (· + k) lx).step d = move (· + k) (lx.step d) := by
  obtain ⟨pos, rest, mode⟩ := lx
  cases mode with
  | raw => exact rawStep_shift k d ⟨pos, rest, .raw⟩
  | template =>
    cases rest with
    | nil => rfl
    | cons c cs => exact templateStep_shift k d ⟨pos, c :: cs, .template⟩ cs
  | tag kind afterDot =>
    cases rest with
    | nil => rfl
    | cons c cs => exact tagStep_shift k d ⟨pos, c :: cs, .tag kind afterDot⟩ kind afterDot c cs

/-! ## Tags -/

theorem step_shift_of_step [Letters] {d : Delims} {lx : Lexer} {st : Step} (h : lx.step d = st) :
    (move (· + k) lx).step d = move (· + k) st := by
  rw [step_shift, h]

theorem feed_shift [Letters] : (move (· + k) lx).feed d = move (· + k) (lx.feed d) := by
  fun_induction feed d lx with
  | case1 lx h => exact feed_of_done (step_shift_of_step k h)
  | case2 lx diagnostic next h => exact feed_of_fault (step_shift_of_step k h)
  | case3 lx l next h hclose =>
    rw [feed_of_token (step_shift_of_step k h)]
    exact if_pos hclose
  | case4 lx l next h hclose ls stop after heq ih =>
    rw [heq] at ih
    rw [feed_of_token (step_shift_of_step k h), ih]
    refine (if_neg hclose).trans ?_
    by_cases hblank : l.token = .blank
    · rw [if_pos hblank]
      exact congrArg (·, _, _) (if_pos hblank)
    · rw [if_neg hblank]
      exact congrArg (·, _, _) (if_neg hblank)

theorem inTag_move (g : Nat → Nat) : (move g lx).inTag = lx.inTag := rfl

theorem skipTag_shift [Letters] : (move (· + k) lx).skipTag d = move (· + k) (lx.skipTag d) := by
  fun_induction skipTag d lx with
  | case1 lx hin l next h ih =>
    rw [← inTag_move lx (· + k)] at hin
    exact (skipTag_of_token hin (step_shift_of_step k h)).trans ih
  | case2 lx hin diagnostic next h ih =>
    rw [← inTag_move lx (· + k)] at hin
    exact (skipTag_of_fault hin (step_shift_of_step k h)).trans ih
  | case3 lx hin h =>
    rw [← inTag_move lx (· + k)] at hin
    exact skipTag_of_done hin (step_shift_of_step k h)
  | case4 lx hin =>
    rw [← inTag_move lx (· + k)] at hin
    rw [skipTag.eq_def, if_neg hin]

end Lexer

/-! ## Regions -/

namespace Region

variable (k : Nat) (s : Settings)

theorem monotone_shift : Monotone (· + k) := fun _ _ h => Nat.add_le_add_right h k

theorem toNode_move (g : Nat → Nat) (b : Body) (trims : Trims) (span : Span) :
    move g (b.toNode trims span) = (move g b).toNode trims (move g span) := by
  cases b <;> rfl

theorem isRaw_move (g : Nat → Nat) (b : Body) : (move g b).isRaw = b.isRaw := by
  cases b with
  | expr e => rfl
  | stmt st =>
    obtain ⟨kind, span⟩ := st
    cases kind <;> rfl

theorem readTag_shift [Letters] {lx : Lexer} {kind : TagKind} {afterDot : Bool} (opening : Lexeme)
    (hm : lx.mode = .tag kind afterDot) :
    readTag s kind (move (· + k) opening) (move (· + k) lx) =
      move (· + k) (readTag s kind opening lx) := by
  have hmono := monotone_shift k
  have hregular : (feedOf s opening lx).Regular (· + k) :=
    Lexer.regular_feed (fun n hn => by omega) hm _ _
  have hfeed : feedOf s (move (· + k) opening) (move (· + k) lx) =
      move (· + k) (feedOf s opening lx) := by
    unfold feedOf
    rw [Lexer.feed_shift]
    rfl
  have hafter : ((move (· + k) lx).feed s.delims).2.2 =
      move (· + k) (lx.feed s.delims).2.2 := by
    rw [Lexer.feed_shift]
    rfl
  cases hbody : body s.limit kind (feedOf s opening lx) with
  | ok r =>
    obtain ⟨⟨b, closing⟩, rest⟩ := r
    have hmoved := ((body_moves hmono s.limit kind).of_ok hregular hbody).1
    rw [← hfeed] at hmoved
    rw [readTag_of_ok hbody, readTag_of_ok hmoved, hafter, isRaw_move]
    have hnode : move (· + k) (b.toNode ⟨opening.trim, closing.trim⟩
          (opening.span.join closing.span)) =
        (move (· + k) b).toNode ⟨opening.trim, closing.trim⟩
          ((move (· + k) opening).span.join (move (· + k) closing).span) := by
      rw [toNode_move, Span.move_join hmono]
      rfl
    show (Region.mk (some _) none, _) = (Region.mk (some (move (· + k) _)) none, move (· + k) _)
    rw [hnode]
    split <;> rfl
  | error diagnostic =>
    have hmoved := (body_moves hmono s.limit kind).of_error hregular hbody
    rw [← hfeed] at hmoved
    rw [readTag_of_error hbody, readTag_of_error hmoved, hafter, Lexer.skipTag_shift]
    rfl

theorem ofLexeme_shift (d : Delims) (l : Lexeme) :
    ofLexeme d (move (· + k) l) = move (· + k) (ofLexeme d l) := by
  obtain ⟨token, span, text, trim⟩ := l
  cases token <;> rfl

theorem ofFault_shift (d : Delims) (lx next : Lexer) (diagnostic : Diagnostic) :
    ofFault d (move (· + k) lx) (move (· + k) next) (move (· + k) diagnostic) =
      move (· + k) (ofFault d lx next diagnostic) := by
  have hempty : (Span.mk (lx.pos + k) (next.pos + k)).isEmpty =
      (Span.mk lx.pos next.pos).isEmpty := by
    simp [Span.isEmpty]
  unfold ofFault
  dsimp only [move]
  rw [hempty]
  split
  · rfl
  · obtain ⟨fault, span⟩ := diagnostic
    cases fault <;> rfl

/-- A turn outside a tag, with `k` bytes more in front. -/
theorem Turn.shift [Letters] {lx next : Lexer} {r : Region} (h : Turn s lx r next) (hout : lx.inTag = false) :
    Turn s (move (· + k) lx) (move (· + k) r) (move (· + k) next) := by
  cases h with
  | fault h =>
    rw [← ofFault_shift]
    exact .fault (Lexer.step_shift_of_step k h)
  | @tag l kind next h hl =>
    have hnext := (mode_of_opening hout (Lexer.emits_of_step h) hl).2
    have hread := readTag_shift k s l hnext
    have hturn : Turn s (move (· + k) lx) _ _ := .tag (Lexer.step_shift_of_step k h) hl
    rw [hread] at hturn
    exact hturn
  | lexeme h hl =>
    rw [← ofLexeme_shift]
    exact .lexeme (Lexer.step_shift_of_step k h) hl

end Region

/-- A run that starts outside a tag, with `k` bytes more in front. -/
theorem regions_shift [Letters] (k : Nat) (s : Settings) (lx : Lexer) (hout : lx.inTag = false) :
    regions s (move (· + k) lx) = move (· + k) (regions s lx) := by
  refine regions_induction (P := fun lx rs => regions s (move (· + k) lx) = move (· + k) rs)
    ?_ ?_ lx hout
  · exact fun lx hdone => regions_of_done (Lexer.step_shift_of_step k hdone)
  · intro lx next r used hlx hturn hcovers ih
    rw [(hturn.shift k s hlx).regions_eq, ih]
    rfl

end Stencil
