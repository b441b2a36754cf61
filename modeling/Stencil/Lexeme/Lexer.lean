/-
  Lexer — reading a source step by step.

  One step yields a lexeme, reports a fault, or finds the source used up.
    * In content: everything up to the next opening delimiter is one lexeme; a comment is one
      lexeme; the opening delimiter of a tag is one and enters the tag.
    * In a tag: the closing delimiter goes before everything else, and leaves the tag.  An opening
      delimiter means the tag was never closed: that is a fault, nothing is used up, and reading
      goes on from the same place as content.
    * In a raw block: the body is one lexeme, even if it is empty.

  Every step lowers `Lexer.weight` (`step_token_weight`, `step_fault_weight`), so the loops over
  steps end: `feed` collects the lexemes of one tag up to its closing delimiter or the first fault,
  `skipTag` only looks for the end of the tag.
-/
import Stencil.Lexeme
import Stencil.Lexeme.Comment
import Stencil.Lexeme.Raw
import Stencil.Lexeme.Scan

namespace Stencil

namespace Lexer

variable [Letters]

/-- A step in content that starts with `c`. -/
def templateStep (d : Delims) (lx : Lexer) (cs : List Char) : Step :=
  match d.openingAt lx.rest with
  | none =>
    let n := d.contentLength cs + 1
    .token (lx.lexeme .content n none) (lx.advance n .template)
  | some o =>
    match o.kind with
    | .tag kind =>
      .token (lx.lexeme (Token.opens kind) o.size o.trim) (lx.advance o.size (.tag kind false))
    | .comment =>
      match d.commentMore (lx.rest.drop o.size) with
      | some n => .token (lx.lexeme .comment (o.size + n) none) (lx.advance (o.size + n) .template)
      | none =>
        .fault ⟨.unclosedComment, lx.spanOf o.size⟩ (lx.advance lx.rest.length .template)

/-- A step in the body of a raw block. -/
def rawStep (d : Delims) (lx : Lexer) : Step :=
  match d.rawLength lx.rest with
  | some n => .token (lx.lexeme .rawText n none) (lx.advance n .template)
  | none =>
    let n := lx.rest.length
    .fault ⟨.unclosedRaw, lx.spanOf n⟩ (lx.advance n .template)

/-- The token that stands for an opening delimiter in a message. -/
def foundOpening : DelimKind → Token
  | .tag kind => Token.opens kind
  | .comment => .comment

/-- A step inside a tag, at the text `c :: cs`. -/
def tagStep (d : Delims) (lx : Lexer) (kind : TagKind) (afterDot : Bool) (c : Char)
    (cs : List Char) : Step :=
  match d.closingAt kind lx.rest with
  | some close =>
    .token (lx.lexeme (Token.closes kind) close.size close.trim) (lx.advance close.size .template)
  | none =>
    match d.openingAt lx.rest with
    | some o =>
      .fault ⟨.unexpected [.token (Token.closes kind)] (some (foundOpening o.kind)),
          lx.spanOf o.size⟩ (lx.advance 0 .template)
    | none =>
      match Scan.read d kind afterDot c cs with
      | .token token more =>
        let afterDot' := token == .dot || (afterDot && token == .blank)
        .token (lx.lexeme token (more + 1) none) (lx.advance (more + 1) (.tag kind afterDot'))
      | .fault fault range more =>
        .fault ⟨.lex fault, range.shift lx.pos⟩ (lx.advance (more + 1) lx.mode)

/-- One step of reading. -/
def step (d : Delims) (lx : Lexer) : Step :=
  match lx.mode, lx.rest with
  | .raw, _ => lx.rawStep d
  | _, [] => .done
  | .template, _ :: cs => lx.templateStep d cs
  | .tag kind afterDot, c :: cs => lx.tagStep d kind afterDot c cs

/-! ## Progress -/

/-- A lexeme uses up characters, except the body of an empty raw block. -/
theorem step_token_length {d : Delims} {lx next : Lexer} {l : Lexeme}
    (h : lx.step d = .token l next) :
    next.rest.length < lx.rest.length ∨
      (l.token = .rawText ∧ lx.mode = .raw ∧ next.mode = .template
        ∧ next.rest.length ≤ lx.rest.length) := by
  unfold step at h
  split at h
  · next hm =>
    right
    unfold rawStep at h
    split at h
    · next n _ =>
      cases h
      refine ⟨rfl, hm, rfl, ?_⟩
      rw [length_advance]
      omega
    · cases h
  · cases h
  · next cs _ hr =>
    left
    have hne : lx.rest ≠ [] := by rw [hr]; exact List.cons_ne_nil _ _
    unfold templateStep at h
    split at h
    · cases h; exact lx.length_advance_lt _ (Nat.succ_pos _) hne
    · next o _ =>
      have hpos := o.size_pos
      split at h
      · cases h; exact lx.length_advance_lt _ hpos hne
      · split at h
        · cases h; exact lx.length_advance_lt _ (by omega) hne
        · cases h
  · next kind afterDot c cs _ hr =>
    left
    have hne : lx.rest ≠ [] := by rw [hr]; exact List.cons_ne_nil _ _
    unfold tagStep at h
    split at h
    · next close _ => cases h; exact lx.length_advance_lt _ close.size_pos hne
    · split at h
      · cases h
      · split at h
        · cases h; exact lx.length_advance_lt _ (Nat.succ_pos _) hne
        · cases h

/-- A step that yields a lexeme leaves less to do. -/
theorem step_token_weight {d : Delims} {lx next : Lexer} {l : Lexeme}
    (h : lx.step d = .token l next) : next.weight < lx.weight := by
  rcases step_token_length h with hlt | ⟨_, hraw, htemplate, hle⟩
  · have hone := next.mode.pending_le_one
    unfold weight
    omega
  · simp only [weight, hraw, htemplate, Mode.pending]
    omega

/-- A step that reports a fault leaves less to do. -/
theorem step_fault_weight {d : Delims} {lx next : Lexer} {diagnostic : Diagnostic}
    (h : lx.step d = .fault diagnostic next) : next.weight < lx.weight := by
  unfold step at h
  split at h
  · next hm =>
    unfold rawStep at h
    split at h
    · cases h
    · cases h; exact lx.weight_leave_lt _ (by rw [hm]; exact Mode.noConfusion)
  · cases h
  · next cs _ hr =>
    have hne : lx.rest ≠ [] := by rw [hr]; exact List.cons_ne_nil _ _
    unfold templateStep at h
    split at h
    · cases h
    · split at h
      · cases h
      · split at h
        · cases h
        · cases h; exact lx.weight_advance_lt _ (List.length_pos_iff.2 hne) hne
  · next kind afterDot c cs hm hr =>
    have hne : lx.rest ≠ [] := by rw [hr]; exact List.cons_ne_nil _ _
    unfold tagStep at h
    split at h
    · cases h
    · split at h
      · cases h; exact lx.weight_leave_lt _ (by rw [hm]; exact Mode.noConfusion)
      · split at h
        · cases h
        · cases h; exact lx.weight_advance_lt _ (Nat.succ_pos _) hne

/-! ## The inside of a tag -/

/-- Leaves the tag the place is in: stops after its closing delimiter, before an opening delimiter
    or at the end of the source, whichever comes first. -/
def skipTag (d : Delims) (lx : Lexer) : Lexer :=
  if lx.inTag then
    match _h : lx.step d with
    | .token _ next => next.skipTag d
    | .fault _ next => next.skipTag d
    | .done => { lx with mode := .template }
  else lx
termination_by lx.weight
decreasing_by
  · exact step_token_weight (by assumption)
  · exact step_fault_weight (by assumption)

/-- Why the lexemes of a tag stop. -/
inductive Stop where
  /-- The tag is closed, or the source ends, at this offset. -/
  | atEnd (pos : Nat)
  /-- A fault among the lexemes. -/
  | fault (diagnostic : Diagnostic)
  deriving DecidableEq

/-- The lexemes from the place on, blanks left out, up to and with the closing delimiter, to the
    first fault or to the end of the source; why they stop, and the place after them. -/
def feed (d : Delims) (lx : Lexer) : List Lexeme × Stop × Lexer :=
  match _h : lx.step d with
  | .done => ([], .atEnd lx.pos, lx)
  | .fault diagnostic next => ([], .fault diagnostic, next)
  | .token l next =>
    if l.token.isClosing then ([l], .atEnd next.pos, next)
    else
      let (ls, stop, after) := next.feed d
      (if l.token = .blank then ls else l :: ls, stop, after)
termination_by lx.weight
decreasing_by exact step_token_weight (by assumption)

theorem length_skipTag_le (d : Delims) (lx : Lexer) :
    (lx.skipTag d).rest.length ≤ lx.rest.length := by
  fun_induction skipTag d lx with
  | case1 lx _ _ next h ih => exact Nat.le_trans ih (length_le_of_weight_lt (step_token_weight h))
  | case2 lx _ _ next h ih => exact Nat.le_trans ih (length_le_of_weight_lt (step_fault_weight h))
  | case3 lx _ h => exact Nat.le_refl _
  | case4 lx _ => exact Nat.le_refl _

theorem length_feed_le (d : Delims) (lx : Lexer) :
    (lx.feed d).2.2.rest.length ≤ lx.rest.length := by
  fun_induction feed d lx with
  | case1 lx h => exact Nat.le_refl _
  | case2 lx diagnostic next h => exact length_le_of_weight_lt (step_fault_weight h)
  | case3 lx l next h _ => exact length_le_of_weight_lt (step_token_weight h)
  | case4 lx l next h _ ls stop after heq ih =>
    simp only [heq] at ih
    exact Nat.le_trans ih (length_le_of_weight_lt (step_token_weight h))

end Lexer

end Stencil
