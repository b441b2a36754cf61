/-
  Path — the segments of a path, seen ahead.

  A path is read by taking a double colon and looking at what follows it: a name goes on with the path, a
  macro name ends it.  On a feed the same can be said of one segment at a time, by looking at two lexemes before
  anything is taken (`segment?`); so the segments are items like any other, and `pathExpr_feed` says that the
  path comes out the same.
-/
import Stencil.Proofs.Reader.Take
import Stencil.Reader.Expr

namespace Stencil

namespace Reader

/-- Reads a further segment of a path: a double colon and a name.  A macro name is left with its double
    colon. -/
def segment? : Reader (Option Ident) := do
  if ← nextIs .pathSep then
    if ← secondIs .macroName then return none
    else
      let _ ← next
      some <$> ident
  else return none

variable {α : Type} {feed : Feed} {ls : List Lexeme} {l : Lexeme} {stop : Lexer.Stop} {last : Span}

theorem eats_cons (t : Token) : eats t (⟨l :: ls, stop, last⟩ : Feed) =
    if l.token = t then .ok (true, ⟨ls, stop, l.span⟩) else .ok (false, ⟨l :: ls, stop, last⟩) := by
  have hnextIs : nextIs t (⟨l :: ls, stop, last⟩ : Feed) = .ok (l.token == t, ⟨l :: ls, stop, last⟩) := rfl
  unfold eats eat
  rw [bind_apply, bind_of_ok hnextIs]
  by_cases ht : l.token = t
  · rw [if_pos ht, if_pos (beq_iff_eq.2 ht)]
    rfl
  · rw [if_neg ht, if_neg (by rw [beq_iff_eq]; exact ht)]
    rfl

/-- Looking at the second lexeme is looking at the next one when the first has been taken. -/
theorem secondIs_cons (t : Token) : secondIs t (⟨l :: ls, stop, last⟩ : Feed) =
    (nextIs t (⟨ls, stop, l.span⟩ : Feed)).map fun r => (r.1, ⟨l :: ls, stop, last⟩) := by
  rcases ls with _ | ⟨m, ls⟩
  · cases stop <;> rfl
  · rfl

theorem segment?_of_ne (hls : feed.lexemes = l :: ls) (hl : l.token ≠ .pathSep) :
    segment? feed = .ok (none, feed) := by
  have hpeek : peek feed = .ok (some l, feed) := by rw [peek_feed, Feed.peek, hls]
  have hnextIs : nextIs .pathSep feed = .ok (l.token == .pathSep, feed) := bind_of_ok hpeek
  unfold segment?
  rw [bind_of_ok hnextIs, if_neg (by rw [beq_iff_eq]; exact hl)]
  rfl

/-- After a double colon a name is a segment, and a macro name none; it is looked at first. -/
theorem segment?_of_pathSep (hl : l.token = .pathSep) : segment? ⟨l :: ls, stop, last⟩ =
    (nextIs .macroName (⟨ls, stop, l.span⟩ : Feed)).bind fun r =>
      if r.1 then .ok (none, ⟨l :: ls, stop, last⟩) else (some <$> ident : Reader _) ⟨ls, stop, l.span⟩ := by
  have hnextIs : nextIs .pathSep (⟨l :: ls, stop, last⟩ : Feed) =
      .ok (l.token == .pathSep, ⟨l :: ls, stop, last⟩) := rfl
  have hsecond : secondIs .macroName (⟨l :: ls, stop, last⟩ : Feed) = _ := secondIs_cons .macroName
  unfold segment?
  rw [bind_of_ok hnextIs, if_pos (beq_iff_eq.2 hl)]
  cases hnext : nextIs .macroName (⟨ls, stop, l.span⟩ : Feed) with
  | error e =>
    rw [hnext] at hsecond
    exact bind_of_error hsecond
  | ok r =>
    rw [hnext] at hsecond
    obtain ⟨isMacro, mid⟩ := r
    rw [bind_of_ok hsecond]
    cases isMacro <;> rfl

theorem manyFrom_of_none {item : Reader (Option α)} {fuel : Nat} {rest : Feed}
    (h : item feed = .ok (none, rest)) : manyFrom item (fuel + 1) feed = .ok ([], rest) :=
  bind_of_ok h

theorem manyFrom_of_some {item : Reader (Option α)} {fuel : Nat} {x : α} {mid : Feed}
    (h : item feed = .ok (some x, mid)) : manyFrom item (fuel + 1) feed =
      (do return x :: (← manyFrom item fuel) : Reader (List α)) mid :=
  bind_of_ok h

theorem manyFrom_of_error {item : Reader (Option α)} {fuel : Nat} {e : Diagnostic}
    (h : item feed = .error e) : manyFrom item (fuel + 1) feed = .error e :=
  bind_of_error h

/-- Segments that are taken one after the other are those that are seen ahead, as long as the bound is not
    reached. -/
theorem segmentsFrom_feed (fuel : Nat) (feed : Feed) (h : feed.lexemes.length < fuel) :
    segmentsFrom fuel feed =
      (do return (← manyFrom segment? fuel, ← eats .pathSep) : Reader (List Ident × Bool)) feed := by
  induction fuel generalizing feed with
  | zero => omega
  | succ fuel ih =>
    obtain ⟨ls, stop, last⟩ := feed
    rcases ls with _ | ⟨l, ls⟩
    · cases stop <;> rfl
    have heats : eats .pathSep (⟨l :: ls, stop, last⟩ : Feed) = _ := eats_cons .pathSep
    unfold segmentsFrom
    by_cases hl : l.token = .pathSep
    · have hsegment : segment? ⟨l :: ls, stop, last⟩ = _ := segment?_of_pathSep hl
      rw [if_pos hl] at heats
      rw [bind_of_ok heats, if_pos rfl]
      cases hnext : nextIs .macroName (⟨ls, stop, l.span⟩ : Feed) with
      | error e =>
        rw [hnext] at hsegment
        rw [bind_of_error hnext, bind_of_error (manyFrom_of_error hsegment)]
      | ok r =>
        obtain ⟨isMacro, mid⟩ := r
        obtain ⟨rfl, -⟩ := nextIs_eq_ok hnext
        rw [hnext] at hsegment
        rw [bind_of_ok hnext]
        cases isMacro with
        | true =>
          -- The separator before the name of a macro is taken on both sides, but no segment is.
          rw [if_pos rfl, bind_of_ok (manyFrom_of_none hsegment), bind_of_ok heats]
        | false =>
          rw [if_neg Bool.false_ne_true]
          cases hident : ident (⟨ls, stop, l.span⟩ : Feed) with
          | error e =>
            have hnone : segment? ⟨l :: ls, stop, last⟩ = .error e := hsegment.trans (bind_of_error hident)
            rw [bind_of_error hident, bind_of_error (manyFrom_of_error hnone)]
          | ok r =>
            -- A segment is taken with its separator; the bound is still above what is left.
            obtain ⟨i, rest⟩ := r
            obtain ⟨m, -, -, hls⟩ := ident_eq_ok hident
            have hsome : segment? ⟨l :: ls, stop, last⟩ = .ok (some i, rest) :=
              hsegment.trans (bind_of_ok hident)
            have hlength : rest.lexemes.length < fuel := by
              rw [show ls = m :: rest.lexemes from hls] at h
              simp only [List.length_cons] at h
              omega
            have hmore := ih rest hlength
            rw [bind_of_ok hident, bind_apply, hmore, bind_apply (manyFrom _ _), bind_apply (manyFrom _ _),
              manyFrom_of_some hsome, bind_apply (manyFrom _ _)]
            cases manyFrom segment? fuel rest with
            | error e => rfl
            | ok r =>
              dsimp only [pure_apply]
              rw [bind_apply, bind_apply]
              cases eats .pathSep r.2 <;> rfl
    · have hsegment : segment? ⟨l :: ls, stop, last⟩ = _ := segment?_of_ne rfl hl
      rw [if_neg hl] at heats
      rw [bind_of_ok heats, bind_of_ok (manyFrom_of_none hsegment), bind_of_ok heats]
      rfl

/-- The rest of a path, with its segments seen ahead. -/
theorem pathExpr_feed (value : Reader Expr) (global : Bool) (first : Ident) (start : Span) :
    pathExpr value global first start = do
      let segments := first :: (← many segment?)
      if ← eats .pathSep then macroSegment value global segments start
      else
        let span := start.join (segments.getLastD first).span
        return .path ⟨global, segments, span⟩ span := by
  funext feed
  have hsegments : segments feed = (do return (← many segment?, ← eats .pathSep) : Reader _) feed :=
    segmentsFrom_feed (feed.lexemes.length + 1) feed (Nat.lt_succ_self _)
  unfold pathExpr
  rw [bind_apply, bind_apply, hsegments, bind_apply]
  cases many segment? feed with
  | error e => rfl
  | ok r =>
    dsimp only
    rw [bind_apply, bind_apply]
    cases eats .pathSep r.2 <;> rfl

end Reader

end Stencil
