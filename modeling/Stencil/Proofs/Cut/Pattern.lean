/-
  Pattern — which patterns can be read alone.

  Parentheses around a single pattern leave no trace: the place of `(a)` is that of `a`.  That is no harm
  to `a`, but alternatives, and patterns that are taken apart, run from the place of their first part to
  the place of the last one.  So the place of `(a) | b` begins behind the parenthesis, and the lexemes
  under it cannot be read.  This is the only way for a pattern to go wrong.  Wherever the parentheses under
  the place of a pattern are paired, the pattern is read from the lexemes under it (`Pattern.Rereads`).

  The argument is by counting.  The lexemes that a reader takes have paired parentheses.  A pattern leaves
  out opening parentheses before its place and closing ones behind it, and nothing else (`Pattern.Parted`).
  If alternatives leave out one before the first of them, the parenthesis that answers it is still there,
  in front of the first bar, and is not paired.
-/
import Stencil.Proofs.Cut.Stmt
import Stencil.Proofs.Reader.Row

namespace Stencil

/-! ## Patterns that can be read alone -/

/-- The pattern stands over the lexemes, and if their parentheses are paired, it is read from them. -/
structure Pattern.Rereads (limit : Nat) (part : List Lexeme) (p : Pattern) : Prop where
  place : p.span.Over part
  reads : Lexeme.Paired part → Reader.Closes (Reader.armPattern limit) part p

/-- What is true of lexemes that patterns stand on, one after the other. -/
structure Pattern.Held (limit : Nat) (ps : List Pattern) (ls : List Lexeme) : Prop where
  paired : Lexeme.Paired ls
  dotless : ∀ l ∈ ls, l.token ≠ .dot
  parts : ∀ p ∈ ps, ∀ q, p.HasPart q → Stands (Pattern.Rereads limit) ls q

/-- What is true of the lexemes that are taken for one pattern: it can be read from all of them, and it
    stands over what some opening parentheses in front and some closing ones at the end leave. -/
structure Pattern.Parted (limit : Nat) (p : Pattern) (ls : List Lexeme) : Prop
    extends Pattern.Held limit p.children ls where
  whole : Reader.Closes (Reader.armPattern limit) ls p
  inner : ∃ opens part closes, ls = opens ++ (part ++ closes) ∧ (∀ l ∈ opens, l.token = .lparen) ∧
    (∀ l ∈ closes, l.token = .rparen) ∧ Pattern.Rereads limit part p

theorem Settled.of_dotless {ls : List Lexeme} (h : ∀ l ∈ ls, l.token ≠ .dot) : Settled ls :=
  fun l hl => h l (List.mem_of_mem_getLast? hl)

namespace Pattern

variable {limit : Nat} {p q : Pattern} {ps qs : List Pattern} {a b ls : List Lexeme}

namespace Held

theorem nil (limit : Nat) : Held limit [] [] := ⟨rfl, nofun, nofun⟩

theorem append (ha : Held limit ps a) (hb : Held limit qs b) : Held limit (ps ++ qs) (a ++ b) where
  paired := ha.paired.append hb.paired
  dotless := List.forall_mem_append.2 ⟨ha.dotless, hb.dotless⟩
  parts := by
    intro p hp q hq
    rcases List.mem_append.1 hp with hmem | hmem
    · exact (ha.parts p hmem q hq).left
    · exact (hb.parts p hmem q hq).right (.of_dotless ha.dotless)

theorem of_plain {l : Lexeme} (hl : l.Plain) : Held limit [] [l] where
  paired := by
    show (Lexeme.nest 0 l).bind (Lexeme.nesting · []) = some 0
    rw [hl.nest]
    rfl
  dotless := List.forall_mem_singleton.2 hl.ne_dot
  parts := nofun

theorem enclosed {o c : Lexeme} (h : Held limit ps ls) (ho : o.token = .lparen) (hc : c.token = .rparen) :
    Held limit ps (o :: (ls ++ [c])) where
  paired := h.paired.enclosed ho hc
  dotless := by
    rintro l hl
    rcases List.mem_cons.1 hl with rfl | hl
    · rw [ho]; decide
    rcases List.mem_append.1 hl with hl | hl
    · exact h.dotless l hl
    · rw [List.mem_singleton.1 hl, hc]; decide
  parts := by
    intro p hp q hq
    have hstands : Stands (Rereads limit) (ls ++ [c]) q := (h.parts p hp q hq).left
    exact hstands.right (a := [o]) (.singleton (by rw [ho]; decide))

end Held

namespace Parted

/-- The pattern and all that is in it stand on the lexemes. -/
theorem stands (h : Parted limit p ls) (hq : p.HasPart q) : Stands (Rereads limit) ls q := by
  cases hq with
  | child hc hq => exact h.parts _ hc q hq
  | self =>
    obtain ⟨opens, part, closes, hls, hopens, -, hpart⟩ := h.inner
    refine ⟨opens, part, closes, hls, .of_dotless fun l hl => ?_, hpart⟩
    rw [hopens l hl]
    decide

theorem held (h : Parted limit p ls) : Held limit [p] ls where
  paired := h.paired
  dotless := h.dotless
  parts := List.forall_mem_singleton.2 fun _ hq => h.stands hq

/-- A pattern over all of its lexemes. -/
theorem of_over (h : Held limit p.children ls) (hwhole : Reader.Closes (Reader.armPattern limit) ls p)
    (hs : p.span.Over ls) : Parted limit p ls where
  toHeld := h
  whole := hwhole
  inner := ⟨[], ls, [], by simp, nofun, nofun, hs, fun _ => hwhole⟩

end Parted

theorem Row.held (h : Row (Parted limit) ps ls) : Held limit ps ls := by
  induction h with
  | nil => exact .nil limit
  | plain hl _ ih => exact (Held.of_plain hl).append ih
  | pattern hp _ ih => exact hp.held.append ih

theorem Atom.parted (h : Atom (Parted limit) p ls) (hwhole : Reader.Closes (Reader.armPattern limit) ls p) :
    Parted limit p ls := by
  cases h with
  | plain h hs => exact .of_over h.held hwhole hs
  | @enclosed front inside o c hfront ho h hc hs =>
    have hplain : Held limit [] front := (Row.of_plain (R := Parted limit) hfront).held
    exact .of_over (hplain.append (h.held.enclosed ho hc)) hwhole hs
  | @parenthesised ls o c ho h hc =>
    refine ⟨h.toHeld.enclosed ho hc, hwhole, ?_⟩
    obtain ⟨opens, part, closes, rfl, hopens, hcloses, hpart⟩ := h.inner
    refine ⟨o :: opens, part, closes ++ [c], by simp, List.forall_mem_cons.2 ⟨ho, hopens⟩, ?_, hpart⟩
    exact List.forall_mem_append.2 ⟨hcloses, List.forall_mem_singleton.2 hc⟩

theorem Full.parted [Letters] (h : Full (Parted limit) p ls) (hord : Orderly ls)
    (hwhole : Reader.Closes (Reader.armPattern limit) ls p) : Parted limit p ls := by
  cases h with
  | single h => exact h
  | @alternatives p q ps a mid b hp h hq =>
    have hheld : Held limit ([p] ++ (ps ++ [q])) (a ++ (mid ++ b)) :=
      hp.held.append (h.held.append hq.held)
    refine ⟨hheld, hwhole, ?_⟩
    obtain ⟨opens, first, behind, rfl, hopens, -, hfirst⟩ := hp.inner
    obtain ⟨before, last, closes, rfl, -, hcloses, hlast⟩ := hq.inner
    have hsplit : opens ++ (first ++ behind) ++ (mid ++ (before ++ (last ++ closes))) =
        opens ++ ((first ++ behind ++ (mid ++ (before ++ last))) ++ closes) := by simp
    rw [hsplit] at hord
    refine ⟨opens, first ++ behind ++ (mid ++ (before ++ last)), closes, hsplit, hopens, hcloses, ?_, ?_⟩
    · refine hfirst.place.join hlast.place hord.right.left ?_ ?_
      · exact ⟨behind ++ (mid ++ (before ++ last)), by simp⟩
      · exact ⟨first ++ behind ++ (mid ++ before), by simp⟩
    · intro hpaired
      -- What answers an opening parenthesis that is left out comes before the first bar.
      obtain rfl : opens = [] := hp.paired.opens_eq_nil hopens hpaired
      have hall := hheld.paired
      rw [hsplit] at hall
      obtain rfl : closes = [] := Lexeme.Paired.closes_eq_nil hall hcloses hpaired
      rw [hsplit, List.append_nil] at hwhole
      exact hwhole

theorem Arm.parted [Letters] (h : Arm (Parted limit) p ls) (hord : Orderly ls)
    (hwhole : Reader.Closes (Reader.armPattern limit) ls p) : Parted limit p ls := by
  cases h with
  | bare h => exact h
  | @destructured p ps a inside w o c hp hw hbrackets h =>
    have hlist : Held limit ps (o :: (inside ++ [c])) := by
      rcases hbrackets with ⟨ho, hc⟩ | ⟨ho, hc⟩
      · exact h.held.enclosed ho hc
      · have hrow : Row (Parted limit) ps (o :: (inside ++ [c])) := .plain ho (h.concat hc)
        exact hrow.held
    refine ⟨hp.held.append ((Held.of_plain hw).append hlist), hwhole, ?_⟩
    obtain ⟨opens, base, behind, rfl, hopens, -, hbase⟩ := hp.inner
    have hsplit : opens ++ (base ++ behind) ++ w :: o :: (inside ++ [c]) =
        opens ++ ((base ++ behind ++ w :: o :: (inside ++ [c])) ++ []) := by simp
    rw [hsplit] at hord
    refine ⟨opens, base ++ behind ++ w :: o :: (inside ++ [c]), [], hsplit, hopens, nofun, ?_, ?_⟩
    · have hpart := hord.right.left
      have hfront : base ++ behind ++ [w, o] <+: base ++ behind ++ w :: o :: (inside ++ [c]) :=
        ⟨inside ++ [c], by simp⟩
      have hopening : (p.span.join o.span).Over (base ++ behind ++ [w, o]) := by
        obtain ⟨more, hmore⟩ := hfront
        rw [← hmore] at hpart
        exact hbase.place.join (Span.over_singleton o) hpart.left ⟨behind ++ [w, o], by simp⟩
          ⟨base ++ behind ++ [w], by simp⟩
      exact hopening.join (Span.over_singleton c) hpart hfront ⟨base ++ behind ++ w :: o :: inside, by simp⟩
    · intro hpaired
      obtain rfl : opens = [] := hp.paired.opens_eq_nil hopens hpaired
      rw [hsplit, List.append_nil] at hwhole
      exact hwhole

end Pattern

namespace Reader

variable {limit : Nat} {p : Pattern} {part : List Lexeme}

/-- A pattern that an atom is read as is read where alternatives may follow. -/
theorem Closes.alternatives {atom : Reader Pattern} (h : Closes atom part p) :
    Closes (alternatives atom) part p := by
  intro c stop last hc
  have hnone : many (alternative? atom) ⟨[c], stop, last.after part⟩ =
      .ok ([], ⟨[c], stop, last.after part⟩) := by
    unfold many manyFrom alternative?
    rw [bind_apply, bind_apply, eats_closing rfl hc]
    dsimp only
    rw [if_neg Bool.false_ne_true, bind_apply, eats_closing rfl hc]
    rfl
  unfold Reader.alternatives
  rw [bind_of_ok (h c stop last hc), bind_of_ok hnone]
  rfl

/-- It is read as the pattern of a match arm, too. -/
theorem Closes.arm (h : Closes (pattern limit) part p) : Closes (armPattern limit) part p := by
  intro c stop last hc
  unfold armPattern
  rw [bind_of_ok (h c stop last hc), bind_of_ok (eats_closing rfl hc _ _)]
  rfl

/-- A pattern that is read with less to go is read in a match arm. -/
theorem Closes.within {budget : Nat} (h : Closes (patternWithin limit budget) part p) (hle : budget ≤ limit) :
    Closes (armPattern limit) part p := by
  obtain ⟨more, rfl⟩ := Nat.exists_eq_add_of_le' hle
  exact (h.relax (patternWithin_relaxes _ _ more budget)).arm

/-- What a cut takes is related to its value as by `Takes`, and it can be read alone. -/
theorem Takes.cut [Letters] {α : Type} {r : Reader α} {R S : α → List Lexeme → Prop} (h : Takes r R)
    (hcuts : Cuts (fun _ (_ : Unit) => False) (fun _ => False) r noPart)
    (hS : ∀ x ls, Orderly ls → Closes r ls x → R x ls → S x ls) : Takes r S := by
  intro feed x rest hord hx
  obtain ⟨used, hls, hr⟩ := h feed x rest hord hx
  obtain ⟨used', hcut, -⟩ := hcuts feed hord x rest hx
  obtain rfl : used = used' := List.append_cancel_right (hls.symm.trans hcut.split)
  rw [hls] at hord
  exact ⟨used, hls, hS x used hord.left hcut.closes hr⟩

theorem patternWithin_parted [Letters] {budget : Nat} (hle : budget ≤ limit) :
    Takes (patternWithin limit budget) (Pattern.Parted limit) := by
  induction budget with
  | zero => exact fun _ _ _ _ h => (tooDeep_ne_ok h).elim
  | succ budget ih =>
    have hatom : Takes (patternAtom (patternWithin limit budget)) (Pattern.Parted limit) := by
      refine (patternAtom_takes (ih (Nat.le_of_succ_le hle))).cut
        (patternAtom_cuts (patternWithin_cuts limit budget)) fun p ls _ hcloses h => h.parted ?_
      have hfull : Closes (patternWithin limit (budget + 1)) ls p := hcloses.alternatives
      exact hfull.within hle
    refine (alternatives_takes hatom).cut (patternWithin_cuts limit (budget + 1)) fun p ls hord hcloses h => ?_
    have hfull : Closes (patternWithin limit (budget + 1)) ls p := hcloses
    exact h.parted hord (hfull.within hle)

theorem pattern_parted [Letters] (limit : Nat) : Takes (pattern limit) (Pattern.Parted limit) :=
  patternWithin_parted (Nat.le_refl limit)

theorem armPattern_parted [Letters] (limit : Nat) : Takes (armPattern limit) (Pattern.Parted limit) :=
  (armPattern_takes (pattern_parted limit)).cut (armPattern_cuts limit) fun _ _ hord hcloses h =>
    h.parted hord hcloses

/-- A cut whose parts are known from what is taken. -/
theorem Takes.cuts [Letters] {α ε : Type} {r : Reader α} {R : α → List Lexeme → Prop} {A : List Lexeme → ε → Prop}
    {given : ε → Prop} {f : α → ε → Prop} (h : Takes r R)
    (hcuts : Cuts (fun _ (_ : Unit) => False) (fun _ => False) r noPart)
    (hR : ∀ x ls, R x ls → ∀ y, f x y → Stands A ls y) : Cuts A given r f := by
  intro feed hord x rest hx
  obtain ⟨used, hls, hr⟩ := h feed x rest hord hx
  obtain ⟨used', hcut, -⟩ := hcuts feed hord x rest hx
  obtain rfl : used = used' := List.append_cancel_right (hls.symm.trans hcut.split)
  exact ⟨used, hcut, fun y hy => .inr (hR x used hr y hy)⟩

/-- Statements are cuts, and their patterns can be read alone if parentheses allow it. -/
theorem patterns_cuts [Letters] (limit : Nat) : Cuts (Pattern.Rereads limit) (fun _ => False) (stmt limit)
    fun t y => stmtPart noPart Pattern.HasPart t.kind y := by
  have hexpr : Cuts (Pattern.Rereads limit) (fun _ => False) (expr limit) noPart := by
    intro feed hord x rest hx
    obtain ⟨used, hcut, -⟩ := expr_cuts limit feed hord x rest hx
    exact ⟨used, hcut, fun _ h => h.elim⟩
  refine stmt_cuts hexpr ?_ ?_
  · exact (pattern_parted limit).cuts (pattern_cuts limit) fun _ _ h _ hq => h.stands hq
  · exact (armPattern_parted limit).cuts (armPattern_cuts limit) fun _ _ h _ hq => h.stands hq

end Reader

end Stencil
