/-
  NumberExtent — the extent of a number against what a number is.

  `Numeral.more` tells how far a number goes and `Numeral.split?` whether a text is a number; neither
  asks the other.  A text that is a number should be taken as a whole.  It is if it consists of letters,
  digits and bars (`extent_row`), and a fraction is taken too, since a digit follows the point.  That
  leaves the sign of an exponent, the only other character of a number.  It is taken if a digit follows
  it, but a number may have a bar there: `1e+_5` is a number, and only `1e` of it is taken
  (`taken_of_split?`).
-/
import Stencil.Proofs.Lexer.Respell

namespace Stencil.Numeral

/-- Whether a bar stands directly after a sign. -/
def barAfterSign : List Char → Bool
  | s :: c :: cs => (s == '+' || s == '-') && c == '_' || barAfterSign (c :: cs)
  | _ => false

/-- A letter, a digit or a bar. -/
def isRowChar (c : Char) : Bool := c == '_' || c.isAlphanum

/-- Whether the character marks an exponent. -/
def isMark (c : Char) : Bool := c == 'e' || c == 'E'

/-! ## Characters -/

theorem isRowChar_of_isDigitOrBar {c : Char} (h : isDigitOrBar c = true) : isRowChar c = true := by
  rw [isDigitOrBar, Bool.or_eq_true] at h
  rw [isRowChar, Char.isAlphanum]
  rcases h with hdigit | hbar
  · rw [hdigit, Bool.or_true, Bool.or_true]
  · rw [hbar, Bool.true_or]

theorem isRowChar_of_isHexDigit {c : Char} (h : (isHexDigit c || c == '_') = true) :
    isRowChar c = true := by
  have halpha : 'A' ≤ c ∧ c ≤ 'Z' ∨ 'a' ≤ c ∧ c ≤ 'z' → c.isAlpha = true := by
    intro hcases
    show (decide ('A'.val ≤ c.val ∧ c.val ≤ 'Z'.val) ||
      decide ('a'.val ≤ c.val) && decide (c.val ≤ 'z'.val)) = true
    rw [Bool.or_eq_true, Bool.and_eq_true, decide_eq_true_eq, decide_eq_true_eq, decide_eq_true_eq]
    exact hcases
  simp only [isHexDigit, Bool.or_eq_true, Bool.and_eq_true, decide_eq_true_eq] at h
  rw [isRowChar, Char.isAlphanum, Bool.or_eq_true, Bool.or_eq_true]
  rcases h with ((hdigit | ⟨ha, hf⟩) | ⟨ha, hf⟩) | hbar
  · exact .inr (.inr hdigit)
  · exact .inr (.inl (halpha (.inr ⟨ha, Nat.le_trans hf (by decide)⟩)))
  · exact .inr (.inl (halpha (.inl ⟨ha, Nat.le_trans hf (by decide)⟩)))
  · exact .inl hbar

theorem ne_of_isRowChar {c x : Char} (h : isRowChar c = true) (hx : isRowChar x = false) : c ≠ x := by
  rintro rfl
  rw [h] at hx
  cases hx

/-- No sign begins a text of letters, digits and bars. -/
theorem startsSigned_row {cs : List Char} (h : cs.all isRowChar = true) : startsSigned cs = false := by
  cases cs with
  | nil => rfl
  | cons c cs =>
    rw [List.all_cons, Bool.and_eq_true] at h
    rw [startsSigned_cons, beq_false_of_ne (ne_of_isRowChar h.1 (by decide)),
      beq_false_of_ne (ne_of_isRowChar h.1 (by decide))]
    rfl

/-- A bar after a sign is not moved by what stands before, if there is no sign in it. -/
theorem barAfterSign_append {front : List Char} (h : ∀ c ∈ front, c ≠ '+' ∧ c ≠ '-')
    (rest : List Char) : barAfterSign (front ++ rest) = barAfterSign rest := by
  induction front with
  | nil => rfl
  | cons c front ih =>
    obtain ⟨⟨hplus, hminus⟩, hfront⟩ := List.forall_mem_cons.1 h
    rw [← ih hfront, List.cons_append]
    cases front ++ rest with
    | nil => rfl
    | cons d more =>
      rw [barAfterSign, beq_false_of_ne hplus, beq_false_of_ne hminus]
      rfl

theorem eq_of_isMark {e : Char} (h : isMark e = true) : e = 'e' ∨ e = 'E' :=
  (Bool.or_eq_true_iff.1 h).imp eq_of_beq eq_of_beq

theorem not_sign_of_isRowChar {c : Char} (h : isRowChar c = true) : c ≠ '+' ∧ c ≠ '-' :=
  ⟨ne_of_isRowChar h (by decide), ne_of_isRowChar h (by decide)⟩

theorem barAfterSign_row {cs : List Char} (h : cs.all isRowChar = true) : barAfterSign cs = false := by
  have happend := barAfterSign_append (fun c hc => not_sign_of_isRowChar (List.all_eq_true.1 h c hc)) []
  rwa [List.append_nil] at happend

/-! ## The parts of a number -/

theorem isRowChar_of_isIntSuffix {cs : List Char} (h : isIntSuffix cs = true) :
    cs.all isRowChar = true := by
  have hall : intSuffixes.all (fun s => s.toList.all isRowChar) = true := by decide
  obtain ⟨s, hs, heq⟩ := List.any_eq_true.1 h
  rw [← eq_of_beq heq]
  exact List.all_eq_true.1 hall s hs

theorem isRowChar_of_isFloatSuffix {cs : List Char} (h : isFloatSuffix cs = true) :
    cs.all isRowChar = true := by
  rw [isFloatSuffix, Bool.or_eq_true] at h
  rcases h with h | h
  · rw [eq_of_beq h]; decide
  · rw [eq_of_beq h]; decide

/-- A fraction is a point, a digit and a row of digits and bars. -/
theorem fraction?_cases {cs rest : List Char} {b : Bool} (h : fraction? cs = some (b, rest)) :
    (b = false ∧ rest = cs) ∨
      ∃ d row, cs = '.' :: d :: (row ++ rest) ∧ b = true ∧ d.isDigit = true ∧
        row.all isDigitOrBar = true := by
  unfold fraction? at h
  split at h
  · next digits =>
    split at h
    · next hstart =>
      cases digits with
      | nil => cases hstart
      | cons d more =>
        have hd : isDigitOrBar d = true := isDigitOrBar_of_isDigit hstart
        rw [List.dropWhile_cons_of_pos hd] at h
        cases h
        exact .inr ⟨d, more.takeWhile isDigitOrBar, by rw [List.takeWhile_append_dropWhile], rfl,
          hstart, List.all_takeWhile⟩
    · cases h
  · cases h
    exact .inl ⟨rfl, rfl⟩

/-- An exponent is a mark, perhaps a sign, and a row of digits and bars.  Without a sign, what is left of
    the number are letters, digits and bars. -/
theorem exponent?_cases {cs suffix : List Char} {b : Bool} (h : exponent? cs = some (b, suffix))
    (hsuffix : suffix.all isRowChar = true) :
    cs.all isRowChar = true ∨
      ∃ e s d back, cs = e :: s :: d :: back ∧ isMark e = true ∧ (s = '+' ∨ s = '-') ∧
        isDigitOrBar d = true ∧ back.all isRowChar = true := by
  cases cs with
  | nil => exact .inl rfl
  | cons e exponent =>
    unfold exponent? at h
    dsimp only at h
    split at h
    · next hmark =>
      split at h
      · next hdigits =>
        cases h
        have hrow : (dropSign exponent).all isRowChar = true := by
          rw [← List.takeWhile_append_dropWhile (p := isDigitOrBar) (l := dropSign exponent),
            List.all_append, hsuffix, Bool.and_true]
          refine List.all_eq_true.2 fun c hc => isRowChar_of_isDigitOrBar ?_
          exact List.all_eq_true.1 List.all_takeWhile c hc
        -- The row is not empty, so it begins with a digit or a bar.
        have hsigned : ∀ (s : Char) (row : List Char), exponent = s :: row → (s = '+' ∨ s = '-') →
            ∃ e' s d back, e :: exponent = e' :: s :: d :: back ∧ isMark e' = true ∧
              (s = '+' ∨ s = '-') ∧ isDigitOrBar d = true ∧ back.all isRowChar = true := by
          rintro s row rfl hs
          have hdrop : dropSign (s :: row) = row := by rcases hs with rfl | rfl <;> rfl
          rw [hdrop] at hrow hdigits
          cases row with
          | nil => cases hdigits
          | cons d back =>
            rw [List.all_cons, Bool.and_eq_true] at hrow
            refine ⟨e, s, d, back, rfl, hmark, hs, ?_, hrow.2⟩
            by_contra hd
            rw [List.takeWhile_cons_of_neg hd] at hdigits
            cases hdigits
        cases exponent with
        | nil => cases hdigits
        | cons s row =>
          by_cases hs : s = '+' ∨ s = '-'
          · exact .inr (hsigned s row rfl hs)
          · have hdrop : dropSign (s :: row) = s :: row := by
              unfold dropSign
              split
              · next heq => cases heq; exact absurd (.inl rfl) hs
              · next heq => cases heq; exact absurd (.inr rfl) hs
              · rfl
            rw [hdrop] at hrow
            refine .inl ?_
            rw [List.all_cons, hrow, Bool.and_true]
            rcases eq_of_isMark hmark with rfl | rfl <;> decide
      · cases h
    · cases h
      exact .inl hsuffix

/-! ## What is taken of the parts -/

variable {decimal plain : Bool}

/-- A row of digits and bars is taken, and the number goes on after it. -/
theorem extent_digitsOrBars {row : List Char} (h : row.all isDigitOrBar = true) (rest : List Char) :
    extent decimal plain (row ++ rest) = row.length + extent decimal plain rest := by
  induction row with
  | nil => rw [List.nil_append, List.length_nil, Nat.zero_add]
  | cons c row ih =>
    rw [List.all_cons, Bool.and_eq_true] at h
    rw [List.cons_append, extent_cons, if_pos h.1, ih h.2, List.length_cons]
    omega

/-- Letters, digits and bars are taken as a whole. -/
theorem extent_row {cs : List Char} (h : cs.all isRowChar = true) :
    extent decimal plain cs = cs.length := by
  induction cs generalizing plain with
  | nil => rfl
  | cons c cs ih =>
    rw [List.all_cons, Bool.and_eq_true] at h
    have hpoint : ¬ (c == '.' && decimal && plain && startsDigit cs) = true := by
      rw [beq_false_of_ne (ne_of_isRowChar h.1 (by decide))]
      exact Bool.false_ne_true
    have hexp : ¬ ((c == 'e' || c == 'E') && decimal && startsSigned cs) = true := by
      rw [startsSigned_row h.2, Bool.and_false]
      exact Bool.false_ne_true
    rw [extent_cons, if_neg hpoint, if_neg hexp, ih h.2, ih h.2, List.length_cons]
    split
    · rfl
    · next hbar =>
      have halnum : c.isAlphanum = true := by
        have hc := h.1
        rw [isRowChar, Bool.or_eq_true] at hc
        rcases hc with hunder | halnum
        · rw [isDigitOrBar, hunder, Bool.or_true] at hbar
          exact absurd rfl hbar
        · exact halnum
      rw [if_pos halnum]

/-- A signed exponent is taken as a whole if a digit follows the sign, and only its mark if a bar
    does. -/
theorem extent_signed {e s d : Char} {back : List Char} (he : isMark e = true) (hs : s = '+' ∨ s = '-')
    (hd : isDigitOrBar d = true) (hback : back.all isRowChar = true) :
    extent true plain (e :: s :: d :: back) = if d = '_' then 1 else (e :: s :: d :: back).length := by
  have hbar : ¬ isDigitOrBar e = true := by rcases eq_of_isMark he with rfl | rfl <;> decide
  have hpoint : ¬ (e == '.' && true && plain && startsDigit (s :: d :: back)) = true := by
    rcases eq_of_isMark he with rfl | rfl <;> exact Bool.false_ne_true
  have hsigned : startsSigned (s :: d :: back) = d.isDigit := by
    rcases hs with rfl | rfl <;> exact Bool.true_and _
  have halnum : e.isAlphanum = true := by rcases eq_of_isMark he with rfl | rfl <;> decide
  have hmark : (e == 'e' || e == 'E') = true := he
  rw [extent_cons, if_neg hbar, if_neg hpoint, hsigned, hmark, if_pos halnum]
  by_cases hdigit : d.isDigit = true
  · have hne : d ≠ '_' := by rintro rfl; revert hdigit; decide
    have hrow : (d :: back).all isRowChar = true := by
      rw [List.all_cons, isRowChar_of_isDigitOrBar hd, hback]
      rfl
    rw [if_neg hne, hdigit, if_pos (show (true && true && true) = true from rfl), List.drop_one,
      List.tail_cons, extent_row hrow]
    rfl
  · -- The sign is no part of a row, so the number ends there.
    have hunder : d = '_' := by
      rw [isDigitOrBar, Bool.or_eq_true] at hd
      exact eq_of_beq (hd.resolve_left hdigit)
    have hstop : extent true false (s :: d :: back) = 0 := by
      rw [extent_cons]
      rcases hs with rfl | rfl <;> rfl
    rw [if_pos hunder, Bool.eq_false_iff.2 hdigit, Bool.and_false, if_neg Bool.false_ne_true, hstop]

/-! ## Numbers -/

/-- A digit, a bar or a point. -/
def isLeadChar (c : Char) : Bool := isDigitOrBar c || c == '.'

theorem isLeadChar_of_row {row : List Char} (h : row.all isDigitOrBar = true) :
    row.all isLeadChar = true := by
  refine List.all_eq_true.2 fun x hx => ?_
  rw [isLeadChar, List.all_eq_true.1 h x hx]
  rfl

theorem dropWhile_row {row rest : List Char} (h : row.all isDigitOrBar = true)
    (hrest : ∀ x ∈ rest.head?, isDigitOrBar x = false) :
    (row ++ rest).dropWhile isDigitOrBar = rest := by
  rw [List.dropWhile_append_of_pos (List.all_eq_true.1 h)]
  cases rest with
  | nil => rfl
  | cons x rest => exact List.dropWhile_cons_of_neg (Bool.eq_false_iff.1 (hrest x rfl))

/-- The mark of an exponent belongs to no row of digits and bars. -/
theorem head_mark {e : Char} (he : isMark e = true) : ∀ x ∈ [e].head?, isDigitOrBar x = false := by
  intro x hx
  cases hx
  rcases eq_of_isMark he with rfl | rfl <;> decide

/-- Digits, perhaps with a fraction, are no number if the mark of an exponent follows and nothing
    behind it. -/
theorem splitDecimal?_mark {c e : Char} {row rest : List Char} {b : Bool} (hc : c.isDigit = true)
    (he : isMark e = true) (hrow : row.all isDigitOrBar = true)
    (hrest : ∀ x ∈ rest.head?, isDigitOrBar x = false) (hfraction : fraction? rest = some (b, [e])) :
    splitDecimal? (c :: (row ++ rest)) = none := by
  have hmark : (e == 'e' || e == 'E') = true := he
  have hexponent : exponent? [e] = none := by
    unfold exponent?
    dsimp only
    rw [if_pos hmark]
    rfl
  rw [splitDecimal?, List.dropWhile_cons_of_pos (isDigitOrBar_of_isDigit hc), dropWhile_row hrow hrest,
    hfraction]
  show (exponent? [e]).bind _ = none
  rw [hexponent]
  rfl

/-- The digits and the fraction of a number are taken, and the number goes on after them.  The mark of an
    exponent does not make a number of them. -/
theorem lead_of_fraction? {c : Char} {cs rest : List Char} {b : Bool} (hc : c.isDigit = true)
    (h : fraction? ((c :: cs).dropWhile isDigitOrBar) = some (b, rest)) :
    ∃ lead, cs = lead ++ rest ∧ lead.all isLeadChar = true ∧
      extent true true cs = lead.length + extent true (!b) rest ∧
      ∀ e, isMark e = true → splitDecimal? (c :: (lead ++ [e])) = none := by
  rw [List.dropWhile_cons_of_pos (isDigitOrBar_of_isDigit hc)] at h
  obtain ⟨row, after, rfl, hrow, hafter⟩ : ∃ row after, cs = row ++ after ∧
      row.all isDigitOrBar = true ∧ cs.dropWhile isDigitOrBar = after :=
    ⟨_, _, List.takeWhile_append_dropWhile.symm, List.all_takeWhile, rfl⟩
  rw [hafter] at h
  rcases fraction?_cases h with ⟨rfl, rfl⟩ | ⟨d, digits, rfl, rfl, hd, hdigits⟩
  · -- No fraction: the row is all there is.
    refine ⟨row, rfl, isLeadChar_of_row hrow, extent_digitsOrBars hrow _, fun e he => ?_⟩
    have hfraction : fraction? [e] = some (false, [e]) := by
      rcases eq_of_isMark he with rfl | rfl <;> rfl
    exact splitDecimal?_mark hc he hrow (head_mark he) hfraction
  · -- A point and a second row, which a digit begins.
    have hall : (d :: digits).all isDigitOrBar = true := by
      rw [List.all_cons, isDigitOrBar_of_isDigit hd, hdigits]
      rfl
    refine ⟨row ++ '.' :: d :: digits, by simp, ?_, ?_, fun e he => ?_⟩
    · rw [List.all_append, isLeadChar_of_row hrow, List.all_cons, isLeadChar_of_row hall]
      rfl
    · have hpoint : ('.' == '.' && true && true && startsDigit (d :: (digits ++ rest))) = true := hd
      have htaken : extent true false (d :: (digits ++ rest)) =
          (d :: digits).length + extent true false rest := extent_digitsOrBars hall rest
      rw [extent_digitsOrBars hrow, extent_cons, if_neg (by decide), if_pos hpoint, htaken]
      simp only [List.length_append, List.length_cons, Bool.not_true]
      omega
    · have hfraction : fraction? ('.' :: (d :: digits ++ [e])) = some (true, [e]) := by
        have hstart : startsDigit (d :: digits ++ [e]) = true := hd
        rw [fraction?, if_pos hstart, dropWhile_row hall (head_mark he)]
      have htext : row ++ '.' :: d :: digits ++ [e] = row ++ '.' :: (d :: digits ++ [e]) := by simp
      rw [htext]
      exact splitDecimal?_mark hc he hrow (fun x hx => by cases hx; decide) hfraction

/-- What is left of a decimal number after its exponent are letters and digits. -/
theorem isRowChar_suffix {left suffix : List Char} {k kind : NumberKind}
    (h : (if left.isEmpty then some (k, [])
      else if isFloatSuffix left then some (.float, left)
      else if k == .int && isIntSuffix left then some (.int, left)
      else none) = some (kind, suffix)) : left.all isRowChar = true := by
  split at h
  · next hempty => rw [List.isEmpty_iff.1 hempty]; rfl
  · split at h
    · next hfloat => exact isRowChar_of_isFloatSuffix hfloat
    · split at h
      · next hint => exact isRowChar_of_isIntSuffix (Bool.and_eq_true_iff.1 hint).2
      · cases h

/-- How many characters after the first digit `c` are taken of a number: all of them, or those up to the
    mark of an exponent whose sign a bar follows.  What is taken then is no number. -/
inductive Taken (c : Char) : List Char → Nat → Prop
  | whole {cs : List Char} (hbar : barAfterSign (c :: cs) = false) : Taken c cs cs.length
  | cut {lead back : List Char} {e s : Char} (hs : s = '+' ∨ s = '-')
      (hback : back.all isRowChar = true)
      (hbar : barAfterSign (c :: (lead ++ e :: s :: '_' :: back)) = true)
      (hnone : split? (c :: (lead ++ [e])) = none) :
      Taken c (lead ++ e :: s :: '_' :: back) (lead.length + 1)

theorem Taken.of_row {c : Char} {cs : List Char} (hc : c.isDigit = true) (h : cs.all isRowChar = true) :
    Taken c cs cs.length := by
  refine .whole (barAfterSign_row ?_)
  rw [List.all_cons, h, Bool.and_true]
  exact isRowChar_of_isDigitOrBar (isDigitOrBar_of_isDigit hc)

/-- A text whose second character does not mark a radix is a decimal number or none. -/
theorem split?_eq_splitDecimal? {c : Char} {cs : List Char} (hc : c.isDigit = true)
    (h : ∀ m ∈ cs.head?, c = '0' → m ∉ ['x', 'o', 'b']) : split? (c :: cs) = splitDecimal? (c :: cs) := by
  unfold split?
  split
  · next heq => cases heq; exact absurd (by decide) (h 'x' rfl rfl)
  · next heq => cases heq; exact absurd (by decide) (h 'o' rfl rfl)
  · next heq => cases heq; exact absurd (by decide) (h 'b' rfl rfl)
  · next heq => cases heq; exact if_pos hc
  · next heq => cases heq

theorem taken_of_splitDecimal? {c : Char} {cs suffix : List Char} {kind : NumberKind}
    (hc : c.isDigit = true) (h : splitDecimal? (c :: cs) = some (kind, suffix)) :
    Taken c cs (extent true true cs) := by
  obtain ⟨⟨hasFraction, rest⟩, hfraction, hafter⟩ := Option.bind_eq_some_iff.1 h
  obtain ⟨⟨hasExponent, left⟩, hexponent, hsuffix⟩ := Option.bind_eq_some_iff.1 hafter
  obtain ⟨lead, rfl, hlead, htaken, hnone⟩ := lead_of_fraction? hc hfraction
  have hsign : ∀ x, isLeadChar x = true → x ≠ '+' ∧ x ≠ '-' := by
    intro x hx
    constructor <;> rintro rfl <;> cases hx
  have hunsigned : ∀ x ∈ c :: lead, x ≠ '+' ∧ x ≠ '-' := by
    refine List.forall_mem_cons.2 ⟨hsign c ?_, fun x hx => hsign x (List.all_eq_true.1 hlead x hx)⟩
    rw [isLeadChar, isDigitOrBar_of_isDigit hc]
    rfl
  have hbar : barAfterSign (c :: (lead ++ rest)) = barAfterSign rest := barAfterSign_append hunsigned rest
  rcases exponent?_cases hexponent (isRowChar_suffix hsuffix) with
    hrow | ⟨e, s, d, back, rfl, he, hs, hd, hback⟩
  · rw [htaken, extent_row hrow, ← List.length_append]
    exact .whole (hbar.trans (barAfterSign_row hrow))
  · have hmark : e ≠ '+' ∧ e ≠ '-' ∧ e ∉ ['x', 'o', 'b'] := by
      rcases Bool.or_eq_true_iff.1 he with he | he <;> rw [eq_of_beq he] <;> decide
    have hrest : barAfterSign (e :: s :: d :: back) = (d == '_') := by
      have hrow : (d :: back).all isRowChar = true := by
        rw [List.all_cons, isRowChar_of_isDigitOrBar hd, hback]
        rfl
      rw [barAfterSign, barAfterSign, barAfterSign_row hrow, beq_false_of_ne hmark.1,
        beq_false_of_ne hmark.2.1]
      rcases hs with rfl | rfl <;> simp
    rw [htaken, extent_signed he hs hd hback]
    by_cases hunder : d = '_'
    · subst hunder
      rw [if_pos rfl]
      refine .cut hs hback (hbar.trans hrest) ?_
      rw [split?_eq_splitDecimal? hc, hnone e he]
      -- A radix mark is neither a digit, a bar or a point nor the mark of an exponent.
      intro m hm _ hradix
      cases lead with
      | nil => cases hm; exact hmark.2.2 hradix
      | cons x lead =>
        cases hm
        rw [List.all_cons, Bool.and_eq_true] at hlead
        have hradices : ['x', 'o', 'b'].all (!isLeadChar ·) = true := by decide
        have hnot := List.all_eq_true.1 hradices m hradix
        rw [hlead.1] at hnot
        cases hnot
    · rw [if_neg hunder, ← List.length_append]
      exact .whole (hbar.trans (hrest.trans (beq_false_of_ne hunder)))

/-- What stands behind a radix mark are letters, digits and bars. -/
theorem isRowChar_of_splitRadix? {inRow isDigit : Char → Bool} {cs suffix : List Char} {kind : NumberKind}
    (hrow : ∀ c, inRow c = true → isRowChar c = true)
    (h : splitRadix? inRow isDigit cs = some (kind, suffix)) : cs.all isRowChar = true := by
  unfold splitRadix? at h
  dsimp only at h
  split at h
  · next hvalid =>
    have hsuffix : (cs.dropWhile inRow).all isRowChar = true := by
      rw [Bool.and_eq_true, Bool.or_eq_true] at hvalid
      rcases hvalid.2 with hempty | hint
      · rw [List.isEmpty_iff.1 hempty]; rfl
      · exact isRowChar_of_isIntSuffix hint
    rw [← List.takeWhile_append_dropWhile (p := inRow) (l := cs), List.all_append, hsuffix, Bool.and_true]
    exact List.all_eq_true.2 fun c hc => hrow c (List.all_eq_true.1 List.all_takeWhile c hc)
  · cases h

/-- A number begins with a digit; it is taken as a whole, or up to the mark of an exponent whose sign a
    bar follows. -/
theorem taken_of_split? {c : Char} {cs suffix : List Char} {kind : NumberKind}
    (h : split? (c :: cs) = some (kind, suffix)) : c.isDigit = true ∧ Taken c cs (more c cs) := by
  have hradix : ∀ {m : Char} {ds : List Char}, isRowChar m = true → ds.all isRowChar = true →
      ('0' : Char).isDigit = true ∧ Taken '0' (m :: ds) (more '0' (m :: ds)) := by
    intro m ds hm hds
    have hall : (m :: ds).all isRowChar = true := by rw [List.all_cons, hm, hds]; rfl
    have hmore : more '0' (m :: ds) = (m :: ds).length := extent_row hall
    rw [hmore]
    exact ⟨rfl, .of_row rfl hall⟩
  have hhex : ∀ x, (isHexDigit x || x == '_') = true → isRowChar x = true := fun x hx =>
    isRowChar_of_isHexDigit hx
  unfold split? at h
  split at h
  · next heq => cases heq; exact hradix (by decide) (isRowChar_of_splitRadix? hhex h)
  · next heq =>
    cases heq
    exact hradix (by decide) (isRowChar_of_splitRadix? (fun _ => isRowChar_of_isDigitOrBar) h)
  · next heq =>
    cases heq
    exact hradix (by decide) (isRowChar_of_splitRadix? (fun _ => isRowChar_of_isDigitOrBar) h)
  · next hx ho hb heq =>
    cases heq
    split at h
    · next hc =>
      refine ⟨hc, ?_⟩
      have hmarked : (c == '0' && (cs.head? == some 'x' || cs.head? == some 'o'
          || cs.head? == some 'b')) = false := by
        rw [Bool.eq_false_iff]
        intro hall
        simp only [Bool.and_eq_true, Bool.or_eq_true, beq_iff_eq] at hall
        obtain ⟨rfl, (hhead | hhead) | hhead⟩ := hall
        · obtain ⟨ds, rfl⟩ := List.head?_eq_some_iff.1 hhead; exact hx ds rfl rfl
        · obtain ⟨ds, rfl⟩ := List.head?_eq_some_iff.1 hhead; exact ho ds rfl rfl
        · obtain ⟨ds, rfl⟩ := List.head?_eq_some_iff.1 hhead; exact hb ds rfl rfl
      have hmore : more c cs = extent true true cs := by
        unfold more
        rw [hmarked]
        rfl
      rw [hmore]
      exact taken_of_splitDecimal? hc h
    · cases h
  · cases h

end Stencil.Numeral
