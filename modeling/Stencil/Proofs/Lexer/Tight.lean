/-
  Tight — no lexeme begins or ends with a blank.

  The scanner leaves blanks to lexemes of their own.  A word, a sign or a number has no blank in it at
  all; a literal may have some, but it begins and ends with its quote.  Delimiters may be any texts; the
  standard ones have no blanks in them.
-/
import Stencil.Proofs.Lexer.Respell

namespace Stencil

/-- Neither the first nor the last character of the text is a blank. -/
structure Tight (cs : List Char) : Prop where
  head : ∀ c ∈ cs.head?, isBlank c = false
  last : ∀ c ∈ cs.getLast?, isBlank c = false

namespace Tight

variable {cs : List Char}

theorem of_forall (h : ∀ c ∈ cs, isBlank c = false) : Tight cs :=
  ⟨fun c hc => h c (List.mem_of_mem_head? hc), fun c hc => h c (List.mem_of_mem_getLast? hc)⟩

theorem of_all (h : (cs.all fun c => !isBlank c) = true) : Tight cs :=
  of_forall fun c hc => Bool.not_eq_true' _ ▸ List.all_eq_true.1 h c hc

/-- A literal is held between its quotes. -/
theorem quoted {quote : Char} (h : isBlank quote = false) (body : List Char) :
    Tight (quote :: body ++ [quote]) := by
  refine ⟨fun c hc => ?_, fun c hc => ?_⟩
  · cases hc
    exact h
  · rw [List.getLast?_concat] at hc
    cases hc
    exact h

theorem append {ds : List Char} (hcs : Tight cs) (hds : Tight ds) : Tight (cs ++ ds) := by
  constructor
  · intro c hc
    rw [List.head?_append, Option.mem_def, Option.or_eq_some_iff] at hc
    rcases hc with hc | ⟨-, hc⟩
    · exact hcs.head c hc
    · exact hds.head c hc
  · intro c hc
    rw [List.getLast?_append, Option.mem_def, Option.or_eq_some_iff] at hc
    rcases hc with hc | ⟨-, hc⟩
    · exact hds.last c hc
    · exact hcs.last c hc

end Tight

/-- No delimiter of a tag begins or ends with a blank. -/
def Delims.Tight (d : Delims) : Prop :=
  ∀ kind pair, d.pair (.tag kind) = some pair →
    Stencil.Tight pair.opening.text ∧ Stencil.Tight pair.closing.text

theorem Delims.standard_tight : Delims.standard.Tight := by
  intro kind pair hpair
  cases kind <;> cases hpair <;> exact ⟨.of_all (by decide), .of_all (by decide)⟩

/-! ## Characters of lexemes -/

theorem isBlank_of_isAlphanum {c : Char} (h : c.isAlphanum = true) : isBlank c = false := by
  rw [Bool.eq_false_iff]
  intro hblank
  have := isAlphanum_of_isBlank hblank
  rw [h] at this
  cases this

theorem isBlank_of_isWord [Letters] {cs : List Char} (h : isWord cs = true) : ∀ c ∈ cs, isBlank c = false := by
  cases cs with
  | nil => cases h
  | cons c cs =>
    obtain ⟨hstart, hparts⟩ := Bool.and_eq_true _ _ ▸ h
    intro x hx
    rcases List.mem_cons.1 hx with rfl | hmem
    · exact isBlank_of_isIdentStart hstart
    · exact isBlank_of_isIdentPart (List.all_eq_true.1 hparts x hmem)

theorem isBlank_of_isPlainWord [Letters] {cs : List Char} (h : isPlainWord (String.ofList cs) = true) :
    ∀ c ∈ cs, isBlank c = false := by
  rw [isPlainWord, Bool.and_eq_true, String.toList_ofList] at h
  exact isBlank_of_isWord h.1

theorem isBlank_of_isDigitOrBar {c : Char} (h : Numeral.isDigitOrBar c = true) : isBlank c = false := by
  rw [Numeral.isDigitOrBar, Bool.or_eq_true, beq_iff_eq] at h
  rcases h with hdigit | rfl
  · exact isBlank_of_isDigit hdigit
  · decide

/-- The characters that a number is made of. -/
theorem Numeral.mem_take_extent (decimal plain : Bool) (cs : List Char) :
    ∀ c ∈ cs.take (extent decimal plain cs),
      isDigitOrBar c = true ∨ c.isAlphanum = true ∨ c ∈ ['.', '+', '-'] := by
  fun_induction extent decimal plain cs with
  | case1 => exact List.forall_mem_nil _
  | case2 plain c cs hbar ih => exact List.forall_mem_cons.2 ⟨.inl hbar, ih⟩
  | case3 plain c cs hbar hpoint ih =>
    simp only [Bool.and_eq_true, beq_iff_eq] at hpoint
    exact List.forall_mem_cons.2 ⟨.inr (.inr (by rw [hpoint.1.1.1]; decide)), ih⟩
  | case4 plain c hbar hpoint hexp => simp only [startsSigned, Bool.and_false, Bool.false_eq_true] at hexp
  | case5 plain c hbar s rest hpoint hexp ih =>
    simp only [Bool.and_eq_true, Bool.or_eq_true, beq_iff_eq] at hexp
    obtain ⟨⟨hletter, -⟩, hsigned⟩ := hexp
    rw [startsSigned_cons, Bool.and_eq_true, Bool.or_eq_true, beq_iff_eq, beq_iff_eq] at hsigned
    refine List.forall_mem_cons.2 ⟨.inr (.inl ?_), List.forall_mem_cons.2 ⟨.inr (.inr ?_), ih⟩⟩
    · rcases hletter with rfl | rfl <;> decide
    · rcases hsigned.1 with rfl | rfl <;> decide
  | case6 plain c cs hbar hpoint hexp halnum ih => exact List.forall_mem_cons.2 ⟨.inr (.inl halnum), ih⟩
  | case7 plain c cs hbar hpoint hexp halnum => exact List.forall_mem_nil _

/-- No number has a blank in it. -/
theorem isBlank_of_isNumeral {cs : List Char} (h : isNumeral cs = true) :
    ∀ c ∈ cs, isBlank c = false := by
  cases cs with
  | nil => cases h
  | cons c cs =>
    rw [isNumeral, Bool.and_eq_true, Bool.and_eq_true, beq_iff_eq] at h
    obtain ⟨⟨hdigit, hmore⟩, -⟩ := h
    have htake : cs.take (Numeral.more c cs) = cs := by rw [hmore, List.take_length]
    refine List.forall_mem_cons.2 ⟨isBlank_of_isDigit hdigit, fun x hx => ?_⟩
    rw [← htake] at hx
    rcases Numeral.mem_take_extent _ _ _ x hx with hbar | halnum | hsign
    · exact isBlank_of_isDigitOrBar hbar
    · exact isBlank_of_isAlphanum halnum
    · have hall : (['.', '+', '-'].all fun c => !isBlank c) = true := by decide
      exact Bool.not_eq_true' _ ▸ List.all_eq_true.1 hall x hsign

/-- No spelling of a token other than a blank begins or ends with a blank. -/
theorem Token.Spells.tight [Letters] {t : Token} {cs : List Char} (h : t.Spells cs) (hblank : t ≠ .blank) :
    Tight cs := by
  cases t with
  | ident => exact .of_forall (isBlank_of_isPlainWord h)
  | macroName =>
    obtain ⟨name, rfl, hname⟩ := h
    refine .of_forall fun c hc => ?_
    rcases List.mem_append.1 hc with hmem | hmark
    · exact isBlank_of_isPlainWord hname c hmem
    · rw [List.mem_singleton.1 hmark]
      decide
  | keyword k =>
    cases h
    exact .of_forall (isBlank_of_isWord k.isWord_text)
  | number => exact .of_forall (isBlank_of_isNumeral h)
  | str =>
    obtain ⟨value, body, rfl, -⟩ := h
    exact .quoted (by decide) body
  | char =>
    obtain ⟨value, body, rfl, -⟩ := h
    exact .quoted (by decide) body
  | blank => exact absurd rfl hblank
  | content | comment | rawText | beginExpr | beginBlock | endExpr | endBlock => cases h
  | _ =>
    have hsign := Option.some.inj h
    subst hsign
    exact .of_all (by decide)

end Stencil
