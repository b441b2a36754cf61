/-
  StaysOpen — no lexeme hides a delimiter.

  Inside a tag the scanner takes as much as it can: operators of up to three characters, numbers with a
  sign in the exponent, names with the mark of a macro, all the blanks in a row.  The delimiters are made
  of the same characters, so it has to be shown that none of them begins inside of what is taken.  Only a
  literal between quotes may hold one.  A literal that is not closed on its line is cut short where the
  tag is closed, so it holds no closing delimiter either (`read_quote`).  The other lexemes have no
  character of a delimiter behind their first one, but for the sign of an exponent, and a digit follows
  that (`read_plain`).

  So a tag ends at the first closing delimiter outside of the literals, unless an opening delimiter or
  the end of the source comes first.  `StaysOpen kind used tail` says what stands between, without
  mention of lexemes: other characters at which no delimiter begins, literals, and the rest of the line
  behind a quote that begins no literal.
-/
import Stencil.Proofs.Lexer.Quote
import Stencil.Proofs.Lexer.Respell

namespace Stencil

/-! ## Literals -/

/-- The quotes that a literal may begin with. -/
def IsQuote (c : Char) : Prop := c = '\x22' ∨ c = '\x27'

instance (c : Char) : Decidable (IsQuote c) := inferInstanceAs (Decidable (_ ∨ _))

/-- A character that ends a line. -/
def IsLineEnd (c : Char) : Prop := c = '\r' ∨ c = '\n'

/-- What may stand between two quotes: no line end, and the quote itself only after a backslash. -/
inductive LiteralBody (quote : Char) : List Char → Prop
  | nil : LiteralBody quote []
  | plain {c : Char} {cs : List Char} (hquote : c ≠ quote) (hback : c ≠ '\\') (hline : ¬ IsLineEnd c)
      (h : LiteralBody quote cs) : LiteralBody quote (c :: cs)
  | escaped {c : Char} {cs : List Char} (hline : ¬ IsLineEnd c) (h : LiteralBody quote cs) :
      LiteralBody quote ('\\' :: c :: cs)

/-- The text is a literal, complete with its closing quote. -/
def IsLiteral (text : List Char) : Prop :=
  ∃ quote body, IsQuote quote ∧ LiteralBody quote body ∧ text = quote :: (body ++ [quote])

namespace Scan

variable {quote : Char} {cs : List Char} {n : Nat}

/-- The closing quote is found behind the body, whatever follows it. -/
theorem quoteEnd_of_body (hback : quote ≠ '\\') (hline : ¬ IsLineEnd quote) {body : List Char}
    (h : LiteralBody quote body) (rest : List Char) :
    quoteEnd quote false (body ++ quote :: rest) = .closed (body.length + 1) := by
  induction h with
  | nil =>
    have hnot : ¬ (quote = '\r' ∨ quote = '\n') := hline
    rw [List.nil_append, quoteEnd, if_neg hnot, if_pos ⟨rfl, rfl⟩]
    rfl
  | @plain c cs hquote hback hline' _ ih =>
    have hplain : ∀ x ∈ [c], x ≠ '\r' ∧ x ≠ '\n' ∧ x ≠ quote ∧ x ≠ '\\' := by
      intro x hx
      rw [List.mem_singleton.1 hx]
      exact ⟨fun h => hline' (.inl h), fun h => hline' (.inr h), hquote, hback⟩
    rw [List.cons_append, ← List.singleton_append, quoteEnd_plain hplain ih]
    show QuoteEnd.closed (1 + (cs.length + 1)) = .closed (cs.length + 1 + 1)
    rw [Nat.add_comm]
  | escaped hline' _ ih =>
    exact quoteEnd_backslash hback (fun h => hline' (.inl h)) (fun h => hline' (.inr h)) ih

/-- Behind a backslash the body begins with any character of the line. -/
theorem body_of_quoteEnd {escaped : Bool} (h : quoteEnd quote escaped cs = .closed n) :
    ∃ body rest, cs = body ++ quote :: rest ∧ n = body.length + 1 ∧
      LiteralBody quote (if escaped then '\\' :: body else body) := by
  -- What a backslash does is told by the character behind it; until then it is put before the body.
  induction cs generalizing escaped n with
  | nil => cases h
  | cons c cs ih =>
    unfold quoteEnd at h
    split at h
    · cases h
    · next hline =>
      split at h
      · next hquote =>
        cases h
        obtain ⟨rfl, rfl⟩ := hquote
        exact ⟨[], cs, rfl, rfl, .nil⟩
      · next hquote =>
        cases hq : quoteEnd quote (decide (c = '\\') && !escaped) cs with
        | cut m => rw [hq] at h; cases h
        | closed m =>
          rw [hq] at h
          cases h
          obtain ⟨body, rest, rfl, rfl, hbody⟩ := ih hq
          refine ⟨c :: body, rest, rfl, rfl, ?_⟩
          cases escaped with
          | true =>
            rw [Bool.not_true, Bool.and_false] at hbody
            exact .escaped hline hbody
          | false =>
            by_cases hc : c = '\\'
            · subst hc
              exact hbody
            · rw [decide_eq_false hc] at hbody
              exact .plain (fun h => hquote ⟨h, rfl⟩) hc hline hbody

/-- A literal that is not closed goes on to the end of its line. -/
theorem line_of_quoteEnd {escaped : Bool} (h : quoteEnd quote escaped cs = .cut n) :
    n ≤ cs.length ∧ (∀ c ∈ cs.take n, ¬ IsLineEnd c) ∧ ∀ c ∈ (cs.drop n).head?, IsLineEnd c := by
  induction cs generalizing escaped n with
  | nil =>
    cases h
    exact ⟨Nat.le_refl 0, List.forall_mem_nil _, fun _ hc => by cases hc⟩
  | cons c cs ih =>
    unfold quoteEnd at h
    split at h
    · next hline =>
      cases h
      refine ⟨Nat.zero_le _, List.forall_mem_nil _, ?_⟩
      intro c' hc'
      cases hc'
      exact hline
    · next hline =>
      split at h
      · cases h
      · cases hq : quoteEnd quote (decide (c = '\\') && !escaped) cs with
        | closed m => rw [hq] at h; cases h
        | cut m =>
          rw [hq] at h
          cases h
          obtain ⟨hle, hbefore, hafter⟩ := ih hq
          refine ⟨Nat.succ_le_succ hle, ?_, hafter⟩
          intro c' hc'
          rw [List.take_succ_cons] at hc'
          rcases List.mem_cons.1 hc' with rfl | hc'
          · exact hline
          · exact hbefore c' hc'

end Scan

theorem IsQuote.ne {quote : Char} (h : IsQuote quote) : quote ≠ '\\' ∧ ¬ IsLineEnd quote := by
  rcases h with rfl | rfl <;> exact ⟨by decide, by rintro (h | h) <;> cases h⟩

/-- A quote begins a literal exactly if its closing quote is found. -/
theorem isLiteral_front_iff {quote : Char} (hquote : IsQuote quote) {cs front : List Char} :
    (front <+: quote :: cs ∧ IsLiteral front) ↔
      ∃ n, Scan.quoteEnd quote false cs = .closed n ∧ front = quote :: cs.take n := by
  have htake : ∀ body rest : List Char,
      (body ++ quote :: rest).take (body.length + 1) = body ++ [quote] := by
    intro body rest
    rw [List.append_cons, List.take_left' (by simp)]
  constructor
  · rintro ⟨⟨rest, hfront⟩, quote', body, -, hbody, rfl⟩
    rw [List.cons_append, List.append_assoc, List.singleton_append, List.cons.injEq] at hfront
    obtain ⟨rfl, rfl⟩ := hfront
    exact ⟨body.length + 1, Scan.quoteEnd_of_body hquote.ne.1 hquote.ne.2 hbody rest,
      by rw [htake]⟩
  · rintro ⟨n, hn, rfl⟩
    obtain ⟨body, rest, rfl, rfl, hbody⟩ := Scan.body_of_quoteEnd hn
    rw [htake]
    exact ⟨⟨rest, by simp⟩, quote, body, hquote, hbody, rfl⟩

/-! ## Texts without delimiters -/

namespace Delims

/-- Nothing is found anywhere in the text `used` before `tail`. -/
def NoneIn {α : Type} (find : List Char → Option α) (used tail : List Char) : Prop :=
  ∀ back, back <:+ used → back ≠ [] → find (back ++ tail) = none

variable {α : Type} {find : List Char → Option α} {used tail : List Char} {kind : TagKind}

theorem noneIn_nil : NoneIn find [] tail :=
  fun _ hback hne => absurd (List.suffix_nil.1 hback) hne

theorem noneIn_cons {c : Char} :
    NoneIn find (c :: used) tail ↔ find (c :: (used ++ tail)) = none ∧ NoneIn find used tail := by
  constructor
  · intro h
    exact ⟨h (c :: used) (List.suffix_refl _) (List.cons_ne_nil _ _),
      fun back hback => h back (hback.trans (List.suffix_cons c used))⟩
  · rintro ⟨hfirst, h⟩ back hback hne
    rcases List.suffix_cons_iff.1 hback with rfl | hback
    · exact hfirst
    · exact h back hback hne

/-- Characters that begin no delimiter. -/
theorem noneIn_of_forall (kind : TagKind) (h : ∀ c ∈ used, c ∉ marks) (tail : List Char) :
    NoneIn (standard.closingAt kind) used tail ∧ NoneIn standard.openingAt used tail := by
  induction used with
  | nil => exact ⟨noneIn_nil, noneIn_nil⟩
  | cons c used ih =>
    obtain ⟨hclosing, hopening⟩ := ih fun x hx => h x (List.mem_cons_of_mem c hx)
    have hfirst : standard.closingAt kind (c :: (used ++ tail)) = none ∧
        standard.openingAt (c :: (used ++ tail)) = none := standard_of_not_mem (h c List.mem_cons_self)
    exact ⟨noneIn_cons.2 ⟨hfirst.1, hclosing⟩, noneIn_cons.2 ⟨hfirst.2, hopening⟩⟩

/-- No delimiter begins at a sign before a digit. -/
theorem standard_of_sign (kind : TagKind) {s c : Char} (cs : List Char) (hs : s = '+' ∨ s = '-')
    (hc : c.isDigit = true) :
    standard.closingAt kind (s :: c :: cs) = none ∧ standard.openingAt (s :: c :: cs) = none := by
  have hmark : c ∉ marks := not_mem_marks hc (by decide)
  have hbefore : ∀ cs, (closeText kind).isPrefixOf (c :: cs) = false := by
    intro cs
    cases kind
    · exact Bool.and_eq_false_imp.2 fun h => absurd (by rw [← eq_of_beq h]; decide) hmark
    · exact Bool.and_eq_false_imp.2 fun h => absurd (by rw [← eq_of_beq h]; decide) hmark
  refine ⟨closingAt_standard ?_ fun _ => hbefore cs, openingAt_standard ?_⟩
  · rcases hs with rfl | rfl <;> cases kind <;> rfl
  · rcases hs with rfl | rfl <;> exact nofun

end Delims

/-- The characters of `used`, before `tail`, are no quotes, and no delimiter begins at any of them. -/
structure Plain (kind : TagKind) (used tail : List Char) : Prop where
  closing : Delims.NoneIn (Delims.standard.closingAt kind) used tail
  opening : Delims.NoneIn Delims.standard.openingAt used tail
  quote : ∀ c ∈ used, ¬ IsQuote c

namespace Plain

variable {kind : TagKind} {used tail : List Char} {c : Char} {p : Char → Bool}

theorem nil : Plain kind [] tail := ⟨Delims.noneIn_nil, Delims.noneIn_nil, nofun⟩

theorem cons (hclosing : Delims.standard.closingAt kind (c :: (used ++ tail)) = none)
    (hopening : Delims.standard.openingAt (c :: (used ++ tail)) = none) (hquote : ¬ IsQuote c)
    (h : Plain kind used tail) : Plain kind (c :: used) tail := by
  refine ⟨Delims.noneIn_cons.2 ⟨hclosing, h.closing⟩, Delims.noneIn_cons.2 ⟨hopening, h.opening⟩, ?_⟩
  intro x hx
  rcases List.mem_cons.1 hx with rfl | hx
  · exact hquote
  · exact h.quote x hx

/-- The characters of a kind that no mark and no quote belongs to. -/
theorem of_all (hp : (('\x22' :: '\x27' :: Delims.marks).all fun m => !p m) = true)
    (h : used.all p = true) : Plain kind used tail := by
  have hnot : ∀ c ∈ used, c ∉ '\x22' :: '\x27' :: Delims.marks := by
    intro c hc hmem
    have hno := List.all_eq_true.1 hp c hmem
    rw [List.all_eq_true.1 h c hc] at hno
    cases hno
  obtain ⟨hclosing, hopening⟩ := Delims.noneIn_of_forall kind
    (fun c hc hmem => hnot c hc (List.mem_cons_of_mem _ (List.mem_cons_of_mem _ hmem))) tail
  refine ⟨hclosing, hopening, ?_⟩
  rintro c hc (rfl | rfl)
  · exact hnot _ hc List.mem_cons_self
  · exact hnot _ hc (List.mem_cons_of_mem _ List.mem_cons_self)

end Plain

/-- The text `used`, before `tail`, is a quote that begins no literal and what is left of its line, up
    to where the tag is closed. -/
structure Broken (kind : TagKind) (used tail : List Char) : Prop where
  quote : ∃ c ∈ used.head?, IsQuote c
  literal : ∀ front, front <+: used ++ tail → ¬ IsLiteral front
  line : ∀ c ∈ used, ¬ IsLineEnd c
  closing : Delims.NoneIn (Delims.standard.closingAt kind) used tail
  stop : (∀ c ∈ tail.head?, IsLineEnd c) ∨ (Delims.standard.closingAt kind tail).isSome = true

/-- The kinds of text that do not close a tag and are taken as a whole. -/
inductive Piece (kind : TagKind) (text tail : List Char) : Prop
  | plain (h : Plain kind text tail)
  | literal (h : IsLiteral text)
  | broken (h : Broken kind text tail)

/-- The tag stays open along the text `used`, before `tail`: it is a row of such pieces. -/
inductive StaysOpen (kind : TagKind) : List Char → List Char → Prop
  | nil (tail : List Char) : StaysOpen kind [] tail
  | cons {text used tail : List Char} (htext : Piece kind text (used ++ tail))
      (h : StaysOpen kind used tail) : StaysOpen kind (text ++ used) tail

namespace Piece

variable {kind : TagKind} {text tail : List Char}

/-- Only a literal may hold a closing delimiter. -/
theorem noneIn_closing (h : Piece kind text tail) :
    IsLiteral text ∨ Delims.NoneIn (Delims.standard.closingAt kind) text tail := by
  cases h with
  | plain h => exact .inr h.closing
  | literal h => exact .inl h
  | broken h => exact .inr h.closing

/-- Only behind a quote there may be an opening delimiter. -/
theorem noneIn_opening (h : Piece kind text tail) (hquote : ∀ c ∈ text.head?, ¬ IsQuote c) :
    Delims.NoneIn Delims.standard.openingAt text tail := by
  cases h with
  | plain h => exact h.opening
  | literal h =>
    obtain ⟨quote, body, hq, -, rfl⟩ := h
    exact absurd hq (hquote quote rfl)
  | broken h =>
    obtain ⟨c, hc, hq⟩ := h.quote
    exact absurd hq (hquote c hc)

end Piece

/-! ## What a scan uses up -/

/-- The number of characters after the first one that the scan uses up. -/
def Scan.more : Scan → Nat
  | token _ n => n
  | fault _ _ n => n

/-- Letters, digits and separators, and signs before digits. -/
theorem Numeral.plain_extent (kind : TagKind) (decimal plain : Bool) (cs : List Char) :
    Plain kind (cs.take (extent decimal plain cs)) (cs.drop (extent decimal plain cs)) := by
  have single : ∀ {c : Char} {used tail : List Char} (p : Char → Bool), p c = true →
      (('\x22' :: '\x27' :: Delims.marks).all fun m => !p m) = true → Plain kind used tail →
      Plain kind (c :: used) tail := by
    intro c used tail p hc hp h
    have hone : Plain kind [c] (used ++ tail) := .of_all hp (by rw [List.all_cons, hc]; rfl)
    exact .cons (Delims.noneIn_cons.1 hone.closing).1 (Delims.noneIn_cons.1 hone.opening).1
      (hone.quote c List.mem_cons_self) h
  -- A character of a number is neither a quote nor the beginning of a delimiter; the sign of an exponent
  -- may be a modifier, and then the digit behind it tells.
  fun_induction extent decimal plain cs with
  | case1 => exact .nil
  | case2 plain c cs hbar ih => exact single isDigitOrBar hbar (by decide) ih
  | case3 plain c cs hbar hpoint ih =>
    simp only [Bool.and_eq_true, beq_iff_eq] at hpoint
    exact single (· == '.') (by rw [hpoint.1.1.1]; rfl) (by decide) ih
  | case4 plain c hbar hpoint hexp => simp only [startsSigned, Bool.and_false, Bool.false_eq_true] at hexp
  | case5 plain c hbar s rest hpoint hexp ih =>
    simp only [Bool.and_eq_true, Bool.or_eq_true, beq_iff_eq] at hexp
    obtain ⟨⟨hletter, hdecimal⟩, hsigned⟩ := hexp
    refine single (fun c => c == 'e' || c == 'E') (by simpa using hletter) (by decide) ?_
    cases rest with
    | nil => cases hsigned
    | cons d rest =>
      simp only [startsSigned, Bool.and_eq_true, Bool.or_eq_true, beq_iff_eq] at hsigned
      obtain ⟨hsign, hdigit⟩ := hsigned
      have hnone := Delims.standard_of_sign kind rest hsign hdigit
      have hquote : ¬ IsQuote s := by rcases hsign with rfl | rfl <;> decide
      have hsplit := List.take_append_drop (extent decimal false (d :: rest)) (d :: rest)
      have hplain : Plain kind (s :: (d :: rest).take (extent decimal false (d :: rest)))
          ((d :: rest).drop (extent decimal false (d :: rest))) :=
        .cons (by rw [hsplit]; exact hnone.1) (by rw [hsplit]; exact hnone.2) hquote ih
      exact hplain
  | case6 plain c cs hbar hpoint hexp halnum ih => exact single Char.isAlphanum halnum (by decide) ih
  | case7 plain c cs hbar hpoint hexp halnum => exact .nil

namespace Scan

variable {kind : TagKind} {c : Char} {cs : List Char}

theorem take_takeWhile (p : Char → Bool) (cs : List Char) :
    cs.take (cs.takeWhile p).length = cs.takeWhile p :=
  (List.prefix_iff_eq_take.1 (List.takeWhile_prefix p)).symm

/-- A row of characters of a kind that no mark and no quote belongs to. -/
theorem plain_takeWhile (kind : TagKind) {p : Char → Bool}
    (hp : (('\x22' :: '\x27' :: Delims.marks).all fun m => !p m) = true) (cs : List Char) :
    Plain kind (cs.take (cs.takeWhile p).length) (cs.drop (cs.takeWhile p).length) := by
  rw [take_takeWhile]
  exact .of_all hp List.all_takeWhile

/-- The further characters of an operator are never marks. -/
theorem plain_punctuation? {t : Token} {n : Nat} (h : punctuation? c cs = some (t, n)) :
    Plain kind (cs.take n) (cs.drop n) := by
  have hall : (cs.take n).all (['.', '=', ':', '|', '&', '<', '>'].contains ·) = true := by
    unfold punctuation? at h
    split at h <;> cases h <;> rfl
  exact .of_all (by decide) hall

/-- A word goes on with letters and digits, and may have the mark of a macro at its end. -/
theorem plain_word [Letters] (c : Char) (cs : List Char) :
    Plain kind (cs.take (word c cs).more) (cs.drop (word c cs).more) := by
  have hmarks : ∀ m ∈ '\x22' :: '\x27' :: Delims.marks, isIdentPart m = false ∧ m ≠ '!' :=
    fun m => isIdentPart_of_mem (by decide)
  have hpart : ('\x22' :: '\x27' :: Delims.marks).all (fun m => !isIdentPart m) = true :=
    List.all_eq_true.2 fun m hm => by rw [(hmarks m hm).1]; rfl
  have hrow := plain_takeWhile kind hpart cs
  unfold word
  dsimp only
  split
  · exact hrow
  split
  · next hbang =>
    -- The mark is the only character behind the word.
    have hmark : ∃ more, cs.drop (cs.takeWhile isIdentPart).length = '!' :: more := by
      unfold startsBang at hbang
      split at hbang
      · cases hbang
      · next more _ hdrop => exact ⟨more, hdrop⟩
      · cases hbang
    obtain ⟨more, hdrop⟩ := hmark
    have hboth : ('\x22' :: '\x27' :: Delims.marks).all (fun m => !(isIdentPart m || m == '!')) = true :=
      List.all_eq_true.2 fun m hm => by
        rw [(hmarks m hm).1, beq_eq_false_iff_ne.2 (hmarks m hm).2]
        rfl
    refine .of_all (p := fun c => isIdentPart c || c == '!') hboth ?_
    show (cs.take ((cs.takeWhile isIdentPart).length + 1)).all _ = true
    rw [List.take_add, hdrop, take_takeWhile, List.all_append, Bool.and_eq_true, List.all_eq_true]
    refine ⟨fun x hx => ?_, by simp⟩
    rw [List.all_eq_true.1 List.all_takeWhile x hx, Bool.true_or]
  · exact hrow

/-- What is used up behind a character other than a quote hides no delimiter. -/
theorem read_plain [Letters] (kind : TagKind) (hc : ¬ IsQuote c) (cs : List Char) (afterDot : Bool) :
    Plain kind (cs.take (read .standard kind afterDot c cs).more)
      (cs.drop (read .standard kind afterDot c cs).more) := by
  unfold read
  split
  · next t n h => exact plain_punctuation? h
  rw [if_neg fun h => hc (.inl h), if_neg fun h => hc (.inr h)]
  split
  · unfold number
    split
    · exact plain_takeWhile kind (by decide) cs
    · have hextent := Numeral.plain_extent kind (!(c == '0' && (cs.head? == some 'x' ||
        cs.head? == some 'o' || cs.head? == some 'b'))) true cs
      dsimp only
      split <;> exact hextent
  split
  · exact plain_takeWhile kind (by decide) cs
  split
  · exact plain_word c cs
  · exact .nil

/-- Until the first place where the tag is closed there is no other one. -/
theorem noneIn_closingWithin (d : Delims) (n : Nat) (cs : List Char) :
    Delims.NoneIn (d.closingAt kind) (cs.take (closingWithin d kind n cs))
      (cs.drop (closingWithin d kind n cs)) := by
  fun_induction closingWithin d kind n cs with
  | case1 => exact Delims.noneIn_nil
  | case2 => exact Delims.noneIn_nil
  | case3 => exact Delims.noneIn_nil
  | case4 n c cs hnot ih =>
    have hfirst : d.closingAt kind (c :: cs) = none := by simpa using hnot
    have hnone : Delims.NoneIn (d.closingAt kind) (c :: cs.take (closingWithin d kind n cs))
        (cs.drop (closingWithin d kind n cs)) :=
      Delims.noneIn_cons.2 ⟨by rw [List.take_append_drop]; exact hfirst, ih⟩
    exact hnone

/-- A literal is cut short at its end or where the tag is closed. -/
theorem closingWithin_cases (d : Delims) (kind : TagKind) {n : Nat} {cs : List Char} (hn : n ≤ cs.length) :
    closingWithin d kind n cs = n ∨ closingWithin d kind n cs < n ∧
      (d.closingAt kind (cs.drop (closingWithin d kind n cs))).isSome = true := by
  fun_induction closingWithin d kind n cs with
  | case1 => exact .inl rfl
  | case2 n => exact absurd hn (Nat.not_succ_le_zero n)
  | case3 n c cs hclosing => exact .inr ⟨Nat.succ_pos n, hclosing⟩
  | case4 n c cs hnot ih =>
    rcases ih (Nat.le_of_succ_le_succ hn) with heq | ⟨hlt, hclosing⟩
    · exact .inl (by rw [heq])
    · exact .inr ⟨Nat.succ_lt_succ hlt, hclosing⟩

/-- The characters after a quote that are used up: those up to the closing quote, or to where the
    literal is cut. -/
def quoteMore (d : Delims) (kind : TagKind) (cs : List Char) : QuoteEnd → Nat
  | .closed n => n
  | .cut n => closingWithin d kind n cs

theorem more_string (d : Delims) (kind : TagKind) (cs : List Char) :
    (string d kind cs).more = quoteMore d kind cs (quoteEnd '\x22' false cs) := by
  unfold string
  cases quoteEnd '\x22' false cs with
  | cut n => rfl
  | closed n =>
    dsimp only
    split <;> rfl

theorem more_char (d : Delims) (kind : TagKind) (cs : List Char) :
    (char d kind cs).more = quoteMore d kind cs (quoteEnd '\x27' false cs) := by
  unfold char
  cases quoteEnd '\x27' false cs with
  | cut n => rfl
  | closed n =>
    dsimp only
    cases Escape.unescape true (cs.take (n - 1)) with
    | error range => rfl
    | ok value =>
      match value with
      | [] => rfl
      | [_] => rfl
      | _ :: _ :: _ => rfl

/-- A scan at a quote uses up a literal, or what is left of the line up to where the tag is closed. -/
theorem read_quote [Letters] (hc : IsQuote c) (afterDot : Bool) :
    let n := (read .standard kind afterDot c cs).more
    IsLiteral (c :: cs.take n) ∨ Broken kind (c :: cs.take n) (cs.drop n) := by
  have hmore : (read .standard kind afterDot c cs).more =
      quoteMore .standard kind cs (quoteEnd c false cs) := by
    rcases hc with rfl | rfl
    · exact more_string .standard kind cs
    · exact more_char .standard kind cs
  dsimp only
  rw [hmore]
  cases hend : quoteEnd c false cs with
  | closed n => exact .inl ((isLiteral_front_iff hc).2 ⟨n, hend, rfl⟩).2
  | cut n =>
    obtain ⟨hle, hbefore, hafter⟩ := line_of_quoteEnd hend
    have hcases := closingWithin_cases .standard kind hle
    have hcut : quoteMore .standard kind cs (.cut n) = closingWithin .standard kind n cs := rfl
    rw [hcut]
    have hsplit := List.take_append_drop (closingWithin .standard kind n cs) cs
    have hmark : c ∉ Delims.marks := by rcases hc with rfl | rfl <;> decide
    refine .inr ⟨⟨c, rfl, hc⟩, ?_, ?_, Delims.noneIn_cons.2 ⟨?_, noneIn_closingWithin .standard n cs⟩, ?_⟩
    · intro front hfront hliteral
      rw [List.cons_append, hsplit] at hfront
      obtain ⟨m, hm, -⟩ := (isLiteral_front_iff hc).1 ⟨hfront, hliteral⟩
      rw [hend] at hm
      cases hm
    · have hprefix : closingWithin .standard kind n cs ≤ n := by omega
      intro x hx
      rcases List.mem_cons.1 hx with rfl | hx
      · exact hc.ne.2
      · exact hbefore x ((List.take_prefix_take_left hprefix).subset hx)
    · exact (Delims.standard_of_not_mem hmark).1
    · rcases hcases with heq | ⟨-, hclosing⟩
      · rw [heq]
        exact .inl hafter
      · exact .inr hclosing

end Scan

/-! ## Steps -/

/-- What a scan uses up where no delimiter begins is one piece. -/
theorem Scan.read_piece [Letters] {kind : TagKind} {c : Char} {cs : List Char} (afterDot : Bool)
    (hclosing : Delims.standard.closingAt kind (c :: cs) = none)
    (hopening : Delims.standard.openingAt (c :: cs) = none) :
    let n := (read .standard kind afterDot c cs).more
    Piece kind (c :: cs.take n) (cs.drop n) := by
  by_cases hc : IsQuote c
  · rcases read_quote hc afterDot with hliteral | hbroken
    · exact .literal hliteral
    · exact .broken hbroken
  · have hplain := read_plain kind hc cs afterDot
    exact .plain (.cons (by rw [List.take_append_drop]; exact hclosing)
      (by rw [List.take_append_drop]; exact hopening) hc hplain)

namespace Lexer

variable {kind : TagKind} {afterDot : Bool} {lx next : Lexer}

/-- One step leads from the place to the other one, with a lexeme or with a fault. -/
def StepsTo [Letters] (d : Delims) (lx next : Lexer) : Prop :=
  (∃ l, lx.step d = .token l next) ∨ ∃ diagnostic, lx.step d = .fault diagnostic next

/-- What a step inside a tag does: it closes the tag, or stops before an opening delimiter, or uses up
    one piece and stays in the tag. -/
theorem StepsTo.cases_of_tag [Letters] (h : lx.StepsTo .standard next) (hm : lx.mode = .tag kind afterDot) :
    (∃ l close, lx.step .standard = .token l next ∧ l.token = Token.closes kind ∧
      Delims.standard.closingAt kind lx.rest = some close ∧ next = lx.advance close.size .template) ∨
    (Delims.standard.closingAt kind lx.rest = none ∧
      (Delims.standard.openingAt lx.rest).isSome = true ∧ next = lx.advance 0 .template) ∨
    ∃ text dot, lx.Reaches text next ∧ next.mode = .tag kind dot ∧ Piece kind text next.rest := by
  have hread : ∀ {c : Char} {cs : List Char} {mode : Mode}, lx.rest = c :: cs →
      Delims.standard.closingAt kind lx.rest = none → Delims.standard.openingAt lx.rest = none →
      ∃ text, lx.Reaches text
          (lx.advance ((Scan.read .standard kind afterDot c cs).more + 1) mode) ∧
        Piece kind text (lx.advance ((Scan.read .standard kind afterDot c cs).more + 1) mode).rest := by
    intro c cs mode hr hc ho
    refine ⟨_, reaches_advance lx _ mode, ?_⟩
    rw [hr] at hc ho
    show Piece kind (lx.rest.take _) (lx.rest.drop _)
    rw [hr]
    exact Scan.read_piece afterDot hc ho
  rcases h with ⟨l, h⟩ | ⟨diagnostic, h⟩
  · cases (emits_of_step h).inTag hm with
    | closing hr hc => exact .inl ⟨_, _, h, rfl, hc, rfl⟩
    | word hr hc ho hs =>
      obtain ⟨text, hreach, hpiece⟩ := hread hr hc ho
      rw [hs] at hreach hpiece
      exact .inr (.inr ⟨text, _, hreach, rfl, hpiece⟩)
  · cases (refuses_of_step h).inTag hm with
    | opening hr hc ho => exact .inr (.inl ⟨hc, by rw [ho]; rfl, rfl⟩)
    | word hr hc ho hs =>
      obtain ⟨text, hreach, hpiece⟩ := hread hr hc ho
      rw [hs] at hreach hpiece
      exact .inr (.inr ⟨text, afterDot, hreach, rfl, hpiece⟩)

/-! ## The end of a tag -/

/-- A tag that is open before `last ++ rest` ends behind `last`: that is its closing delimiter; or it
    is empty, and an opening delimiter begins there or the source ends. -/
inductive Ends (kind : TagKind) : List Char → List Char → Prop
  | closing {last rest : List Char} {close : Closing}
      (h : Delims.standard.closingAt kind (last ++ rest) = some close)
      (hlast : (last ++ rest).take close.size = last) : Ends kind last rest
  | opening {rest : List Char} (hclosing : Delims.standard.closingAt kind rest = none)
      (h : (Delims.standard.openingAt rest).isSome = true) : Ends kind [] rest
  | source : Ends kind [] []

/-- Skipping leads to the first closing delimiter outside of the literals, unless an opening delimiter
    or the end of the source comes first. -/
theorem skipTag_staysOpen [Letters] (hm : lx.mode = .tag kind afterDot) :
    ∃ used last, lx.Reaches (used ++ last) (lx.skipTag .standard) ∧
      StaysOpen kind used (last ++ (lx.skipTag .standard).rest) ∧
      Ends kind last (lx.skipTag .standard).rest := by
  -- A step inside the tag is the last one, or one more piece in front.
  have hstep : ∀ {lx next : Lexer} {afterDot : Bool}, lx.mode = .tag kind afterDot →
      lx.StepsTo .standard next → lx.skipTag .standard = next.skipTag .standard →
      (∀ {dot : Bool}, next.mode = .tag kind dot →
        ∃ used last, next.Reaches (used ++ last) (next.skipTag .standard) ∧
          StaysOpen kind used (last ++ (next.skipTag .standard).rest) ∧
          Ends kind last (next.skipTag .standard).rest) →
      ∃ used last, lx.Reaches (used ++ last) (lx.skipTag .standard) ∧
        StaysOpen kind used (last ++ (lx.skipTag .standard).rest) ∧
        Ends kind last (lx.skipTag .standard).rest := by
    intro lx next afterDot hm h hskip ih
    rw [hskip]
    rcases h.cases_of_tag hm with ⟨l, close, -, -, hc, rfl⟩ | ⟨hc, ho, rfl⟩ |
      ⟨text, dot, hreach, hmode, hpiece⟩
    · rw [skipTag_of_outside rfl]
      have hsplit := List.take_append_drop close.size lx.rest
      refine ⟨[], lx.rest.take close.size, reaches_advance lx _ _, .nil _, ?_⟩
      have hends : Ends kind (lx.rest.take close.size) (lx.rest.drop close.size) :=
        .closing (by rw [hsplit]; exact hc) (by rw [hsplit])
      exact hends
    · rw [skipTag_of_outside rfl]
      exact ⟨[], [], reaches_advance lx 0 _, .nil _, .opening hc ho⟩
    · obtain ⟨used, last, hnext, hopen, hends⟩ := ih hmode
      refine ⟨text ++ used, last, ?_, .cons ?_ hopen, hends⟩
      · rw [List.append_assoc]
        exact hreach.trans hnext
      · rw [← List.append_assoc, ← hnext.text]
        exact hpiece
  fun_induction skipTag .standard lx generalizing afterDot with
  | case1 lx hin l next h ih =>
    have := hstep hm (.inl ⟨l, h⟩) (skipTag_of_token hin h) ih
    rwa [skipTag_of_token hin h] at this
  | case2 lx hin diagnostic next h ih =>
    have := hstep hm (.inr ⟨diagnostic, h⟩) (skipTag_of_fault hin h) ih
    rwa [skipTag_of_fault hin h] at this
  | case3 lx hin h =>
    have hrest := (rest_eq_nil_of_step h).1
    refine ⟨[], [], (Reaches.refl lx).with_mode .template, .nil _, ?_⟩
    show Ends kind [] lx.rest
    rw [hrest]
    exact .source
  | case4 lx hin => exact absurd (by unfold inTag; rw [hm]) hin

/-! ## Offsets -/

/-- The text from the byte `p` of the source on, seen from a place before it; none if `p` lies inside of
    a character or behind the end. -/
def textAt? (lx : Lexer) (p : Nat) : Option (List Char) :=
  (splitAtByte? (p - lx.pos) lx.rest).map (·.2)

/-- What begins nowhere in a text begins at none of its bytes. -/
theorem Reaches.none_at {α : Type} {find : List Char → Option α} {text : List Char}
    (h : lx.Reaches text next) (hnone : Delims.NoneIn find text next.rest) {p : Nat}
    (hfrom : lx.pos ≤ p) (hto : p < next.pos) : (lx.textAt? p).bind find = none := by
  unfold textAt?
  cases hsplit : splitAtByte? (p - lx.pos) lx.rest with
  | none => rfl
  | some r =>
    obtain ⟨front, rest⟩ := r
    obtain ⟨htext, hbytes⟩ := splitAtByte?_eq_some hsplit
    rw [h.text] at htext
    have hpos := h.pos
    rw [Option.map_some, Option.bind_some]
    rcases List.append_eq_append_iff.1 htext with ⟨back, rfl, rfl⟩ | ⟨more, rfl, -⟩
    · refine hnone back (List.suffix_append front back) ?_
      rintro rfl
      rw [List.append_nil] at hpos
      omega
    · rw [byteLen_append] at hbytes
      omega

end Lexer

end Stencil
