/-
  EscapeGrammar — the bodies of literals, as a grammar.

  A body is written down in items, each of which stands for one character (`Item`): a character other
  than the backslash, or one of four kinds of escape.  Resolving goes along with the text instead,
  with offsets and counts, and leaves the digits to a reader of numbers.  Both agree on what a body
  stands for, and on where it goes wrong, but for one thing: the reader of numbers takes a plus sign,
  so that a code point in braces may carry one (`Signed`).

  The crux is `resolve_eq_ok_iff`.  An escape is resolved as an item whatever follows it, and nothing
  else is: so no item is the front of another, the items of a body are found one after the other, and
  the first place where none begins is the place of the fault.
-/
import Mathlib.Data.List.Forall2
import Mathlib.Data.Nat.Digits.Defs
import Stencil.Proofs.Lexer.Refusal
import Stencil.Proofs.Lexer.Quote

namespace Stencil.Escape

/-! ## The grammar -/

/-- A row of hexadecimal digits, of either case, and the number that it writes. -/
def Hexadecimal (digits : List Char) (n : Nat) : Prop :=
  ∃ values, List.Forall₂ (fun c k => hexDigit? c = some k) digits values ∧
    n = Nat.ofDigits 16 values.reverse

/-- The letters and quotes that stand for a character after a backslash. -/
def letters : List (Char × Char) :=
  [('n', '\n'), ('r', '\r'), ('t', '\t'), ('\\', '\\'), ('0', '\x00'), ('\x22', '\x22'),
    ('\x27', '\x27')]

/-- An item of a body: its text and the character that it stands for. -/
inductive Item (inChar : Bool) : List Char → Char → Prop
  | plain {c : Char} (h : c ≠ '\\') : Item inChar [c] c
  | letter {c v : Char} (h : (c, v) ∈ letters) : Item inChar ['\\', c] v
  | byte {a b v : Char} (hdigits : Hexadecimal [a, b] v.toNat) (hle : v.toNat ≤ 0x7F) :
      Item inChar ['\\', 'x', a, b] v
  | braced {digits : List Char} {v : Char} (hdigits : Hexadecimal digits v.toNat)
      (hpos : 1 ≤ digits.length) (hle : digits.length ≤ 6) :
      Item inChar ('\\' :: 'u' :: '{' :: (digits ++ ['}'])) v
  | four {digits : List Char} {v : Char} (hchar : inChar = true)
      (hdigits : Hexadecimal digits v.toNat) (hlen : digits.length = 4) :
      Item inChar ('\\' :: 'u' :: digits) v

/-- A code point in braces that carries a plus sign, which counts as one of the six characters. -/
inductive Signed : List Char → Char → Prop
  | mk {digits : List Char} {v : Char} (hdigits : Hexadecimal digits v.toNat)
      (hpos : 1 ≤ digits.length) (hle : digits.length ≤ 5) :
      Signed ('\\' :: 'u' :: '{' :: '+' :: (digits ++ ['}'])) v

/-- What is taken for an item. -/
def Accepted (inChar : Bool) (text : List Char) (v : Char) : Prop :=
  Item inChar text v ∨ Signed text v

/-- The text is a row of items, and `value` the row of the characters they stand for. -/
def IsRow (item : List Char → Char → Prop) (text value : List Char) : Prop :=
  ∃ items : List (List Char × Char), (∀ i ∈ items, item i.1 i.2) ∧
    text = items.flatMap (·.1) ∧ value = items.map (·.2)

/-- The range, in a text that begins at the offset `p`, begins at a backslash, behind a row of items
    and where no item begins, and it ends between characters of the text. -/
def IsFault (item : List Char → Char → Prop) (p : Nat) (text : List Char) (range : Span) : Prop :=
  ∃ before value bad after, text = before ++ ('\\' :: bad ++ after) ∧ IsRow item before value ∧
    (∀ front v, front <+: '\\' :: bad ++ after → ¬ item front v) ∧
    range = ⟨p + byteLen before, p + byteLen (before ++ '\\' :: bad)⟩

namespace IsRow

variable {item : List Char → Char → Prop}

theorem nil : IsRow item [] [] := ⟨[], by simp, rfl, rfl⟩

theorem cons {first text value : List Char} {v : Char} (hfirst : item first v)
    (h : IsRow item text value) : IsRow item (first ++ text) (v :: value) := by
  obtain ⟨items, hitems, rfl, rfl⟩ := h
  refine ⟨(first, v) :: items, ?_, rfl, rfl⟩
  intro i hi
  rcases List.mem_cons.1 hi with rfl | hi
  · exact hfirst
  · exact hitems i hi

end IsRow

/-- A fault behind an item is a fault behind the items from there on. -/
theorem IsFault.cons {item : List Char → Char → Prop} {p : Nat} {first text : List Char} {v : Char}
    {range : Span} (hfirst : item first v) (h : IsFault item (p + byteLen first) text range) :
    IsFault item p (first ++ text) range := by
  obtain ⟨before, value, bad, after, rfl, hbefore, hnone, rfl⟩ := h
  refine ⟨first ++ before, v :: value, bad, after, by simp, hbefore.cons hfirst, hnone, ?_⟩
  simp only [byteLen_append, Nat.add_assoc]

/-! ## Numbers -/

/-- The characters with a hexadecimal value. -/
theorem mem_of_hexDigit? {c : Char} {k : Nat} (h : hexDigit? c = some k) :
    c ∈ "0123456789abcdefABCDEF".toList := by
  have hof : ∀ n : Nat, c.toNat = n → c = Char.ofNat n := by
    rintro n rfl
    exact (Char.ofNat_toNat c).symm
  have hrange : (48 ≤ c.toNat ∧ c.toNat ≤ 57) ∨ (97 ≤ c.toNat ∧ c.toNat ≤ 102) ∨
      (65 ≤ c.toNat ∧ c.toNat ≤ 70) := by
    unfold hexDigit? at h
    split at h
    · next hc => exact .inl hc
    split at h
    · next hc => exact .inr (.inl hc)
    split at h
    · next hc => exact .inr (.inr hc)
    · cases h
  have hall : ∀ n : Nat, n ≤ 102 → ((48 ≤ n ∧ n ≤ 57) ∨ (97 ≤ n ∧ n ≤ 102) ∨ (65 ≤ n ∧ n ≤ 70)) →
      Char.ofNat n ∈ "0123456789abcdefABCDEF".toList := by decide
  rw [hof c.toNat rfl]
  exact hall c.toNat (by omega) hrange

/-- A digit takes one byte and is none of the signs around numbers. -/
theorem hexDigit?_ascii {c : Char} {k : Nat} (h : hexDigit? c = some k) :
    c.utf8Size = 1 ∧ c ≠ '}' ∧ c ≠ '{' ∧ c ≠ '+' := by
  have hall : ("0123456789abcdefABCDEF".toList.all fun c =>
      c.utf8Size = 1 ∧ c ≠ '\x7d' ∧ c ≠ '\x7b' ∧ c ≠ '+') = true := by decide
  exact of_decide_eq_true (List.all_eq_true.1 hall c (mem_of_hexDigit? h))

theorem Hexadecimal.forall {digits : List Char} {n : Nat} (h : Hexadecimal digits n) :
    ∀ c ∈ digits, c.utf8Size = 1 ∧ c ≠ '}' ∧ c ≠ '{' ∧ c ≠ '+' := by
  obtain ⟨values, hvalues, -⟩ := h
  induction hvalues with
  | nil => simp
  | cons hc _ ih =>
    intro d hd
    rcases List.mem_cons.1 hd with rfl | hd
    · exact hexDigit?_ascii hc
    · exact ih d hd

theorem Hexadecimal.byteLen_eq {digits : List Char} {n : Nat} (h : Hexadecimal digits n) :
    byteLen digits = digits.length :=
  byteLen_eq_length fun c hc => (h.forall c hc).1

/-- The digits are read from the left, each one making room for the next. -/
theorem hexDigits?_eq_some_iff (acc : Nat) (digits : List Char) (n : Nat) :
    hexDigits? acc digits = some n ↔
      ∃ values, List.Forall₂ (fun c k => hexDigit? c = some k) digits values ∧
        n = Nat.ofDigits 16 values.reverse + 16 ^ digits.length * acc := by
  induction digits generalizing acc with
  | nil =>
    rw [hexDigits?, Option.some_inj]
    constructor
    · rintro rfl
      exact ⟨[], .nil, by simp⟩
    · rintro ⟨_, ⟨⟩, h⟩
      simpa using h.symm
  | cons c digits ih =>
    rw [hexDigits?, Option.bind_eq_bind, Option.bind_eq_some_iff]
    have hstep : ∀ (values : List Nat) (k : Nat), digits.length = values.length →
        Nat.ofDigits 16 (k :: values).reverse + 16 ^ (c :: digits).length * acc =
          Nat.ofDigits 16 values.reverse + 16 ^ digits.length * (16 * acc + k) := by
      intro values k hlen
      rw [List.reverse_cons, Nat.ofDigits_append, Nat.ofDigits_singleton, List.length_reverse, ← hlen,
        List.length_cons]
      ring
    constructor
    · rintro ⟨k, hk, h⟩
      obtain ⟨values, hvalues, hn⟩ := (ih _).1 h
      exact ⟨k :: values, .cons hk hvalues, by rw [hn, hstep values k hvalues.length_eq]⟩
    · rintro ⟨_, hvalues, hn⟩
      cases hvalues with
      | cons hk hvalues =>
        refine ⟨_, hk, (ih _).2 ⟨_, hvalues, ?_⟩⟩
        rw [hn, hstep _ _ hvalues.length_eq]

theorem hexValue?_eq_some_iff (digits : List Char) (n : Nat) :
    hexValue? digits = some n ↔ 1 ≤ digits.length ∧ Hexadecimal digits n := by
  cases digits with
  | nil => simp [hexValue?]
  | cons c digits =>
    show hexDigits? 0 (c :: digits) = some n ↔ _
    rw [hexDigits?_eq_some_iff]
    simp [Hexadecimal]

/-- A number may carry a plus sign. -/
theorem signedHexValue?_eq_some_iff (cs : List Char) (n : Nat) :
    signedHexValue? cs = some n ↔ (1 ≤ cs.length ∧ Hexadecimal cs n) ∨
      ∃ digits, cs = '+' :: digits ∧ 1 ≤ digits.length ∧ Hexadecimal digits n := by
  unfold signedHexValue?
  split
  · next digits =>
    rw [hexValue?_eq_some_iff]
    constructor
    · intro h
      exact .inr ⟨digits, rfl, h⟩
    · rintro (⟨-, hsign⟩ | ⟨_, heq, h⟩)
      · exact absurd rfl (hsign.forall '+' List.mem_cons_self).2.2.2
      · cases heq
        exact h
  · next hplus =>
    rw [hexValue?_eq_some_iff]
    constructor
    · exact .inl
    · rintro (h | ⟨digits, rfl, -⟩)
      · exact h
      · exact absurd rfl (hplus digits)

theorem scalar?_eq_some_iff (n : Nat) (v : Char) : scalar? n = some v ↔ v.toNat = n := by
  constructor
  · intro h
    unfold scalar? at h
    by_cases hvalid : n.isValidChar
    · rw [dif_pos hvalid] at h
      cases h
      rfl
    · rw [dif_neg hvalid] at h
      cases h
  · rintro rfl
    exact scalar?_toNat v

/-! ## One escape -/

theorem orBytes_eq_ok_iff (n : Nat) (o : Option Resolved) (r : Resolved) :
    orBytes n o = .ok r ↔ o = some r := by
  cases o with
  | none => simp [orBytes]
  | some r' => simp [orBytes]

theorem simple?_eq_some_iff (c v : Char) : simple? c = some v ↔ (c, v) ∈ letters := by
  constructor
  · intro h
    unfold simple? at h
    split at h <;> cases h <;> decide
  · intro h
    simp only [letters, List.mem_cons, List.not_mem_nil, or_false, Prod.mk.injEq] at h
    rcases h with ⟨rfl, rfl⟩ | ⟨rfl, rfl⟩ | ⟨rfl, rfl⟩ | ⟨rfl, rfl⟩ | ⟨rfl, rfl⟩ | ⟨rfl, rfl⟩ | ⟨rfl, rfl⟩ <;>
      rfl

/-- Digits are cut off by their number. -/
theorem splitAtByte?_hexadecimal {digits : List Char} {n : Nat} (h : Hexadecimal digits n)
    (after : List Char) : splitAtByte? digits.length (digits ++ after) = some (digits, after) := by
  rw [← h.byteLen_eq]
  exact splitAtByte?_append digits after

theorem resolveByte_eq_ok_iff (rest : List Char) (r : Resolved) :
    resolveByte rest = .ok r ↔ ∃ a b after, rest = a :: b :: after ∧
      Hexadecimal [a, b] r.value.toNat ∧ r.value.toNat ≤ 0x7F ∧ r.size = 3 := by
  have hdecode : ∀ digits : List Char,
      (orBytes 4 do
        let n ← hexValue? digits
        if n ≤ 0x7F then return ⟨← scalar? n, 3⟩ else none) = .ok r ↔
      1 ≤ digits.length ∧ Hexadecimal digits r.value.toNat ∧ r.value.toNat ≤ 0x7F ∧ r.size = 3 := by
    intro digits
    rw [orBytes_eq_ok_iff, Option.bind_eq_bind, Option.bind_eq_some_iff]
    constructor
    · rintro ⟨n, hn, h⟩
      split at h
      · next hle =>
        obtain ⟨v, hv, h⟩ := Option.bind_eq_some_iff.1 h
        cases h
        obtain rfl := (scalar?_eq_some_iff n v).1 hv
        obtain ⟨hpos, hdigits⟩ := (hexValue?_eq_some_iff digits _).1 hn
        exact ⟨hpos, hdigits, hle, rfl⟩
      · cases h
    · rintro ⟨hpos, hdigits, hle, hsize⟩
      refine ⟨r.value.toNat, (hexValue?_eq_some_iff digits _).2 ⟨hpos, hdigits⟩, ?_⟩
      rw [if_pos hle, scalar?_toNat, ← hsize]
      rfl
  unfold resolveByte
  constructor
  · intro h
    split at h
    · cases h
    · next digits after hsplit =>
      obtain ⟨hrest, hbytes⟩ := splitAtByte?_eq_some hsplit
      obtain ⟨-, hdigits, hle⟩ := (hdecode digits).1 h
      rw [hdigits.byteLen_eq] at hbytes
      obtain ⟨a, b, rfl⟩ := List.length_eq_two.1 hbytes
      exact ⟨a, b, after, hrest.symm, hdigits, hle⟩
  · rintro ⟨a, b, after, rfl, hdigits, h⟩
    have hsplit : splitAtByte? 2 (a :: b :: after) = some ([a, b], after) :=
      splitAtByte?_hexadecimal hdigits after
    rw [hsplit]
    exact (hdecode [a, b]).2 ⟨Nat.le_add_left 1 1, hdigits, h⟩

theorem resolveFour_eq_ok_iff (rest : List Char) (r : Resolved) :
    resolveFour rest = .ok r ↔ ∃ digits after, rest = digits ++ after ∧ digits.length = 4 ∧
      Hexadecimal digits r.value.toNat ∧ r.size = 5 := by
  have hdecode : ∀ digits : List Char,
      (orBytes 6 do return ⟨← (hexValue? digits).bind scalar?, 5⟩) = .ok r ↔
      1 ≤ digits.length ∧ Hexadecimal digits r.value.toNat ∧ r.size = 5 := by
    intro digits
    rw [orBytes_eq_ok_iff, Option.bind_eq_bind, Option.bind_eq_some_iff]
    constructor
    · rintro ⟨v, hv, h⟩
      cases h
      obtain ⟨n, hn, hscalar⟩ := Option.bind_eq_some_iff.1 hv
      obtain rfl := (scalar?_eq_some_iff n v).1 hscalar
      obtain ⟨hpos, hdigits⟩ := (hexValue?_eq_some_iff digits _).1 hn
      exact ⟨hpos, hdigits, rfl⟩
    · rintro ⟨hpos, hdigits, hsize⟩
      refine ⟨r.value, ?_, by rw [← hsize]; rfl⟩
      rw [(hexValue?_eq_some_iff digits _).2 ⟨hpos, hdigits⟩, Option.bind_some, scalar?_toNat]
  unfold resolveFour
  constructor
  · intro h
    split at h
    · cases h
    · next digits after hsplit =>
      obtain ⟨hrest, hbytes⟩ := splitAtByte?_eq_some hsplit
      obtain ⟨-, hdigits, hsize⟩ := (hdecode digits).1 h
      rw [hdigits.byteLen_eq] at hbytes
      exact ⟨digits, after, hrest.symm, hbytes, hdigits, hsize⟩
  · rintro ⟨digits, after, rfl, hlen, hdigits, hsize⟩
    have hsplit := splitAtByte?_hexadecimal hdigits after
    rw [hlen] at hsplit
    rw [hsplit]
    exact (hdecode digits).2 ⟨by omega, hdigits, hsize⟩

/-- The characters up to a closing brace. -/
theorem takeWhile_brace {cs : List Char} (h : '}' ∉ cs) (after : List Char) :
    (cs ++ '}' :: after).takeWhile (· ≠ '}') = cs := by
  rw [List.takeWhile_append_of_pos]
  · simp
  · intro c hc
    refine decide_eq_true ?_
    rintro rfl
    exact h hc

theorem resolveBraced_eq_ok_iff (rest : List Char) (r : Resolved) :
    resolveBraced rest = .ok r ↔ ∃ cs after, rest = cs ++ '}' :: after ∧ byteLen cs ≤ 6 ∧
      signedHexValue? cs = some r.value.toNat ∧ r.size = cs.length + 3 := by
  have hdecode : ∀ (k : Nat) (cs : List Char),
      orBytes k (do
        if byteLen cs ≤ 6 then
          return ⟨← (signedHexValue? cs).bind scalar?, cs.length + 3⟩
        else none) = .ok r ↔
      byteLen cs ≤ 6 ∧ signedHexValue? cs = some r.value.toNat ∧ r.size = cs.length + 3 := by
    intro k cs
    rw [orBytes_eq_ok_iff]
    constructor
    · intro h
      split at h
      · next hle =>
        obtain ⟨v, hv, h⟩ := Option.bind_eq_some_iff.1 h
        cases h
        obtain ⟨n, hn, hscalar⟩ := Option.bind_eq_some_iff.1 hv
        obtain rfl := (scalar?_eq_some_iff n v).1 hscalar
        exact ⟨hle, hn, rfl⟩
      · cases h
    · rintro ⟨hle, hvalue, hsize⟩
      rw [if_pos hle, hvalue, Option.bind_some, scalar?_toNat, ← hsize]
      rfl
  unfold resolveBraced
  dsimp only
  constructor
  · intro h
    split at h
    · cases h
    · next hshort =>
      obtain ⟨after, hrest⟩ := split_at_brace hshort
      obtain ⟨hle, hvalue, hsize⟩ := (hdecode _ _).1 h
      exact ⟨_, after, hrest, hle, hvalue, hsize⟩
  · rintro ⟨cs, after, rfl, hle, hvalue, hsize⟩
    have hbrace : '\x7d' ∉ cs := by
      intro hmem
      rcases (signedHexValue?_eq_some_iff cs _).1 hvalue with ⟨-, hdigits⟩ | ⟨digits, rfl, -, hdigits⟩
      · exact absurd rfl (hdigits.forall _ hmem).2.1
      · rcases List.mem_cons.1 hmem with heq | hmem
        · exact absurd heq (by decide)
        · exact absurd rfl (hdigits.forall _ hmem).2.1
    rw [takeWhile_brace hbrace, if_neg (by simp)]
    exact (hdecode _ cs).2 ⟨hle, hvalue, hsize⟩

/-- An escape that is an item is resolved, whatever follows it. -/
theorem resolve_of_accepted {inChar : Bool} {escape : List Char} {v : Char}
    (h : Accepted inChar ('\\' :: escape) v) (after : List Char) :
    resolve inChar (escape ++ after) = .ok ⟨v, escape.length⟩ := by
  generalize htext : '\\' :: escape = text at h
  rcases h with h | h
  · cases h with
    | plain hc =>
      cases htext
      exact absurd rfl hc
    | @letter c v hmem =>
      cases htext
      have hsimple := (simple?_eq_some_iff c v).2 hmem
      rw [List.singleton_append]
      unfold resolve
      split
      · next heq => cases heq
      · next heq => cases heq; cases hsimple
      · next heq => cases heq; cases hsimple
      · next heq => cases heq; cases hsimple
      · next heq => cases heq; rw [hsimple]; rfl
    | @byte a b v hdigits hle =>
      cases htext
      exact (resolveByte_eq_ok_iff (a :: b :: after) ⟨v, 3⟩).2 ⟨a, b, after, rfl, hdigits, hle, rfl⟩
    | @braced digits v hdigits hpos hle =>
      cases htext
      have hvalue := (signedHexValue?_eq_some_iff digits _).2 (.inl ⟨hpos, hdigits⟩)
      have hbraced := (resolveBraced_eq_ok_iff (digits ++ '\x7d' :: after) ⟨v, digits.length + 3⟩).2
        ⟨digits, after, rfl, by rwa [hdigits.byteLen_eq], hvalue, rfl⟩
      simpa [resolve] using hbraced
    | @four digits v hchar hdigits hlen =>
      cases htext
      have hfour := (resolveFour_eq_ok_iff (digits ++ after) ⟨v, 5⟩).2
        ⟨digits, after, rfl, hlen, hdigits, rfl⟩
      rw [List.cons_append]
      unfold resolve
      split
      · next heq => cases heq
      · next heq => cases heq
      · next rest heq =>
        -- The first of the digits is no brace.
        cases digits with
        | nil => cases hlen
        | cons d digits =>
          cases heq
          exact absurd rfl (hdigits.forall _ List.mem_cons_self).2.2.1
      · next heq =>
        cases heq
        rw [if_pos hchar, hfour, List.length_cons, hlen]
      · next hu heq => cases heq; exact (hu rfl).elim
  · cases h with
    | @mk digits v hdigits hpos hle =>
      cases htext
      have hvalue := (signedHexValue?_eq_some_iff ('+' :: digits) _).2
        (.inr ⟨digits, rfl, hpos, hdigits⟩)
      have hbytes : byteLen ('+' :: digits) = 1 + digits.length := by
        rw [byteLen_cons, hdigits.byteLen_eq]
        rfl
      have hbraced := (resolveBraced_eq_ok_iff ('+' :: digits ++ '\x7d' :: after)
        ⟨v, digits.length + 4⟩).2 ⟨'+' :: digits, after, rfl, by omega, hvalue, rfl⟩
      simpa [resolve] using hbraced

/-- An escape is resolved when it is an item. -/
theorem resolve_eq_ok_iff (inChar : Bool) (rest : List Char) (r : Resolved) :
    resolve inChar rest = .ok r ↔ ∃ escape after, rest = escape ++ after ∧
      Accepted inChar ('\\' :: escape) r.value ∧ r.size = escape.length := by
  constructor
  · intro h
    unfold resolve at h
    split at h
    · cases h
    · next rest =>
      obtain ⟨a, b, after, rfl, hdigits, hle, hsize⟩ := (resolveByte_eq_ok_iff rest r).1 h
      exact ⟨['x', a, b], after, rfl, .inl (.byte hdigits hle), hsize⟩
    · next rest =>
      obtain ⟨cs, after, rfl, hle, hvalue, hsize⟩ := (resolveBraced_eq_ok_iff rest r).1 h
      refine ⟨'u' :: '{' :: (cs ++ ['}']), after, by simp, ?_, by simp [hsize]⟩
      rcases (signedHexValue?_eq_some_iff cs _).1 hvalue with ⟨hpos, hdigits⟩ |
        ⟨digits, rfl, hpos, hdigits⟩
      · rw [hdigits.byteLen_eq] at hle
        exact .inl (.braced hdigits hpos hle)
      · have hbytes : byteLen ('+' :: digits) = 1 + digits.length := by
          rw [byteLen_cons, hdigits.byteLen_eq]
          rfl
        exact .inr (.mk hdigits hpos (by omega))
    · next rest _ =>
      split at h
      · next hchar =>
        obtain ⟨digits, after, rfl, hlen, hdigits, hsize⟩ := (resolveFour_eq_ok_iff rest r).1 h
        exact ⟨'u' :: digits, after, rfl, .inl (.four hchar hdigits hlen), by simp [hsize, hlen]⟩
      · cases h
    · next c after _ _ _ =>
      split at h
      · next v hv =>
        cases h
        exact ⟨[c], after, rfl, .inl (.letter ((simple?_eq_some_iff c v).1 hv)), rfl⟩
      · cases h
  · rintro ⟨escape, after, rfl, hitem, hsize⟩
    rw [resolve_of_accepted hitem, ← hsize]

/-! ## The body -/

/-- An item that is not an escape is one character. -/
theorem accepted_cases {inChar : Bool} {text : List Char} {v : Char} (h : Accepted inChar text v) :
    (text = [v] ∧ v ≠ '\\') ∨ ∃ escape, text = '\\' :: escape := by
  rcases h with h | h
  · cases h with
    | plain hc => exact .inl ⟨rfl, hc⟩
    | letter => exact .inr ⟨_, rfl⟩
    | byte => exact .inr ⟨_, rfl⟩
    | braced => exact .inr ⟨_, rfl⟩
    | four => exact .inr ⟨_, rfl⟩
  · cases h
    exact .inr ⟨_, rfl⟩

/-- A row of items is resolved to the characters they stand for. -/
theorem unescapeFrom_of_isRow {inChar : Bool} {body value : List Char}
    (h : IsRow (Accepted inChar) body value) (offset : Nat) :
    unescapeFrom inChar offset body = .ok value := by
  obtain ⟨items, hitems, rfl, rfl⟩ := h
  induction items generalizing offset with
  | nil => rw [List.flatMap_nil, unescapeFrom]; rfl
  | cons item items ih =>
    obtain ⟨text, v⟩ := item
    have hlater : ∀ o, unescapeFrom inChar o (items.flatMap (·.1)) = .ok (items.map (·.2)) :=
      fun o => ih o fun i hi => hitems i (List.mem_cons_of_mem _ hi)
    have hitem : Accepted inChar text v := hitems (text, v) List.mem_cons_self
    rw [List.flatMap_cons, List.map_cons]
    rcases accepted_cases hitem with ⟨rfl, hv⟩ | ⟨escape, rfl⟩
    · rw [List.singleton_append, unescapeFrom, if_neg hv, hlater]
      rfl
    · rw [List.cons_append, unescapeFrom, if_pos rfl, resolve_of_accepted hitem]
      dsimp only
      rw [List.drop_left, hlater]
      rfl

/-- The text of a resolved escape, cut off. -/
theorem accepted_take {inChar : Bool} {rest : List Char} {r : Resolved}
    (h : resolve inChar rest = .ok r) : Accepted inChar ('\\' :: rest.take r.size) r.value := by
  obtain ⟨escape, after, rfl, hitem, hsize⟩ := (resolve_eq_ok_iff inChar rest r).1 h
  rwa [hsize, List.take_left]

theorem map_eq_ok {ε α β : Type} {f : α → β} {e : Except ε α} {b : β} (h : e.map f = .ok b) :
    ∃ a, e = .ok a ∧ b = f a := by
  cases e with
  | ok a => cases h; exact ⟨a, rfl, rfl⟩
  | error err => cases h

/-- What resolving succeeds on is a row of items. -/
theorem isRow_of_unescapeFrom {inChar : Bool} {offset : Nat} {body value : List Char}
    (h : unescapeFrom inChar offset body = .ok value) : IsRow (Accepted inChar) body value := by
  fun_induction unescapeFrom inChar offset body generalizing value with
  | case1 offset =>
    cases h
    exact .nil
  | case2 offset rest n hresolve => cases h
  | case3 offset rest r hresolve ih =>
    obtain ⟨later, hlater, rfl⟩ := map_eq_ok h
    have hrow := (ih hlater).cons (accepted_take hresolve)
    rwa [List.cons_append, List.take_append_drop] at hrow
  | case4 offset c rest hc ih =>
    obtain ⟨later, hlater, rfl⟩ := map_eq_ok h
    exact (ih hlater).cons (.inl (.plain hc))

/-- What resolving fails on has a fault behind a row of items. -/
theorem isFault_of_unescapeFrom {inChar : Bool} {offset : Nat} {body : List Char} {range : Span}
    (h : unescapeFrom inChar offset body = .error range) :
    IsFault (Accepted inChar) offset body range := by
  -- The first item that cannot be read is at fault, and what stands before it is a row of items.
  fun_induction unescapeFrom inChar offset body with
  | case1 offset => cases h
  | case2 offset rest n hresolve =>
    cases h
    obtain ⟨bad, after, rfl, rfl⟩ := resolve_error hresolve
    refine ⟨[], [], bad, after, rfl, .nil, ?_, ?_⟩
    · -- An item here would have been resolved.
      rintro front v ⟨back, hfront⟩ hitem
      rcases accepted_cases hitem with ⟨rfl, hv⟩ | ⟨escape, rfl⟩
      · cases hfront
        exact hv rfl
      · rw [List.cons_append, List.cons_append, List.cons.injEq] at hfront
        rw [← hfront.2, resolve_of_accepted hitem] at hresolve
        cases hresolve
    · rw [List.nil_append, byteLen_cons]
      rfl
  | case3 offset rest r hresolve ih =>
    have hfault : IsFault (Accepted inChar) offset
        (('\\' :: rest.take r.size) ++ rest.drop r.size) range := by
      refine .cons (accepted_take hresolve) ?_
      rw [byteLen_cons, ← Nat.add_assoc]
      exact ih (map_eq_error h)
    rwa [List.cons_append, List.take_append_drop] at hfault
  | case4 offset c rest hc ih =>
    have hfault : IsFault (Accepted inChar) offset ([c] ++ rest) range := by
      refine .cons (.inl (.plain hc)) ?_
      rw [byteLen_cons, byteLen_nil, Nat.add_zero]
      exact ih (map_eq_error h)
    exact hfault

/-- The body of a literal is resolved exactly if it is a row of items, and then to the characters
    that the items stand for.  Otherwise the range that is reported begins at the first backslash
    that does not begin an item. -/
theorem unescape_by_grammar (inChar : Bool) (body : List Char) :
    (∀ value, unescape inChar body = .ok value ↔ IsRow (Accepted inChar) body value) ∧
    ((¬ ∃ value, IsRow (Accepted inChar) body value) →
      ∃ range, unescape inChar body = .error range ∧ IsFault (Accepted inChar) 0 body range) := by
  have hiff : ∀ value, unescape inChar body = .ok value ↔ IsRow (Accepted inChar) body value :=
    fun value => ⟨isRow_of_unescapeFrom, fun h => unescapeFrom_of_isRow h 0⟩
  refine ⟨hiff, ?_⟩
  intro hnone
  cases h : unescape inChar body with
  | ok value => exact absurd ⟨value, (hiff value).1 h⟩ hnone
  | error range => exact ⟨range, rfl, isFault_of_unescapeFrom h⟩

/-- A plus sign in front of the digits is read over: the body is no row of items of the grammar and
    is resolved all the same. -/
theorem signed_code_point_resolved :
    unescape false ['\\', 'u', '{', '+', '4', '1', '}'] = .ok ['A'] ∧
      ¬ ∃ value, IsRow (Item false) ['\\', 'u', '{', '+', '4', '1', '}'] value := by
  have hdigits : Hexadecimal ['4', '1'] 'A'.toNat :=
    ⟨[4, 1], .cons rfl (.cons rfl .nil), by decide⟩
  have hitem : Accepted false ['\\', 'u', '{', '+', '4', '1', '}'] 'A' :=
    .inr (.mk hdigits (by decide) (by decide))
  have hrow : IsRow (Accepted false) ['\\', 'u', '{', '+', '4', '1', '}'] ['A'] := IsRow.cons hitem .nil
  refine ⟨unescapeFrom_of_isRow hrow 0, ?_⟩
  rintro ⟨value, items, hitems, htext, -⟩
  cases items with
  | nil => cases htext
  | cons item items =>
    obtain ⟨text, v⟩ := item
    have hitem : Item false text v := hitems (text, v) List.mem_cons_self
    have hfront : text <+: ['\\', 'u', '{', '+', '4', '1', '}'] := ⟨_, htext.symm⟩
    cases hitem with
    | plain hc => exact hc (List.cons_prefix_cons.1 hfront).1
    | letter hmem =>
      obtain rfl := (List.cons_prefix_cons.1 (List.cons_prefix_cons.1 hfront).2).1
      simp [letters] at hmem
    | byte => exact absurd (List.cons_prefix_cons.1 (List.cons_prefix_cons.1 hfront).2).1 (by decide)
    | @braced digits _ hdigits hpos =>
      -- The first of the digits would be the sign.
      cases digits with
      | nil => cases hpos
      | cons d digits =>
        have hinside := (List.cons_prefix_cons.1 (List.cons_prefix_cons.1
          (List.cons_prefix_cons.1 hfront).2).2).2
        obtain rfl := (List.cons_prefix_cons.1 hinside).1
        exact absurd rfl (hdigits.forall _ List.mem_cons_self).2.2.2
    | four hchar => cases hchar

end Stencil.Escape
