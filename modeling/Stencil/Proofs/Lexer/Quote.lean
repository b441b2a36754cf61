/-
  Quote — quoted text is read back as the text.

  A character between quotes stands for itself, or is written with a backslash: a letter or quote for
  a few of them, the code point in braces for the rest.  Two things have to come out right.  The
  literal must end at its closing quote and not before (`quoteEnd_flatMap`), and resolving its escapes
  must give the characters back (`unescapeFrom_flatMap`).  Both go character by character: what one
  character is written as is passed over as a whole, whatever follows.
-/
import Stencil.Proofs.Lexer.Spelling
import Stencil.Text.Quoted

namespace Stencil

/-! ## Hexadecimal digits -/

namespace Quoted

theorem digitChar_mem {n : Nat} (h : n < 16) : n.digitChar ∈ "0123456789abcdef".toList := by
  revert h
  revert n
  decide

/-- A code point is written with lower-case hexadecimal digits. -/
theorem mem_hex {n : Nat} {c : Char} (h : c ∈ hex n) : c ∈ "0123456789abcdef".toList := by
  unfold hex at h
  induction n using Nat.strongRecOn with
  | ind n ih =>
    rcases Nat.lt_or_ge n 16 with hlt | hge
    · rw [Nat.toDigits_of_lt_base hlt] at h
      rw [List.mem_singleton.1 h]
      exact digitChar_mem hlt
    · rw [Nat.toDigits_of_base_le (by decide) hge, List.mem_append, List.mem_singleton] at h
      rcases h with h | rfl
      · exact ih (n / 16) (by omega) h
      · exact digitChar_mem (Nat.mod_lt n (by decide))

/-- What holds of all hexadecimal digits holds of the digits of a number. -/
theorem forall_mem_hex {p : Char → Prop} [DecidablePred p]
    (h : ("0123456789abcdef".toList.all fun c => decide (p c)) = true) {n : Nat} :
    ∀ c ∈ hex n, p c := by
  intro c hc
  exact of_decide_eq_true (List.all_eq_true.1 h c (mem_hex hc))

theorem hex_ne_nil (n : Nat) : hex n ≠ [] := Nat.toDigits_ne_nil

/-- A code point has at most six digits. -/
theorem length_hex_le (c : Char) : (hex c.toNat).length ≤ 6 := by
  have hvalid : c.toNat < 0x110000 := by
    have := c.valid
    simp only [UInt32.isValidChar, Nat.isValidChar] at this
    have hnat : c.toNat = c.val.toNat := rfl
    omega
  exact (Nat.length_toDigits_le_iff (by decide) (by decide)).2 (by omega)

end Quoted

namespace Escape

theorem hexDigit?_digitChar {n : Nat} (h : n < 16) : hexDigit? n.digitChar = some n := by
  revert h
  revert n
  decide

theorem hexDigits?_append (a : Nat) (cs ds : List Char) :
    hexDigits? a (cs ++ ds) = (hexDigits? a cs).bind fun b => hexDigits? b ds := by
  induction cs generalizing a with
  | nil => rfl
  | cons c cs ih =>
    rw [List.cons_append, hexDigits?, hexDigits?]
    cases hexDigit? c with
    | none => rfl
    | some d => exact ih _

theorem hexDigits?_hex (n : Nat) : hexDigits? 0 (Quoted.hex n) = some n := by
  unfold Quoted.hex
  induction n using Nat.strongRecOn with
  | ind n ih =>
    rcases Nat.lt_or_ge n 16 with hlt | hge
    · rw [Nat.toDigits_of_lt_base hlt, hexDigits?, hexDigit?_digitChar hlt]
      show some (16 * 0 + n) = some n
      rw [Nat.mul_zero, Nat.zero_add]
    · rw [Nat.toDigits_of_base_le (by decide) hge, hexDigits?_append, ih (n / 16) (by omega),
        Option.bind_some, hexDigits?, hexDigit?_digitChar (Nat.mod_lt n (by decide))]
      show some (16 * (n / 16) + n % 16) = some n
      rw [Nat.div_add_mod]

theorem scalar?_toNat (c : Char) : scalar? c.toNat = some c := by
  have hvalid : c.toNat.isValidChar := c.valid
  unfold scalar?
  rw [dif_pos hvalid]
  rfl

theorem signedHexValue?_hex (n : Nat) : signedHexValue? (Quoted.hex n) = some n := by
  have hvalue := hexDigits?_hex n
  unfold signedHexValue?
  cases h : Quoted.hex n with
  | nil => exact absurd h (Quoted.hex_ne_nil n)
  | cons c cs =>
    rw [h] at hvalue
    have hmem : c ∈ "0123456789abcdef".toList := Quoted.mem_hex (by rw [h]; exact List.mem_cons_self)
    split
    · next heq =>
      cases heq
      exact absurd hmem (by decide)
    · exact hvalue

/-! ## Resolving escapes -/

/-- A code point in braces is resolved to its character. -/
theorem resolve_byCode (inChar : Bool) (c : Char) (rest : List Char) :
    resolve inChar ('u' :: '{' :: (Quoted.hex c.toNat ++ '}' :: rest)) =
      .ok ⟨c, (Quoted.hex c.toNat).length + 3⟩ := by
  have hascii : ∀ d ∈ Quoted.hex c.toNat, d ≠ '\x7d' ∧ d.utf8Size = 1 :=
    Quoted.forall_mem_hex (by decide)
  have hdigits : (Quoted.hex c.toNat ++ '}' :: rest).takeWhile (· ≠ '}') = Quoted.hex c.toNat := by
    rw [List.takeWhile_append_of_pos]
    · simp
    · intro d hd
      exact decide_eq_true (hascii d hd).1
  have hlen : byteLen (Quoted.hex c.toNat) ≤ 6 := by
    rw [byteLen_eq_length fun d hd => (hascii d hd).2]
    exact Quoted.length_hex_le c
  show resolveBraced _ = _
  unfold resolveBraced
  rw [hdigits]
  dsimp only
  rw [if_neg (by simp), if_pos hlen, signedHexValue?_hex, Option.bind_some, scalar?_toNat]
  rfl

/-- The text of an escape and the character it stands for. -/
theorem unescapeFrom_escape {quote : Char} (hquote : simple? quote = some quote) (inChar : Bool)
    (offset : Nat) (c : Char) (rest : List Char) :
    ∃ offset', unescapeFrom inChar offset (Quoted.escape quote c ++ rest) =
      (unescapeFrom inChar offset' rest).map (c :: ·) := by
  -- A backslash and a letter or quote.
  have hsimple : ∀ {v : Char}, simple? v = some c → v ≠ 'x' → v ≠ 'u' →
      ∃ offset', unescapeFrom inChar offset (['\\', v] ++ rest) =
        (unescapeFrom inChar offset' rest).map (c :: ·) := by
    intro v hv hx hu
    have hresolve : resolve inChar (v :: rest) = .ok ⟨c, 1⟩ := by
      unfold resolve
      split
      · next heq => cases heq
      · next heq => cases heq; exact absurd rfl hx
      · next heq => cases heq; exact absurd rfl hu
      · next heq => cases heq; exact absurd rfl hu
      · next heq => cases heq; rw [hv]
    refine ⟨offset + 1 + byteLen ((v :: rest).take 1), ?_⟩
    rw [List.cons_append, List.singleton_append, unescapeFrom, if_pos rfl, hresolve]
    rfl
  have hcode : ∃ offset', unescapeFrom inChar offset (Quoted.byCode c ++ rest) =
      (unescapeFrom inChar offset' rest).map (c :: ·) := by
    refine ⟨offset + 1 + byteLen (('u' :: '{' :: (Quoted.hex c.toNat ++ '}' :: rest)).take
      ((Quoted.hex c.toNat).length + 3)), ?_⟩
    have htext : Quoted.byCode c ++ rest =
        '\\' :: 'u' :: '{' :: (Quoted.hex c.toNat ++ '}' :: rest) := by
      show ('\\' :: 'u' :: '{' :: (Quoted.hex c.toNat ++ ['}'])) ++ rest = _
      simp
    have hdrop : ('u' :: '{' :: (Quoted.hex c.toNat ++ '}' :: rest)).drop
        ((Quoted.hex c.toNat).length + 3) = rest := by
      simp
    rw [htext, unescapeFrom, if_pos rfl, resolve_byCode]
    dsimp only
    rw [hdrop]
  have hplain : c ≠ '\\' → ∃ offset', unescapeFrom inChar offset ([c] ++ rest) =
      (unescapeFrom inChar offset' rest).map (c :: ·) := by
    intro hc
    refine ⟨offset + c.utf8Size, ?_⟩
    rw [List.singleton_append, unescapeFrom, if_neg hc]
  unfold Quoted.escape
  split
  · next h => subst h; exact hsimple rfl (by decide) (by decide)
  split
  · next h => subst h; exact hsimple rfl (by decide) (by decide)
  split
  · next h => subst h; exact hsimple rfl (by decide) (by decide)
  split
  · next h => subst h; exact hsimple rfl (by decide) (by decide)
  split
  · next h => subst h; exact hsimple rfl (by decide) (by decide)
  split
  · next h =>
    subst h
    refine hsimple hquote ?_ ?_
    · rintro rfl; cases hquote
    · rintro rfl; cases hquote
  split
  · exact hcode
  split
  · next hbackslash _ _ _ => exact hplain hbackslash
  · exact hcode

/-- Resolving the escapes of quoted characters gives the characters. -/
theorem unescapeFrom_flatMap {quote : Char} (hquote : simple? quote = some quote) (inChar : Bool)
    (offset : Nat) (cs : List Char) :
    unescapeFrom inChar offset (cs.flatMap (Quoted.escape quote)) = .ok cs := by
  induction cs generalizing offset with
  | nil => rw [List.flatMap_nil, unescapeFrom]
  | cons c cs ih =>
    obtain ⟨offset', hfirst⟩ := unescapeFrom_escape hquote inChar offset c
      (cs.flatMap (Quoted.escape quote))
    rw [List.flatMap_cons, hfirst, ih]
    rfl

end Escape

/-! ## The end of a literal -/

namespace Scan

/-- Characters that are neither quotes nor backslashes nor line ends are passed over. -/
theorem quoteEnd_plain {quote : Char} {cs : List Char}
    (h : ∀ c ∈ cs, c ≠ '\r' ∧ c ≠ '\n' ∧ c ≠ quote ∧ c ≠ '\\') {rest : List Char} {n : Nat}
    (hrest : quoteEnd quote false rest = .closed n) :
    quoteEnd quote false (cs ++ rest) = .closed (cs.length + n) := by
  induction cs with
  | nil => rw [List.nil_append, hrest, List.length_nil, Nat.zero_add]
  | cons c cs ih =>
    obtain ⟨hr, hn, hq, hb⟩ := h c List.mem_cons_self
    have hescaped : (decide (c = '\\') && !false) = false := by rw [decide_eq_false hb]; rfl
    rw [List.cons_append, quoteEnd, if_neg (by rintro (h | h); exacts [hr h, hn h]),
      if_neg (fun h => hq h.1), hescaped, ih fun x hx => h x (List.mem_cons_of_mem c hx)]
    show QuoteEnd.closed (cs.length + n + 1) = .closed (cs.length + 1 + n)
    rw [Nat.add_right_comm]

/-- A backslash and the character after it are passed over, even if that is a quote. -/
theorem quoteEnd_backslash {quote v : Char} (hquote : quote ≠ '\\') (hr : v ≠ '\r') (hn : v ≠ '\n')
    {rest : List Char} {n : Nat} (hrest : quoteEnd quote false rest = .closed n) :
    quoteEnd quote false ('\\' :: v :: rest) = .closed (n + 2) := by
  have hescaped : (decide (v = '\\') && !true) = false := Bool.and_false _
  rw [quoteEnd, if_neg (by decide), if_neg (fun h => hquote h.1.symm)]
  show (quoteEnd quote true (v :: rest)).later = _
  rw [quoteEnd, if_neg (by rintro (h | h); exacts [hr h, hn h]), if_neg (by simp), hescaped, hrest]
  rfl

/-- What a character is written as is passed over as a whole. -/
theorem quoteEnd_escape {quote : Char} (hquote : quote = '\x22' ∨ quote = '\x27') (c : Char)
    {rest : List Char} {n : Nat} (hrest : quoteEnd quote false rest = .closed n) :
    quoteEnd quote false (Quoted.escape quote c ++ rest) =
      .closed ((Quoted.escape quote c).length + n) := by
  have hbackslash : quote ≠ '\\' := by rcases hquote with rfl | rfl <;> decide
  have hsimple : ∀ {v : Char}, v ≠ '\r' → v ≠ '\n' →
      quoteEnd quote false (['\\', v] ++ rest) = .closed (['\\', v].length + n) := by
    intro v hr hn
    rw [List.cons_append, List.singleton_append, quoteEnd_backslash hbackslash hr hn hrest]
    show QuoteEnd.closed (n + 2) = .closed (2 + n)
    rw [Nat.add_comm]
  have hcode : quoteEnd quote false (Quoted.byCode c ++ rest) =
      .closed ((Quoted.byCode c).length + n) := by
    have hascii : ∀ d ∈ Quoted.hex c.toNat, d ≠ '\r' ∧ d ≠ '\n' ∧ d ≠ '\x22' ∧ d ≠ '\x27' ∧
        d ≠ '\\' := Quoted.forall_mem_hex (by decide)
    have hinside : ∀ d ∈ '{' :: (Quoted.hex c.toNat ++ ['}']), d ≠ '\r' ∧ d ≠ '\n' ∧ d ≠ quote ∧
        d ≠ '\\' := by
      intro d hd
      have hchars : d ≠ '\r' ∧ d ≠ '\n' ∧ d ≠ '\x22' ∧ d ≠ '\x27' ∧ d ≠ '\\' := by
        simp only [List.mem_cons, List.mem_append, List.not_mem_nil, or_false] at hd
        rcases hd with rfl | hd | rfl
        · decide
        · exact hascii d hd
        · decide
      obtain ⟨hr, hn, hdouble, hsingle, hb⟩ := hchars
      refine ⟨hr, hn, ?_, hb⟩
      rcases hquote with rfl | rfl
      · exact hdouble
      · exact hsingle
    have htext : Quoted.byCode c ++ rest =
        '\\' :: 'u' :: (('{' :: (Quoted.hex c.toNat ++ ['}'])) ++ rest) := rfl
    rw [htext, quoteEnd_backslash hbackslash (by decide) (by decide) (quoteEnd_plain hinside hrest)]
    show QuoteEnd.closed (('{' :: (Quoted.hex c.toNat ++ ['}'])).length + n + 2) =
      .closed ((('{' :: (Quoted.hex c.toNat ++ ['}'])).length + 1 + 1) + n)
    congr 1
    omega
  -- A character is written as a backslash and one character, by its code, or as itself.
  unfold Quoted.escape
  split
  · exact hsimple (by decide) (by decide)
  split
  · exact hsimple (by decide) (by decide)
  split
  · exact hsimple (by decide) (by decide)
  split
  · exact hsimple (by decide) (by decide)
  split
  · exact hsimple (by decide) (by decide)
  split
  · exact hsimple (by rcases hquote with rfl | rfl <;> decide)
      (by rcases hquote with rfl | rfl <;> decide)
  split
  · exact hcode
  split
  · next hline hreturn hback hplain _ _ =>
    refine quoteEnd_plain ?_ hrest
    intro d hd
    rw [List.mem_singleton.1 hd]
    exact ⟨hreturn, hline, hplain, hback⟩
  · exact hcode

/-- The first quote that is not escaped is the closing one. -/
theorem quoteEnd_flatMap {quote : Char} (hquote : quote = '\x22' ∨ quote = '\x27')
    (cs : List Char) :
    quoteEnd quote false (cs.flatMap (Quoted.escape quote) ++ [quote]) =
      .closed ((cs.flatMap (Quoted.escape quote)).length + 1) := by
  induction cs with
  | nil =>
    rw [List.flatMap_nil, List.nil_append, quoteEnd, if_neg (by rcases hquote with rfl | rfl <;> decide),
      if_pos ⟨rfl, rfl⟩]
    rfl
  | cons c cs ih =>
    rw [List.flatMap_cons, List.append_assoc, quoteEnd_escape hquote c ih, List.length_append,
      Nat.add_assoc]

end Scan

/-- Characters between quotes can be read back. -/
theorem isQuoted_flatMap {quote : Char} (hquote : quote = '\x22' ∨ quote = '\x27') (inChar : Bool)
    (cs : List Char) :
    IsQuoted quote inChar (quote :: cs.flatMap (Quoted.escape quote) ++ [quote]) cs := by
  refine ⟨cs.flatMap (Quoted.escape quote), rfl, Scan.quoteEnd_flatMap hquote cs, ?_⟩
  exact Escape.unescapeFrom_flatMap (by rcases hquote with rfl | rfl <;> rfl) inChar 0 cs

theorem isQuoted_text (cs : List Char) : IsQuoted '\x22' false (Quoted.text cs) cs :=
  isQuoted_flatMap (.inl rfl) false cs

theorem isQuoted_char (c : Char) : IsQuoted '\x27' true (Quoted.char c) [c] := by
  have h := isQuoted_flatMap (.inr rfl) true [c]
  rw [List.flatMap_cons, List.flatMap_nil, List.append_nil] at h
  exact h

end Stencil
