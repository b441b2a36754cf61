/-
  Literal — escapes and numbers by byte offsets.

  The body of a quoted literal and the text of a number are texts of their own, and offsets count from
  their beginnings.  An escape reaches for its digits by offsets from the backslash, which is safe only as
  far as the characters in between are single bytes.  The digits of fixed number are asked for, and may be
  missing (`resolve?`); everything else is a cut that has to be possible.
-/
import Stencil.Proofs.Checked.Text

namespace Stencil.Checked

variable {α : Type} {inChar : Bool} {body raw rest cs suffix : List Char} {i fuel : Nat}

/-- Texts of a fixed number of bytes are the same for the source and for what stands at the offset. -/
theorem At.slice_bytes (h : At body i rest) (n : Nat) :
    slice? ⟨i, i + n⟩ body = (splitAtByte? n rest).map (·.1) := by
  obtain ⟨front, rfl, rfl⟩ := h
  rw [slice?, if_pos (Nat.le_add_right _ _), splitAtByte?_append]
  simp only [Option.bind_eq_bind, Option.bind_some, Nat.add_sub_cancel_left]
  cases splitAtByte? n rest <;> rfl

/-! ## Escapes -/

open Escape (Resolved hexValue? signedHexValue? scalar? simple?)

/-- The value of a resolution, or the bytes of the faulty escape. -/
def orRange (range : Span) : Option Resolved → Except Span Resolved
  | some r => .ok r
  | none => .error range

/-- The escape with two digits at byte `i`. -/
def resolveByte? (body : List Char) (i : Nat) : Except Span Resolved :=
  match slice? ⟨i + 2, i + 4⟩ body with
  | none => .error ⟨i, byteLen body⟩
  | some digits => orRange ⟨i, i + 4⟩ do
    let n ← hexValue? digits
    if n ≤ 0x7F then return ⟨← scalar? n, 3⟩ else none

/-- The escape with digits in braces at byte `i`. -/
def resolveBraced? (body : List Char) (i : Nat) : Option (Except Span Resolved) := do
  let tail ← from? i body
  let opened := tail.takeWhile (· ≠ '}')
  if opened.length = tail.length then return .error ⟨i, byteLen body⟩
  else
    let digits ← slice? ⟨i + 3, i + byteLen opened⟩ body
    return orRange ⟨i, i + byteLen opened + 1⟩ do
      if byteLen digits ≤ 6 then
        return ⟨← (signedHexValue? digits).bind scalar?, digits.length + 3⟩
      else none

/-- The escape with four digits at byte `i`. -/
def resolveFour? (body : List Char) (i : Nat) : Except Span Resolved :=
  match slice? ⟨i + 2, i + 6⟩ body with
  | none => .error ⟨i, byteLen body⟩
  | some digits => orRange ⟨i, i + 6⟩ do
    return ⟨← (hexValue? digits).bind scalar?, 5⟩

/-- Resolves the escape whose backslash is byte `i` of the body; `cs` follows the backslash.  A failure is
    the bytes of the faulty escape. -/
def resolve? (inChar : Bool) (body : List Char) (i : Nat) :
    List Char → Option (Except Span Resolved)
  | [] => some (.error ⟨i, byteLen body⟩)
  | 'x' :: _ => some (resolveByte? body i)
  | 'u' :: '{' :: _ => resolveBraced? body i
  | 'u' :: _ => some (if inChar then resolveFour? body i else .error ⟨i, i + 2⟩)
  | c :: _ =>
    match simple? c with
    | some value => some (.ok ⟨value, 1⟩)
    | none => some (.error ⟨i, i + 1 + c.utf8Size⟩)

/-- The value of the body from byte `i` on, where `cs` is left of it. -/
def unescapeFrom? (inChar : Bool) (body : List Char) :
    Nat → Nat → List Char → Option (Except Span (List Char))
  | _, _, [] => some (.ok [])
  | 0, _, _ :: _ => none
  | fuel + 1, i, c :: rest =>
    if c = '\\' then do
      match ← resolve? inChar body i rest with
      | .error range => return .error range
      | .ok r =>
        let more ← unescapeFrom? inChar body fuel (i + 1 + byteLen (rest.take r.size))
          (rest.drop r.size)
        return more.map (r.value :: ·)
    else do
      let more ← unescapeFrom? inChar body fuel (i + c.utf8Size) rest
      return more.map (c :: ·)

/-- The value of the body of a literal, or the bytes of its first faulty escape. -/
def unescape? (inChar : Bool) (body : List Char) : Option (Except Span (List Char)) :=
  unescapeFrom? inChar body body.length 0 body

/-- The same result, with the bytes of a faulty escape where the backslash is byte `i`. -/
def faultAt (i : Nat) : Except Nat Resolved → Except Span Resolved :=
  Except.mapError fun n => ⟨i, i + n⟩

theorem faultAt_orBytes (i n : Nat) (r : Option Resolved) :
    faultAt i (Escape.orBytes n r) = orRange ⟨i, i + n⟩ r := by
  cases r <;> rfl

theorem resolveByte?_eq (h : At body i ('\\' :: 'x' :: rest)) :
    resolveByte? body i = faultAt i (Escape.resolveByte rest) := by
  have hrest : At body (i + 2) rest := h.cons.cons
  have hlen : byteLen body = i + (2 + byteLen rest) := by
    rw [hrest.byteLen, Nat.add_assoc]
  unfold resolveByte? Escape.resolveByte
  rw [show i + 4 = i + 2 + 2 from rfl, hrest.slice_bytes 2, hlen]
  cases splitAtByte? 2 rest with
  | none => rfl
  | some cut => exact (faultAt_orBytes i 4 _).symm

theorem resolveFour?_eq (h : At body i ('\\' :: 'u' :: rest)) :
    resolveFour? body i = faultAt i (Escape.resolveFour rest) := by
  have hrest : At body (i + 2) rest := h.cons.cons
  have hlen : byteLen body = i + (2 + byteLen rest) := by
    rw [hrest.byteLen, Nat.add_assoc]
  unfold resolveFour? Escape.resolveFour
  rw [show i + 6 = i + 2 + 4 from rfl, hrest.slice_bytes 4, hlen]
  cases splitAtByte? 4 rest with
  | none => rfl
  | some cut => exact (faultAt_orBytes i 6 _).symm

theorem resolveBraced?_eq (h : At body i ('\\' :: 'u' :: '{' :: rest)) :
    resolveBraced? body i = some (faultAt i (Escape.resolveBraced rest)) := by
  have hrest : At body (i + 3) rest := h.cons.cons.cons
  have hlen : byteLen body = i + (3 + byteLen rest) := by
    rw [hrest.byteLen, Nat.add_assoc]
  -- The brace that is found is not one of the three characters in front.
  have hopened : ('\\' :: 'u' :: '{' :: rest).takeWhile (· ≠ '}') =
      '\\' :: 'u' :: '{' :: rest.takeWhile (· ≠ '}') := rfl
  unfold resolveBraced? Escape.resolveBraced
  rw [h.from?]
  simp only [Option.bind_eq_bind, Option.bind_some, Option.pure_def, hopened, List.length_cons,
    Nat.add_right_cancel_iff]
  split
  · rw [hlen]
    rfl
  · have hclose : i + byteLen ('\\' :: 'u' :: '{' :: rest.takeWhile (· ≠ '}')) =
        i + 3 + byteLen (rest.takeWhile (· ≠ '}')) := by
      show i + (1 + (1 + (1 + _))) = _
      omega
    have hslice : slice? ⟨i + 3, i + 3 + byteLen (rest.takeWhile (· ≠ '}'))⟩ body =
        some (rest.takeWhile (· ≠ '}')) := by
      rw [← List.takeWhile_append_dropWhile (p := (· ≠ '}')) (l := rest)] at hrest
      exact hrest.slice rfl
    rw [hclose, hslice, faultAt_orBytes]
    refine congrArg (fun n => some (orRange ⟨i, n⟩ _)) ?_
    omega

theorem resolve?_eq (h : At body i ('\\' :: cs)) :
    resolve? inChar body i cs = some (faultAt i (Escape.resolve inChar cs)) := by
  unfold resolve?
  split
  · rw [h.byteLen]
    rfl
  · rw [resolveByte?_eq h]
    rfl
  · rw [resolveBraced?_eq h]
    rfl
  · next rest hbrace =>
    rw [resolveFour?_eq h, Escape.resolve]
    · cases inChar <;> rfl
    · exact hbrace
  · next c rest hx hbrace hu =>
    rw [Escape.resolve]
    · cases simple? c with
      | some value => rfl
      | none => rw [Nat.add_assoc]; rfl
    · exact hx
    · exact hbrace
    · exact hu

theorem unescapeFrom?_eq (h : At body i cs) (hfuel : cs.length ≤ fuel) :
    unescapeFrom? inChar body fuel i cs = some (Escape.unescapeFrom inChar i cs) := by
  induction fuel generalizing i cs with
  | zero =>
    obtain rfl := List.eq_nil_of_length_eq_zero (Nat.le_zero.1 hfuel)
    rw [unescapeFrom?, Escape.unescapeFrom]
  | succ fuel ih =>
    cases cs with
    | nil => rw [unescapeFrom?, Escape.unescapeFrom]
    | cons c rest =>
      rw [List.length_cons] at hfuel
      rw [unescapeFrom?, Escape.unescapeFrom]
      split
      · next hc =>
        subst hc
        rw [resolve?_eq h]
        cases Escape.resolve inChar rest with
        | error n => rfl
        | ok r =>
          have hone : At body (i + 1) rest := h.cons
          show (unescapeFrom? inChar body fuel _ _ >>= _) = _
          rw [ih (hone.drop r.size) (by rw [List.length_drop]; omega)]
          rfl
      · rw [ih h.cons (by omega)]
        rfl

theorem unescape?_eq (inChar : Bool) (body : List Char) :
    unescape? inChar body = some (Escape.unescape inChar body) :=
  unescapeFrom?_eq (At.start body) (Nat.le_refl _)

/-! ## Numbers -/

open Numeral (isDigitOrBar isHexDigit startsDigit isIntSuffix isFloatSuffix)

/-- The number of bytes of an optional sign. -/
def signSize : List Char → Nat
  | '+' :: _ => 1
  | '-' :: _ => 1
  | _ => 0

/-- Reads an optional fraction at byte `i`: whether there is one, and where it ends. -/
def fraction? (raw : List Char) (i : Nat) : Option (Option (Bool × Nat)) := do
  match ← from? i raw with
  | '.' :: digits =>
    return if startsDigit digits then some (true, i + 1 + byteLen (digits.takeWhile isDigitOrBar))
      else none
  | _ => return some (false, i)

/-- Reads an optional exponent at byte `i`: whether there is one, and where it ends. -/
def exponent? (raw : List Char) (i : Nat) : Option (Option (Bool × Nat)) := do
  match ← from? i raw with
  | [] => return some (false, i)
  | c :: exponent =>
    if c == 'e' || c == 'E' then
      let sign := signSize exponent
      let row ← from? sign exponent
      let n := byteLen (row.takeWhile isDigitOrBar)
      let digits ← slice? ⟨sign, sign + n⟩ exponent
      return if digits.any (·.isDigit) then some (true, i + 1 + sign + n) else none
    else return some (false, i)

/-- The kind of a decimal number, and where its suffix begins. -/
def splitDecimal? (raw : List Char) : Option (Option (NumberKind × Nat)) := do
  match ← fraction? raw (byteLen (raw.takeWhile isDigitOrBar)) with
  | none => return none
  | some fraction =>
    match ← exponent? raw fraction.2 with
    | none => return none
    | some exponent =>
      let suffix ← from? exponent.2 raw
      let kind := if fraction.1 || exponent.1 then NumberKind.float else .int
      return if suffix.isEmpty then some (kind, exponent.2)
        else if isFloatSuffix suffix then some (.float, exponent.2)
        else if kind == .int && isIntSuffix suffix then some (.int, exponent.2)
        else none

/-- The kind of a number with a radix mark, and where its suffix begins. -/
def splitRadix? (inRow isDigit : Char → Bool) (raw : List Char) :
    Option (Option (NumberKind × Nat)) := do
  let row ← from? 2 raw
  let n := byteLen (row.takeWhile inRow)
  let parts ← splitAtByte? n row
  return if parts.1.any (· ≠ '_') && parts.1.all (fun c => c == '_' || isDigit c)
      && (parts.2.isEmpty || isIntSuffix parts.2) then some (.int, 2 + n)
    else none

/-- The kind of a number literal, and where its suffix begins. -/
def splitNumber? (raw : List Char) : Option (Option (NumberKind × Nat)) :=
  match raw with
  | '0' :: 'x' :: _ => splitRadix? (fun c => isHexDigit c || c == '_') isHexDigit raw
  | '0' :: 'o' :: _ => splitRadix? isDigitOrBar (fun c => c.isDigit && decide (c ≤ '7')) raw
  | '0' :: 'b' :: _ => splitRadix? isDigitOrBar (fun c => c.isDigit && decide (c ≤ '1')) raw
  | c :: _ => if c.isDigit then splitDecimal? raw else some none
  | [] => some none

/-- The number literal written `raw`. -/
def number? (raw : List Char) (negative : Bool) : Option (Option Number) := do
  match ← splitNumber? raw with
  | none => return none
  | some parts =>
    let suffix ←
      if parts.2 < byteLen raw then (from? parts.2 raw).map (some ∘ String.ofList) else some none
    return some ⟨String.ofList raw, parts.1, suffix, negative⟩

/-- The program ends a part of the text at the offset where the rest stands, and refuses it where it is
    refused. -/
inductive Ends (raw : List Char) : Option (Option (α × Nat)) → Option (α × List Char) → Prop
  | refused : Ends raw (some none) none
  | ended {a : α} {i : Nat} {rest : List Char} (h : At raw i rest) :
      Ends raw (some (some (a, i))) (some (a, rest))

theorem fraction?_ends (h : At raw i rest) : Ends raw (fraction? raw i) (Numeral.fraction? rest) := by
  unfold fraction?
  rw [h.from?]
  simp only [Option.bind_eq_bind, Option.bind_some, Option.pure_def]
  split
  · next digits =>
    have hdigits : At raw (i + 1) digits := h.cons
    rw [Numeral.fraction?]
    split
    · exact .ended (hdigits.dropWhile _)
    · exact .refused
  · next hpoint =>
    rw [Numeral.fraction?]
    · exact .ended h
    · exact hpoint

/-- The sign is dropped by its size. -/
theorem At.sign (cs : List Char) : At cs (signSize cs) (Numeral.dropSign cs) := by
  unfold signSize
  split
  · exact (At.start _).cons
  · exact (At.start _).cons
  · next hplus hminus =>
    rw [Numeral.dropSign]
    · exact At.start cs
    · exact hplus
    · exact hminus

theorem exponent?_ends (h : At raw i rest) : Ends raw (exponent? raw i) (Numeral.exponent? rest) := by
  unfold exponent? Numeral.exponent?
  rw [h.from?]
  cases rest with
  | nil => exact .ended h
  | cons c exponent =>
    simp only [Option.bind_eq_bind, Option.bind_some, Option.pure_def]
    split
    · next hmark =>
      have hsize : c.utf8Size = 1 := by
        rcases Bool.or_eq_true_iff.1 hmark with hc | hc <;> rw [eq_of_beq hc] <;> rfl
      have hexponent : At raw (i + 1) exponent := hsize ▸ h.cons
      have hsign := At.sign exponent
      have hrow : At raw (i + 1 + signSize exponent) (Numeral.dropSign exponent) := by
        obtain ⟨sign, htext, hlen⟩ := hsign
        rw [htext] at hexponent
        rw [hlen]
        exact hexponent.append
      have hdigits : slice? ⟨signSize exponent, signSize exponent +
          byteLen ((Numeral.dropSign exponent).takeWhile isDigitOrBar)⟩ exponent =
            some ((Numeral.dropSign exponent).takeWhile isDigitOrBar) := hsign.slice_takeWhile _
      rw [hsign.from?, Option.bind_some, hdigits, Option.bind_some]
      split
      · exact .ended (hrow.dropWhile _)
      · exact .refused
    · exact .ended h

theorem splitDecimal?_ends (raw : List Char) :
    Ends raw (splitDecimal? raw) (Numeral.splitDecimal? raw) := by
  have hfraction := fraction?_ends ((At.start raw).dropWhile isDigitOrBar)
  rw [Nat.zero_add] at hfraction
  unfold splitDecimal? Numeral.splitDecimal?
  generalize fraction? raw (byteLen (raw.takeWhile isDigitOrBar)) = found at hfraction ⊢
  generalize Numeral.fraction? (raw.dropWhile isDigitOrBar) = fraction at hfraction ⊢
  cases hfraction with
  | refused => exact .refused
  | @ended hasFraction i afterFraction hat =>
    have hexponent := exponent?_ends hat
    simp only [Option.bind_eq_bind, Option.bind_some, Option.pure_def]
    generalize exponent? raw i = found at hexponent ⊢
    generalize Numeral.exponent? afterFraction = exponent at hexponent ⊢
    cases hexponent with
    | refused => exact .refused
    | @ended hasExponent j suffix hsuffix =>
      simp only [Option.bind_some, hsuffix.from?]
      generalize (if (hasFraction || hasExponent) = true then NumberKind.float else .int) = kind
      split
      · next hempty =>
        rw [List.isEmpty_iff] at hempty
        subst hempty
        exact .ended hsuffix
      · split
        · exact .ended hsuffix
        · split
          · exact .ended hsuffix
          · exact .refused

theorem splitRadix?_ends {inRow isDigit : Char → Bool} (h : At raw 2 rest) :
    Ends raw (splitRadix? inRow isDigit raw) (Numeral.splitRadix? inRow isDigit rest) := by
  have hcut : splitAtByte? (byteLen (rest.takeWhile inRow)) rest =
      some (rest.takeWhile inRow, rest.dropWhile inRow) := by
    have happend := splitAtByte?_append (rest.takeWhile inRow) (rest.dropWhile inRow)
    rwa [List.takeWhile_append_dropWhile] at happend
  unfold splitRadix? Numeral.splitRadix?
  simp only [h.from?, hcut, Option.bind_eq_bind, Option.bind_some, Option.pure_def]
  split
  · exact .ended (h.dropWhile _)
  · exact .refused

theorem splitNumber?_ends (raw : List Char) :
    Ends raw (splitNumber? raw) (Numeral.split? raw) := by
  have hradix : ∀ {a b : Char} {rest : List Char}, a.utf8Size = 1 → b.utf8Size = 1 →
      At (a :: b :: rest) 2 rest := by
    intro a b rest ha hb
    have h := (At.start (a :: b :: rest)).cons.cons
    rwa [ha, hb] at h
  unfold splitNumber?
  split
  · exact splitRadix?_ends (hradix rfl rfl)
  · exact splitRadix?_ends (hradix rfl rfl)
  · exact splitRadix?_ends (hradix rfl rfl)
  · next c cs hx ho hb =>
    rw [Numeral.split?]
    · split
      · exact splitDecimal?_ends (c :: cs)
      · exact .refused
    · exact hx
    · exact ho
    · exact hb
  · exact .refused

theorem number?_eq (raw : List Char) (negative : Bool) :
    number? raw negative = some (Numeral.number? raw negative) := by
  have hsplit := splitNumber?_ends raw
  unfold number? Numeral.number?
  generalize splitNumber? raw = found at hsplit ⊢
  generalize Numeral.split? raw = parts at hsplit ⊢
  cases hsplit with
  | refused => rfl
  | @ended kind i suffix hat =>
    have hlen := hat.byteLen
    simp only [Option.bind_eq_bind, Option.bind_some, Option.pure_def]
    cases suffix with
    | nil =>
      rw [byteLen_nil] at hlen
      rw [if_neg (by omega)]
      rfl
    | cons c cs =>
      have hpos := byteLen_pos (List.cons_ne_nil c cs)
      rw [if_pos (by omega), hat.from?]
      rfl

end Stencil.Checked
