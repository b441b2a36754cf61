/-
  Scan — the lexeme at an offset inside a tag.

  What a scan counts in characters after the first, the program counts in bytes of the source, and it cuts
  the source to look at the body of a literal, at the digits of a number and at a word.  `foundAt` turns a
  scan into offsets; each lemma says that the program finds just that.

  Where the cuts could go wrong: behind an opening quote and in front of a closing one, which are single
  bytes; at the end of a number, which is counted in characters as if they were bytes, and they are
  (`byteLen_take_extent`); and at the first closing delimiter in a literal that is not closed, which is looked
  for at the beginnings of characters only.
-/
import Stencil.Proofs.Checked.Delims
import Stencil.Proofs.Checked.Literal

namespace Stencil.Checked

/-- What is found at an offset of a tag: a token and the offset after it, or a malformed lexeme. -/
inductive Found where
  | token (token : Token) (stop : Nat)
  | fault (fault : LexFault) (range : Span) (stop : Nat)

/-- The scan of the text that stands at byte `i`, in offsets of the source. -/
def foundAt (i : Nat) (text : List Char) : Scan → Found
  | .token token more => .token token (i + byteLen (text.take (more + 1)))
  | .fault fault range more => .fault fault (range.shift i) (i + byteLen (text.take (more + 1)))

variable {d : Delims} {kind : TagKind} {source rest cs : List Char} {i k n : Nat} {c quote : Char}
  {fault : LexFault} {token : Token}

theorem foundAt_token (hc : c.utf8Size = 1) :
    foundAt i (c :: cs) (.token token n) = .token token (i + 1 + byteLen (cs.take n)) := by
  rw [foundAt, List.take_succ_cons, byteLen_cons, hc, Nat.add_assoc]

/-- The bytes of a fault count from the first byte of the lexeme, which is a character of its own. -/
theorem foundAt_fault (hc : c.utf8Size = 1) {range : Span} :
    foundAt i (c :: cs) (.fault fault (range.shift 1) n) =
      .fault fault (range.shift (i + 1)) (i + 1 + byteLen (cs.take n)) := by
  have hshift : (range.shift 1).shift i = range.shift (i + 1) := by
    rw [Span.shift, Span.shift, Span.shift, Nat.add_assoc, Nat.add_assoc, Nat.add_comm 1]
  rw [foundAt, List.take_succ_cons, byteLen_cons, hc, Nat.add_assoc, hshift]

theorem foundAt_fault_from (hc : c.utf8Size = 1) (m : Nat) :
    foundAt i (c :: cs) (.fault fault ⟨0, 1 + m⟩ n) =
      .fault fault ⟨i, i + 1 + m⟩ (i + 1 + byteLen (cs.take n)) := by
  have hstop : 1 + m + i = i + 1 + m := by omega
  rw [foundAt, List.take_succ_cons, byteLen_cons, hc, Span.shift, Nat.zero_add, hstop,
    ← Nat.add_assoc i 1 (byteLen _)]

/-! ## Quoted literals -/

/-- The first of the offsets of the text where the tag is closed, or the end of the text; the text begins
    at byte `k`. -/
def firstEnd? (d : Delims) (kind : TagKind) (source : List Char) : List Char → Nat → Option Nat
  | [], k => some k
  | c :: cs, k => do
    match ← endAt? d (.tag kind) source k with
    | some _ => return k
    | none => firstEnd? d kind source cs (k + c.utf8Size)

/-- Reports the literal at byte `i` that is not closed before `limit`. -/
def unclosedQuote? (d : Delims) (kind : TagKind) (source : List Char) (fault : LexFault)
    (i limit : Nat) : Option Found := do
  let text ← slice? ⟨i + 1, limit⟩ source
  let stop ← firstEnd? d kind source text (i + 1)
  let part ← slice? ⟨i + 1, stop⟩ source
  return .fault fault ⟨i, i + 1 + byteLen (Scan.dropBlanksRight part)⟩ stop

/-- The offset after the literal at byte `i` and the text between its quotes, or the report that it is not
    closed. -/
def quoted? (d : Delims) (kind : TagKind) (source : List Char) (quote : Char) (fault : LexFault)
    (i : Nat) : Option (Except Found (Nat × List Char)) := do
  let rest ← from? (i + 1) source
  match Scan.quoteEnd quote false rest with
  | .cut n =>
    return .error (← unclosedQuote? d kind source fault i (i + 1 + byteLen (rest.take n)))
  | .closed n =>
    let stop := i + 1 + byteLen (rest.take n)
    let body ← slice? ⟨i + 1, ← sub? stop 1⟩ source
    return .ok (stop, body)

/-- The token between two offsets, by its length. -/
def tokenTo? (token : Token) (i stop : Nat) : Option Found := do
  return .token token (i + (← sub? stop i))

/-- The text literal at byte `i`. -/
def string? (d : Delims) (kind : TagKind) (source : List Char) (i : Nat) : Option Found := do
  match ← quoted? d kind source '\x22' .unclosedString i with
  | .error found => return found
  | .ok (stop, body) =>
    match ← unescape? false body with
    | .error range => return .fault .badEscape (range.shift (i + 1)) stop
    | .ok _ => tokenTo? .str i stop

/-- The character literal at byte `i`. -/
def char? (d : Delims) (kind : TagKind) (source : List Char) (i : Nat) : Option Found := do
  match ← quoted? d kind source '\x27' .unclosedChar i with
  | .error found => return found
  | .ok (stop, body) =>
    match ← unescape? true body with
    | .error range => return .fault .badEscape (range.shift (i + 1)) stop
    | .ok [_] => tokenTo? .char i stop
    | .ok [] => return .fault .emptyChar ⟨i, stop⟩ stop
    | .ok _ => return .fault .unclosedChar ⟨i, stop⟩ stop

theorem firstEnd?_eq (h : At source k cs) (n : Nat) :
    firstEnd? d kind source (cs.take n) k =
      some (k + byteLen (cs.take (Scan.closingWithin d kind n cs))) := by
  induction n generalizing k cs with
  | zero => rfl
  | succ n ih =>
    cases cs with
    | nil => rfl
    | cons c cs =>
      rw [List.take_succ_cons, firstEnd?, endAt?_eq h, Scan.closingWithin]
      rw [show ((d.pair (.tag kind)).bind fun p => p.closingAt (c :: cs)) = d.closingAt kind (c :: cs)
        from rfl]
      cases d.closingAt kind (c :: cs) with
      | some close => rfl
      | none =>
        show firstEnd? d kind source (cs.take n) (k + c.utf8Size) = _
        rw [ih h.cons, Nat.add_assoc]
        rfl

theorem quoted?_cut (h : At source i (c :: cs)) (hc : c.utf8Size = 1)
    (hquote : Scan.quoteEnd quote false cs = .cut n) :
    quoted? d kind source quote fault i =
      some (.error (foundAt i (c :: cs) (Scan.unclosedQuote d kind fault cs n))) := by
  have hinside : At source (i + 1) cs := hc ▸ h.cons
  rw [Scan.unclosedQuote, foundAt_fault_from hc]
  simp only [quoted?, unclosedQuote?, hinside.from?, hquote, hinside.slice_take,
    firstEnd?_eq hinside, Option.bind_eq_bind, Option.bind_some, Option.pure_def]

/-- The closing quote is the last of the bytes up to it. -/
theorem quoted?_closed (h : At source i (c :: cs)) (hc : c.utf8Size = 1) (hq : quote.utf8Size = 1)
    (hquote : Scan.quoteEnd quote false cs = .closed n) :
    quoted? d kind source quote fault i =
      some (.ok (i + 1 + byteLen (cs.take n), cs.take (n - 1))) := by
  have hinside : At source (i + 1) cs := hc ▸ h.cons
  obtain ⟨body, after, rfl, rfl, -⟩ := Scan.quoteEnd_closed hquote
  have htake : (body ++ quote :: after).take (body.length + 1) = body ++ [quote] :=
    List.take_length_add_append 1
  have hbody : (body ++ quote :: after).take (body.length + 1 - 1) = body := List.take_left
  have hslice : slice? ⟨i + 1, i + 1 + byteLen body⟩ source = some body := hinside.slice rfl
  have hsub : sub? (i + 1 + byteLen (body ++ [quote])) 1 = some (i + 1 + byteLen body) := by
    rw [byteLen_append, byteLen_cons, hq, byteLen_nil, ← Nat.add_assoc]
    exact sub?_add _ 1
  simp only [quoted?, hinside.from?, hquote, htake, hsub, hslice, Option.bind_eq_bind,
    Option.bind_some, Option.pure_def, hbody]

theorem tokenTo?_eq (hc : c.utf8Size = 1) :
    tokenTo? token i (i + 1 + byteLen (cs.take n)) = some (foundAt i (c :: cs) (.token token n)) := by
  have hlength : sub? (i + 1 + byteLen (cs.take n)) i = some (1 + byteLen (cs.take n)) := by
    rw [Nat.add_assoc, Nat.add_comm i]
    exact sub?_add _ i
  rw [foundAt_token hc, tokenTo?, hlength, Nat.add_assoc i 1]
  rfl

theorem string?_eq (h : At source i ('\x22' :: cs)) :
    string? d kind source i = some (foundAt i ('\x22' :: cs) (Scan.string d kind cs)) := by
  unfold string? Scan.string
  cases hquote : Scan.quoteEnd '\x22' false cs with
  | cut n =>
    rw [quoted?_cut h rfl hquote]
    rfl
  | closed n =>
    rw [quoted?_closed h rfl rfl hquote]
    show (unescape? false (cs.take (n - 1)) >>= _) = _
    rw [unescape?_eq]
    dsimp only
    cases Escape.unescape false (cs.take (n - 1)) with
    | error range => exact congrArg some (foundAt_fault rfl).symm
    | ok value => exact tokenTo?_eq rfl

theorem char?_eq (h : At source i ('\x27' :: cs)) :
    char? d kind source i = some (foundAt i ('\x27' :: cs) (Scan.char d kind cs)) := by
  unfold char? Scan.char
  cases hquote : Scan.quoteEnd '\x27' false cs with
  | cut n =>
    rw [quoted?_cut h rfl hquote]
    rfl
  | closed n =>
    rw [quoted?_closed h rfl rfl hquote]
    show (unescape? true (cs.take (n - 1)) >>= _) = _
    rw [unescape?_eq]
    dsimp only
    cases Escape.unescape true (cs.take (n - 1)) with
    | error range => exact congrArg some (foundAt_fault rfl).symm
    | ok value =>
      rcases value with _ | ⟨v, _ | ⟨w, more⟩⟩
      · exact congrArg some (foundAt_fault_from rfl _).symm
      · exact tokenTo?_eq rfl
      · exact congrArg some (foundAt_fault_from rfl _).symm

/-! ## Numbers -/

/-- The number at byte `i`. -/
def numberAt? (source : List Char) (i : Nat) : Option Found := do
  match ← from? i source with
  | [] => return .fault .badNumber ⟨i, i⟩ i
  | c :: cs =>
    let size := Numeral.more c cs + 1
    let raw ← slice? ⟨0, size⟩ (c :: cs)
    match ← splitNumber? raw with
    | some _ => return .token .number (i + size)
    | none => return .fault .badNumber ⟨i, i + size⟩ (i + size)

theorem utf8Size_of_isAlphanum (h : c.isAlphanum = true) : c.utf8Size = 1 := by
  rw [Char.utf8Size_eq_one_iff]
  exact UInt32.le_iff_toNat_le.2 (Nat.le_of_lt_succ (toNat_of_isAlphanum h))

theorem utf8Size_of_isDigitOrBar (h : Numeral.isDigitOrBar c = true) : c.utf8Size = 1 := by
  rcases Bool.or_eq_true_iff.1 h with hdigit | hbar
  · exact utf8Size_of_isAlphanum (Bool.or_eq_true_iff.2 (.inr hdigit))
  · rw [eq_of_beq hbar]
    rfl

/-- The characters of a number are single bytes. -/
theorem byteLen_take_extent (decimal plain : Bool) (cs : List Char) :
    byteLen (cs.take (Numeral.extent decimal plain cs)) = Numeral.extent decimal plain cs := by
  have hone : ∀ c ∈ cs.take (Numeral.extent decimal plain cs), c.utf8Size = 1 := by
    intro c hc
    rcases Numeral.mem_take_extent decimal plain cs c hc with hbar | halnum | hsign
    · exact utf8Size_of_isDigitOrBar hbar
    · exact utf8Size_of_isAlphanum halnum
    · have hall : (['.', '+', '-'].all fun c => c.utf8Size == 1) = true := by decide
      exact eq_of_beq (List.all_eq_true.1 hall c hsign)
  rw [byteLen_eq_length hone, List.length_take, Nat.min_eq_left (Numeral.extent_le decimal plain cs)]

theorem numberAt?_eq (h : At source i (c :: cs)) (hc : c.isDigit = true) :
    numberAt? source i = some (foundAt i (c :: cs) (Scan.number false c cs)) := by
  have hsize : byteLen ((c :: cs).take (Numeral.more c cs + 1)) = Numeral.more c cs + 1 := by
    rw [List.take_succ_cons, byteLen_cons, utf8Size_of_isAlphanum (Bool.or_eq_true_iff.2 (.inr hc)),
      Numeral.more, byteLen_take_extent, Nat.add_comm]
  have hraw := (At.start (c :: cs)).slice_take (Numeral.more c cs + 1)
  rw [hsize, Nat.zero_add] at hraw
  have hsplit := splitNumber?_ends ((c :: cs).take (Numeral.more c cs + 1))
  unfold numberAt? Scan.number
  simp only [h.from?, hraw, Option.bind_eq_bind, Option.bind_some, Option.pure_def,
    Bool.false_eq_true, if_false]
  rw [List.take_succ_cons] at hsplit hsize ⊢
  generalize splitNumber? (c :: cs.take (Numeral.more c cs)) = found at hsplit ⊢
  generalize Numeral.split? (c :: cs.take (Numeral.more c cs)) = parts at hsplit ⊢
  cases hsplit with
  | refused =>
    simp only [Option.bind_some, foundAt, List.take_succ_cons, hsize, Span.shift, Nat.zero_add,
      Nat.add_comm i]
  | ended hat => simp only [Option.bind_some, foundAt, List.take_succ_cons, hsize]

/-! ## Words -/

/-- The word at byte `i`. -/
def wordAt? [Letters] (source : List Char) (i : Nat) : Option Found := do
  let text ← from? i source
  let first := text.head?.elim 0 Char.utf8Size
  let n := first + byteLen ((← from? first text).takeWhile isIdentPart)
  let word ← slice? ⟨0, n⟩ text
  let rest ← from? n text
  match Keyword.ofString? (String.ofList word) with
  | some k => return .token (.keyword k) (i + n)
  | none =>
    if Scan.startsBang rest then return .token .macroName (i + n + 1)
    else return .token .ident (i + n)

theorem wordAt?_eq [Letters] (h : At source i (c :: cs)) :
    wordAt? source i = some (foundAt i (c :: cs) (Scan.word c cs)) := by
  have htail : At (c :: cs) (0 + c.utf8Size) cs := (At.start (c :: cs)).cons
  rw [Nat.zero_add] at htail
  have hafter := htail.dropWhile isIdentPart
  have hword : slice? ⟨0, c.utf8Size + byteLen (cs.takeWhile isIdentPart)⟩ (c :: cs) =
      some (c :: cs.takeWhile isIdentPart) := by
    refine At.slice (b := cs.dropWhile isIdentPart) ?_ (by rw [byteLen_cons, Nat.zero_add])
    rw [List.cons_append, List.takeWhile_append_dropWhile]
    exact At.start _
  have hsize : byteLen ((c :: cs).take ((cs.takeWhile isIdentPart).length + 1)) =
      c.utf8Size + byteLen (cs.takeWhile isIdentPart) := by
    rw [List.take_succ_cons, take_length_takeWhile, byteLen_cons]
  have hdrop : cs.drop (cs.takeWhile isIdentPart).length = cs.dropWhile isIdentPart := by
    have hsplit := List.take_append_drop (cs.takeWhile isIdentPart).length cs
    rw [take_length_takeWhile] at hsplit
    exact List.append_cancel_left (hsplit.trans List.takeWhile_append_dropWhile.symm)
  unfold wordAt? Scan.word
  simp only [h.from?, htail.from?, hword, hafter.from?, Option.bind_eq_bind, Option.bind_some,
    Option.pure_def, List.head?_cons, Option.elim_some, hdrop]
  cases Keyword.ofString? (String.ofList (c :: cs.takeWhile isIdentPart)) with
  | some k => simp only [foundAt, hsize]
  | none =>
    cases hbang : Scan.startsBang (cs.dropWhile isIdentPart) with
    | false => simp only [Bool.false_eq_true, if_false, foundAt, hsize]
    | true =>
      -- The mark behind the word is one more byte.
      obtain ⟨after, hafter⟩ := Scan.startsBang_eq hbang
      have hmark : cs.take ((cs.takeWhile isIdentPart).length + 1) =
          cs.takeWhile isIdentPart ++ ['!'] := by
        rw [List.take_add, take_length_takeWhile, hdrop, hafter]
        rfl
      simp only [if_true, foundAt, List.take_succ_cons, byteLen_cons, hmark, byteLen_append]
      refine congrArg (fun n => some (Found.token Token.macroName n)) ?_
      show _ = i + (c.utf8Size + (_ + (1 + 0)))
      omega

/-! ## Everything else -/

/-- The row of characters with the property that begins at byte `i`, as one token. -/
def rowAt? (source : List Char) (i : Nat) (token : Token) (p : Char → Bool) : Option Found := do
  return .token token (i + byteLen ((← from? i source).takeWhile p))

/-- What stands at byte `i` of a tag, delimiters apart. -/
def scan? [Letters] (d : Delims) (kind : TagKind) (source : List Char) (afterDot : Bool) (i : Nat) :
    Option Found := do
  match ← from? i source with
  | [] => return .fault .unexpectedCharacter (Span.point i) i
  | c :: cs =>
    match Scan.punctuation? c cs with
    | some (token, more) => return .token token (i + (more + 1))
    | none =>
      if c = '\x22' then string? d kind source i
      else if c = '\x27' then char? d kind source i
      else if c.isDigit then
        if afterDot then rowAt? source i .number (·.isDigit) else numberAt? source i
      else if isBlank c then rowAt? source i .blank isBlank
      else if isIdentStart c then wordAt? source i
      else return .fault .unexpectedCharacter ⟨i, i + c.utf8Size⟩ (i + c.utf8Size)

theorem rowAt?_eq (h : At source i (c :: cs)) {p : Char → Bool} (hp : p c = true) :
    rowAt? source i token p =
      some (foundAt i (c :: cs) (.token token (cs.takeWhile p).length)) := by
  unfold rowAt?
  rw [h.from?]
  simp only [Option.bind_eq_bind, Option.bind_some, Option.pure_def, foundAt,
    List.takeWhile_cons_of_pos hp, List.take_succ_cons, take_length_takeWhile]

theorem punctuation?_size {n : Nat} (h : Scan.punctuation? c cs = some (token, n)) :
    byteLen ((c :: cs).take (n + 1)) = n + 1 := by
  unfold Scan.punctuation? at h
  split at h <;> cases h <;> rfl

theorem scan?_eq [Letters] (h : At source i (c :: cs)) (afterDot : Bool) :
    scan? d kind source afterDot i =
      some (foundAt i (c :: cs) (Scan.read d kind afterDot c cs)) := by
  unfold scan? Scan.read
  rw [h.from?]
  simp only [Option.bind_eq_bind, Option.bind_some, Option.pure_def]
  cases hpunct : Scan.punctuation? c cs with
  | some found =>
    obtain ⟨token, more⟩ := found
    simp only [foundAt, punctuation?_size hpunct]
  | none =>
    dsimp only
    split
    · next hquote => subst hquote; exact string?_eq h
    split
    · next hquote => subst hquote; exact char?_eq h
    split
    · next hdigit =>
      cases afterDot with
      | true => exact rowAt?_eq h hdigit
      | false => exact numberAt?_eq h hdigit
    split
    · next hblank => exact rowAt?_eq h hblank
    split
    · exact wordAt?_eq h
    · simp only [foundAt, Span.shift, Nat.zero_add, List.take_succ_cons, List.take_zero,
        byteLen_cons, byteLen_nil, Nat.add_zero, Nat.add_comm i]

end Stencil.Checked
