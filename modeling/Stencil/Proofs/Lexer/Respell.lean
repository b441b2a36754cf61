/-
  Respell — a text that spells a token is scanned as that token.

  The converse of `spells_of_read`: if a text spells a token and what follows does not join it, the
  scanner takes exactly that text and gives that token (`read_of_spells`).  What joins a token depends
  on the token (`Token.Stops`): a letter joins a word, a dot and a digit join a plain number, an equals
  sign joins an exclamation mark, and a brace may make a delimiter of a sign.  A blank joins nothing.
  After a dot there is one exception, since a number is read as an index there: it must be written with
  digits only, and nothing but digits joins it.

  Texts in a row are scanned one after the other: `Lexes` says what a text is scanned as before a given
  continuation, and `Lexes.append` puts two texts together.  With a blank before each text the
  continuations take care of themselves (`feed_of_written`).
-/
import Stencil.Proofs.Lexer.Tag
import Stencil.Proofs.Place

namespace Stencil

namespace Scan

/-- No sign begins like a word or a number, or with a blank. -/
theorem punctuation?_first [Letters] {c : Char} {cs : List Char} {r : Token × Nat}
    (h : punctuation? c cs = some r) :
    isIdentStart c = false ∧ c.isDigit = false ∧ isBlank c = false := by
  have hsign : isDivider c = true ∧ c.isDigit = false ∧ isBlank c = false := by
    unfold punctuation? at h
    split at h <;> cases h <;> decide
  exact ⟨isIdentStart_of_isDivider hsign.1, hsign.2⟩

end Scan

/-! ## What may follow -/

/-- The characters that cannot follow the token directly, since they would make another token or a
    delimiter of it. -/
def Token.joins : Token → List Char
  | .dot => ['.']
  | .dotDot | .bang | .eq | .macroName => ['=']
  | .colon => [':']
  | .pipe => ['|']
  | .amp => ['&']
  | .lt => ['<', '=']
  | .gt => ['>', '=']
  | .lbrace => ['\x7b', '%', '#']
  | .rbrace | .percent => ['\x7d']
  | .minus | .plus | .tilde => ['%', '\x7d']
  | _ => []

/-- Whether a number `cs` ends before `tail`: no letter, digit or sign follows, and no fraction follows
    a number that has none.  After a dot there are no fractions. -/
structure Numeral.Stops (afterDot : Bool) (cs tail : List Char) : Prop where
  head : ∀ c ∈ tail.head?, c.isAlphanum = false ∧ c ∉ ['_', '+', '-']
  point : afterDot = false → cs.all isDigitOrBar = true → tail.head? = some '.' →
    startsDigit tail.tail = false

/-- Whether the token, written `cs`, ends before `tail`. -/
def Token.Stops [Letters] (afterDot : Bool) (cs tail : List Char) : Token → Prop
  | .ident | .keyword _ => ∀ c ∈ tail.head?, isIdentPart c = false ∧ c ≠ '!'
  | .number => Numeral.Stops afterDot cs tail
  | t => ∀ c ∈ tail.head?, c ∉ t.joins

/-- A number ends before a blank. -/
theorem Numeral.stops_blank (afterDot : Bool) (cs rest : List Char) :
    Numeral.Stops afterDot cs (' ' :: rest) := by
  refine ⟨fun c hc => ?_, fun _ _ h => by cases h⟩
  cases hc
  decide

/-- A blank joins nothing. -/
theorem Token.stops_blank [Letters] (t : Token) (afterDot : Bool) (cs rest : List Char) :
    t.Stops afterDot cs (' ' :: rest) := by
  have head : ∀ {p : Char → Prop}, p ' ' → ∀ c ∈ (' ' :: rest).head?, p c := by
    intro p hp c hc
    cases hc
    exact hp
  have hword : isIdentPart ' ' = false ∧ ' ' ≠ '!' := ⟨isIdentPart_of_isBlank (by decide), by decide⟩
  cases t with
  | number => exact Numeral.stops_blank afterDot cs rest
  | ident => exact head hword
  | keyword k => exact head hword
  | _ => exact head (by decide)

/-! ## Numbers -/

namespace Numeral

variable {afterDot : Bool} {tail : List Char}

theorem Stops.head_cons {cs : List Char} {c : Char} {more : List Char}
    (h : Stops afterDot cs (c :: more)) :
    c.isAlphanum = false ∧ isDigitOrBar c = false ∧ c.isDigit = false ∧ c ≠ '+' ∧ c ≠ '-' := by
  obtain ⟨halnum, hnot⟩ := h.head c rfl
  have hdigit : c.isDigit = false := by
    rw [Char.isAlphanum, Bool.or_eq_false_iff] at halnum
    exact halnum.2
  simp only [List.mem_cons, List.not_mem_nil, or_false, not_or] at hnot
  exact ⟨halnum, by rw [isDigitOrBar, hdigit, beq_false_of_ne hnot.1]; rfl, hdigit, hnot.2.1,
    hnot.2.2⟩

theorem startsDigit_stops {cs : List Char} (h : Stops afterDot cs tail) (ds : List Char) :
    startsDigit (ds ++ tail) = startsDigit ds := by
  cases ds with
  | cons d ds => rfl
  | nil =>
    cases tail with
    | nil => rfl
    | cons c more => exact h.head_cons.2.2.1

theorem startsSigned_stops {cs : List Char} (h : Stops afterDot cs tail) (ds : List Char) :
    startsSigned (ds ++ tail) = startsSigned ds := by
  cases ds with
  | cons s ds => rw [List.cons_append, startsSigned_cons, startsSigned_cons, startsDigit_stops h]
  | nil =>
    cases tail with
    | nil => rfl
    | cons c more =>
      obtain ⟨-, -, -, hplus, hminus⟩ := h.head_cons
      rw [List.nil_append, startsSigned_cons, beq_false_of_ne hplus, beq_false_of_ne hminus]
      rfl

/-- A number does not go on over what stops it.  Only while it is plain digits a point could make it
    go on; whether it is at its end is a matter of all of its characters. -/
theorem extent_stops (decimal plain : Bool) (cs : List Char)
    (h : Stops (!(decimal && plain)) cs tail) :
    extent decimal plain (cs ++ tail) = extent decimal plain cs := by
  have weaken : ∀ {plain : Bool} {c : Char} {cs : List Char},
      Stops (!(decimal && plain)) (c :: cs) tail → isDigitOrBar c = true →
      Stops (!(decimal && plain)) cs tail := by
    intro plain c cs h hc
    refine ⟨h.head, fun hdot hall => h.point hdot ?_⟩
    rw [List.all_cons, hc, hall]
    rfl
  have spoilt : ∀ {dot : Bool} {cs ds : List Char}, Stops dot cs tail →
      Stops (!(decimal && false)) ds tail := by
    intro dot cs ds h
    rw [Bool.and_false]
    exact ⟨h.head, nofun⟩
  -- The conditions on `tail` pass on to the rest; behind a point those about points are void.
  fun_induction extent decimal plain cs with
  | case1 plain =>
    cases tail with
    | nil => rfl
    | cons c more =>
      obtain ⟨halnum, hbar, -, -, -⟩ := h.head_cons
      have hpoint : ¬ (c == '.' && decimal && plain && startsDigit more) = true := by
        intro hall
        simp only [Bool.and_eq_true, beq_iff_eq] at hall
        obtain ⟨⟨⟨rfl, hdecimal⟩, hplain⟩, hdigit⟩ := hall
        have hnot := h.point (by rw [hdecimal, hplain]; rfl) rfl rfl
        rw [List.tail_cons, hdigit] at hnot
        cases hnot
      have hexp : ¬ ((c == 'e' || c == 'E') && decimal && startsSigned more) = true := by
        intro hall
        simp only [Bool.and_eq_true, Bool.or_eq_true, beq_iff_eq] at hall
        rcases hall.1.1 with rfl | rfl <;> cases halnum
      rw [List.nil_append, extent_cons, if_neg (by rw [hbar]; exact Bool.false_ne_true),
        if_neg hpoint, if_neg hexp, if_neg (by rw [halnum]; exact Bool.false_ne_true)]
  | case2 plain c cs hbar ih => rw [List.cons_append, extent_cons, if_pos hbar, ih (weaken h hbar)]
  | case3 plain c cs hbar hpoint ih =>
    rw [List.cons_append, extent_cons, if_neg hbar, startsDigit_stops h, if_pos hpoint,
      ih (spoilt h)]
  | case4 plain c hbar hpoint hexp =>
    simp only [startsSigned, Bool.and_false, Bool.false_eq_true] at hexp
  | case5 plain c hbar s more hpoint hexp ih =>
    rw [List.cons_append, extent_cons, if_neg hbar, startsDigit_stops h, if_neg hpoint,
      startsSigned_stops h, if_pos hexp, List.cons_append, List.drop_one, List.tail_cons,
      ih (spoilt h)]
  | case6 plain c cs hbar hpoint hexp halnum ih =>
    rw [List.cons_append, extent_cons, if_neg hbar, startsDigit_stops h, if_neg hpoint,
      startsSigned_stops h, if_neg hexp, if_pos halnum, ih (spoilt h)]
  | case7 plain c cs hbar hpoint hexp halnum =>
    rw [List.cons_append, extent_cons, if_neg hbar, startsDigit_stops h, if_neg hpoint,
      startsSigned_stops h, if_neg hexp, if_neg halnum]

theorem more_stops (c : Char) (cs : List Char) (hc : c.isDigit = true)
    (h : Stops false (c :: cs) tail) : more c (cs ++ tail) = more c cs := by
  have hextent : ∀ decimal, extent decimal true (cs ++ tail) = extent decimal true cs := by
    intro decimal
    refine extent_stops decimal true cs ⟨h.head, fun _ hall => h.point rfl ?_⟩
    rw [List.all_cons, isDigitOrBar_of_isDigit hc, hall]
    rfl
  unfold more
  rw [hextent]
  cases cs with
  | cons d cs => rfl
  | nil =>
    cases tail with
    | nil => rfl
    | cons d more =>
      obtain ⟨halnum, -⟩ := h.head_cons
      have hne : ∀ m : Char, m.isAlphanum = true → (some d == some m) = false := by
        intro m hm
        refine beq_false_of_ne fun heq => ?_
        rw [Option.some.inj heq, hm] at halnum
        cases halnum
      rw [List.nil_append, List.head?_cons, List.head?_nil, hne 'x' (by decide),
        hne 'o' (by decide), hne 'b' (by decide)]
      rfl

end Numeral

/-! ## Scanning -/

namespace Scan

variable {d : Delims} {kind : TagKind} {afterDot : Bool} {c : Char} {cs tail : List Char}

theorem takeWhile_stop {p : Char → Bool} (hstop : ∀ c ∈ tail.head?, p c = false)
    (h : cs.all p = true) : (cs ++ tail).takeWhile p = cs := by
  rw [List.takeWhile_append_of_pos (List.all_eq_true.1 h)]
  cases tail with
  | nil => rw [List.takeWhile_nil, List.append_nil]
  | cons c more =>
    rw [List.takeWhile_cons_of_neg (by rw [hstop c rfl]; exact Bool.false_ne_true), List.append_nil]

theorem quoteEnd_append {quote : Char} {escaped : Bool} {n : Nat}
    (h : quoteEnd quote escaped cs = .closed n) (more : List Char) :
    quoteEnd quote escaped (cs ++ more) = .closed n := by
  induction cs generalizing escaped n with
  | nil => cases h
  | cons c cs ih =>
    unfold quoteEnd at h
    rw [List.cons_append, quoteEnd]
    split at h
    · cases h
    · next hline =>
      rw [if_neg hline]
      split at h
      · next hquote => rw [if_pos hquote]; exact h
      · next hquote =>
        rw [if_neg hquote]
        cases hq : quoteEnd quote (c = '\\' && !escaped) cs with
        | cut m => rw [hq] at h; cases h
        | closed m => rw [ih hq, ← hq]; exact h

theorem read_of_isIdentStart [Letters] (h : isIdentStart c = true) :
    read d kind afterDot c cs = word c cs := by
  have hlow := toNat_of_isIdentStart h
  have hquote : c ≠ '\x22' := by rintro rfl; revert hlow; decide
  have happ : c ≠ '\x27' := by rintro rfl; revert hlow; decide
  unfold read
  cases hp : punctuation? c cs with
  | some r => rw [(punctuation?_first hp).1] at h; cases h
  | none =>
    dsimp only
    rw [if_neg hquote, if_neg happ, if_neg (by rw [isDigit_of_isIdentStart h]; decide),
      if_neg (by rw [isBlank_of_isIdentStart h]; decide), if_pos h]

theorem read_of_isDigit [Letters] (h : c.isDigit = true) :
    read d kind afterDot c cs = number afterDot c cs := by
  have hquote : c ≠ '\x22' := by rintro rfl; cases h
  have happ : c ≠ '\x27' := by rintro rfl; cases h
  unfold read
  cases hp : punctuation? c cs with
  | some r => rw [(punctuation?_first hp).2.1] at h; cases h
  | none =>
    dsimp only
    rw [if_neg hquote, if_neg happ, if_pos h]

theorem read_of_isBlank [Letters] (h : isBlank c = true) :
    read d kind afterDot c cs = .token .blank (cs.takeWhile isBlank).length := by
  have hquote : c ≠ '\x22' := by rintro rfl; revert h; decide
  have happ : c ≠ '\x27' := by rintro rfl; revert h; decide
  have hdigit : ¬ c.isDigit = true := by
    intro hdigit
    rw [isBlank_of_isDigit hdigit] at h
    cases h
  unfold read
  cases hp : punctuation? c cs with
  | some r => rw [(punctuation?_first hp).2.2] at h; cases h
  | none =>
    dsimp only
    rw [if_neg hquote, if_neg happ, if_neg hdigit, if_pos h]

/-- A word is taken as a whole. -/
theorem word_stops [Letters] (h : isWord (c :: cs) = true)
    (hstop : ∀ c ∈ tail.head?, isIdentPart c = false ∧ c ≠ '!') :
    read d kind afterDot c (cs ++ tail) =
      .token (wordToken (String.ofList (c :: cs))) cs.length := by
  rw [isWord, Bool.and_eq_true] at h
  rw [read_of_isIdentStart h.1]
  unfold word wordToken
  dsimp only
  rw [takeWhile_stop (fun c hc => (hstop c hc).1) h.2]
  cases Keyword.ofString? (String.ofList (c :: cs)) with
  | some k => rfl
  | none =>
    have hbang : startsBang tail = false := by
      rw [Bool.eq_false_iff]
      intro hbang
      obtain ⟨rest, rfl⟩ := startsBang_eq hbang
      exact (hstop '!' rfl).2 rfl
    dsimp only
    rw [List.drop_left, hbang]
    rfl

theorem macroName_stops [Letters] (h : isWord (c :: cs) = true)
    (hplain : Keyword.ofString? (String.ofList (c :: cs)) = none)
    (hstop : ∀ c ∈ tail.head?, c ≠ '=') :
    read d kind afterDot c ((cs ++ ['!']) ++ tail) = .token .macroName (cs.length + 1) := by
  rw [isWord, Bool.and_eq_true] at h
  rw [read_of_isIdentStart h.1, List.append_assoc, List.singleton_append]
  have hmark : ∀ c ∈ ('!' :: tail).head?, isIdentPart c = false := by
    intro c hc
    cases hc
    exact isIdentPart_of_isDivider (by decide)
  have hbang : startsBang ('!' :: tail) = true := by
    unfold startsBang
    split
    · next heq => cases heq; exact absurd rfl (hstop '=' rfl)
    · rfl
    · next hnot => exact absurd rfl (hnot tail)
  unfold word
  dsimp only
  rw [takeWhile_stop hmark h.2, hplain]
  dsimp only
  rw [List.drop_left, hbang]
  rfl

/-- A number is taken as a whole; after a dot it has to consist of digits. -/
theorem number_stops [Letters] (h : isNumeral (c :: cs) = true)
    (hdot : afterDot = true → (c :: cs).all (·.isDigit) = true)
    (hstop : Numeral.Stops afterDot (c :: cs) tail) :
    read d kind afterDot c (cs ++ tail) = .token .number cs.length := by
  simp only [isNumeral, Bool.and_eq_true, beq_iff_eq] at h
  obtain ⟨⟨hdigit, hmore⟩, hsplit⟩ := h
  rw [read_of_isDigit hdigit]
  unfold number
  cases afterDot with
  | true =>
    have hall := hdot rfl
    rw [List.all_cons, Bool.and_eq_true] at hall
    have hend : ∀ c ∈ tail.head?, c.isDigit = false := by
      intro c hc
      have hnot := (hstop.head c hc).1
      rw [Char.isAlphanum, Bool.or_eq_false_iff] at hnot
      exact hnot.2
    rw [if_pos rfl, takeWhile_stop hend hall.2]
  | false =>
    obtain ⟨r, hr⟩ := Option.isSome_iff_exists.1 hsplit
    rw [if_neg Bool.false_ne_true]
    dsimp only
    rw [Numeral.more_stops c cs hdigit hstop, hmore, List.take_left, hr]

theorem quoted_append {quote : Char} {inChar : Bool} {value : List Char}
    (h : IsQuoted quote inChar (c :: cs) value) (tail : List Char) :
    c = quote ∧ quoteEnd quote false (cs ++ tail) = .closed cs.length ∧
      Escape.unescape inChar ((cs ++ tail).take (cs.length - 1)) = .ok value := by
  obtain ⟨body, htext, hend, hvalue⟩ := h
  obtain ⟨rfl, rfl⟩ : c = quote ∧ cs = body ++ [quote] := List.cons.inj htext
  refine ⟨rfl, ?_, ?_⟩
  · rw [quoteEnd_append hend, List.length_append, List.length_singleton]
  · rw [List.length_append, List.length_singleton, Nat.add_sub_cancel, List.append_assoc,
      List.take_left]
    exact hvalue

/-- A sign is scanned as itself before anything that does not join it. -/
theorem punctuation?_stops {t : Token} (h : t.sign? = some (c :: cs)) (hword : ∀ k, t ≠ .keyword k)
    (hstop : ∀ x ∈ tail.head?, x ∉ t.joins) : punctuation? c (cs ++ tail) = some (t, cs.length) := by
  cases t with
  | keyword k => exact absurd rfl (hword k)
  | dot | dotDot | colon | pipe | amp | bang | eq | lt | gt =>
    cases h
    unfold punctuation?
    split <;> first | rfl | simp_all [Token.joins]
  | _ => cases h <;> rfl

/-- What spells a token and is followed by nothing that joins it is scanned as that token. -/
theorem read_of_spells [Letters] {t : Token} (h : t.Spells (c :: cs)) (hblank : t ≠ .blank)
    (hdot : afterDot = true → t = .number → (c :: cs).all (·.isDigit) = true)
    (hstop : t.Stops afterDot (c :: cs) tail) :
    read d kind afterDot c (cs ++ tail) = .token t cs.length := by
  have sign : t.sign? = some (c :: cs) → (∀ k, t ≠ .keyword k) →
      (∀ x ∈ tail.head?, x ∉ t.joins) → read d kind afterDot c (cs ++ tail) = .token t cs.length := by
    intro hsign hword hjoins
    unfold read
    rw [punctuation?_stops hsign hword hjoins]
  cases t with
  | ident =>
    have hplain : isPlainWord (String.ofList (c :: cs)) = true := h
    rw [isPlainWord, Bool.and_eq_true, String.toList_ofList, Option.isNone_iff_eq_none] at hplain
    rw [word_stops hplain.1 hstop, wordToken, hplain.2]
  | macroName =>
    obtain ⟨name, htext, hplain⟩ := h
    rw [isPlainWord, Bool.and_eq_true, String.toList_ofList, Option.isNone_iff_eq_none] at hplain
    cases name with
    | nil => cases hplain.1
    | cons c' name =>
      obtain ⟨rfl, rfl⟩ : c = c' ∧ cs = name ++ ['!'] := List.cons.inj htext
      have hequals : ∀ x ∈ tail.head?, x ≠ '=' :=
        fun x hx heq => hstop x hx (List.mem_singleton.2 heq)
      rw [macroName_stops hplain.1 hplain.2 hequals, List.length_append, List.length_singleton]
  | keyword k =>
    have htext : k.text.toList = c :: cs := Option.some.inj h
    have hword := k.isWord_text
    rw [htext] at hword
    rw [word_stops hword hstop, wordToken, ← htext, String.ofList_toList, Keyword.ofString?_text]
  | number => exact number_stops h (fun hd => hdot hd rfl) hstop
  | str =>
    obtain ⟨value, hvalue⟩ := h
    obtain ⟨rfl, hend, hunescape⟩ := quoted_append hvalue tail
    show string d kind _ = _
    unfold string
    rw [hend]
    dsimp only
    rw [hunescape]
  | char =>
    obtain ⟨value, hvalue⟩ := h
    obtain ⟨rfl, hend, hunescape⟩ := quoted_append hvalue tail
    show char d kind _ = _
    unfold char
    rw [hend]
    dsimp only
    rw [hunescape]
  | blank => exact absurd rfl hblank
  | _ => exact sign h (fun k => Token.noConfusion) hstop

end Scan

/-! ## Delimiters -/

namespace Delims

variable {c : Char} {cs tail : List Char} {kind : TagKind}

/-- The characters that a standard delimiter may begin with inside a tag. -/
def marks : List Char := ['\x7b', '\x7d', '%', '-', '+', '~']

/-- No standard delimiter opens a tag but at a brace, before another brace, a percent sign or a
    hash. -/
theorem openingAt_standard (h : c = '\x7b' → ∀ x ∈ cs.head?, x ∉ Token.lbrace.joins) :
    standard.openingAt (c :: cs) = none := by
  by_cases hc : c = '\x7b'
  · subst hc
    cases cs with
    | nil => rfl
    | cons x cs =>
      have hx := h rfl x rfl
      simp only [Token.joins, List.mem_cons, List.not_mem_nil, or_false, not_or] at hx
      obtain ⟨hbrace, hpercent, hhash⟩ := hx
      have hne : ∀ {y : Char}, x ≠ y → (y == x) = false := fun hxy => beq_false_of_ne (Ne.symm hxy)
      simp [openingAt, longestAt, openings, pair, standard, Delim.startsAt, Delim.text,
        List.isPrefixOf, hne hbrace, hne hpercent, hne hhash]
  · refine openingAt_eq_none_of_mayOpen ?_
    have hne : ('\x7b' == c) = false := beq_false_of_ne (Ne.symm hc)
    show (('\x7b' == c) || (('\x7b' == c) || (('\x7b' == c) || false))) = false
    rw [hne]
    rfl

/-- The text of a standard closing delimiter. -/
def closeText : TagKind → List Char
  | .expr => ['\x7d', '\x7d']
  | .block => ['%', '\x7d']

theorem closingAt_standard (h : (closeText kind).isPrefixOf (c :: cs) = false)
    (htrim : Trim.ofChar? c ≠ none → (closeText kind).isPrefixOf cs = false) :
    standard.closingAt kind (c :: cs) = none := by
  have hpair : ∃ p, standard.pair (.tag kind) = some p ∧ p.closing.text = closeText kind := by
    cases kind <;> exact ⟨_, rfl, rfl⟩
  obtain ⟨p, hp, htext⟩ := hpair
  have hplain : p.closing.startsAt (c :: cs) = false := by rw [Delim.startsAt, htext, h]
  unfold closingAt
  rw [hp, Option.bind_some]
  unfold DelimPair.closingAt
  dsimp only
  rw [hplain]
  split
  · next t ht =>
    have hmark : Trim.ofChar? c ≠ none := by
      have hhead : Trim.ofChar? c = some t := ht
      rw [hhead]
      exact Option.some_ne_none t
    have hafter : p.closing.startsAt cs = false := by rw [Delim.startsAt, htext, htrim hmark]
    rw [List.tail_cons, hafter]
    rfl
  · rfl

/-- Where no mark stands there is no modifier. -/
theorem ofChar?_of_not_mem (h : c ∉ marks) : Trim.ofChar? c = none := by
  simp only [marks, List.mem_cons, List.not_mem_nil, or_false, not_or] at h
  obtain ⟨-, -, -, hminus, hplus, htilde⟩ := h
  unfold Trim.ofChar?
  split
  · exact absurd rfl hminus
  · exact absurd rfl hplus
  · exact absurd rfl htilde
  · rfl

/-- Where no mark stands there is no delimiter. -/
theorem standard_of_not_mem (h : c ∉ marks) :
    standard.closingAt kind (c :: cs) = none ∧ standard.openingAt (c :: cs) = none := by
  have htrim := ofChar?_of_not_mem h
  simp only [marks, List.mem_cons, List.not_mem_nil, or_false, not_or] at h
  obtain ⟨hopen, hclose, hpercent, -⟩ := h
  refine ⟨closingAt_standard ?_ (fun hmark => absurd htrim hmark), openingAt_standard fun hc => ?_⟩
  · cases kind
    · exact Bool.and_eq_false_imp.2 fun hc => absurd (eq_of_beq hc).symm hclose
    · exact Bool.and_eq_false_imp.2 fun hc => absurd (eq_of_beq hc).symm hpercent
  · exact absurd hc hopen

theorem not_mem_marks {p : Char → Bool} (hc : p c = true) (hp : (marks.all fun m => !p m) = true) :
    c ∉ marks := by
  intro hmem
  have hnot := List.all_eq_true.1 hp c hmem
  rw [hc] at hnot
  cases hnot

theorem not_mem_marks_of_isWord [Letters] (h : isWord (c :: cs) = true) : c ∉ marks := by
  rw [isWord, Bool.and_eq_true] at h
  intro hmem
  have hdivider : marks.all isDivider = true := by decide
  rw [isIdentStart_of_isDivider (List.all_eq_true.1 hdivider c hmem)] at h
  cases h.1

/-- A sign of one mark is no delimiter, if what follows does not join it. -/
theorem standard_of_joins {t : Token} (ht : t ∈ [Token.lbrace, .rbrace, .percent, .minus, .plus, .tilde])
    (hc : t.sign? = some [c]) (hstop : ∀ x ∈ tail.head?, x ∉ t.joins) :
    standard.closingAt kind (c :: tail) = none ∧ standard.openingAt (c :: tail) = none := by
  -- What follows begins neither with the closing delimiter nor with its second character.
  have hnot : ∀ y, y ∈ t.joins → ∀ ys, (y :: ys).isPrefixOf tail = false := by
    intro y hy ys
    cases tail with
    | nil => rfl
    | cons x tail =>
      have hne : y ≠ x := by
        rintro rfl
        exact hstop y rfl hy
      rw [List.isPrefixOf, beq_false_of_ne hne, Bool.false_and]
  simp only [List.mem_cons, List.not_mem_nil, or_false] at ht
  rcases ht with rfl | rfl | rfl | rfl | rfl | rfl <;> cases hc
  · refine ⟨closingAt_standard ?_ (fun h => absurd rfl h), openingAt_standard fun _ => hstop⟩
    cases kind <;> rfl
  · refine ⟨closingAt_standard ?_ (fun h => absurd rfl h), openingAt_standard nofun⟩
    cases kind
    · exact hnot '\x7d' (by decide) []
    · rfl
  · refine ⟨closingAt_standard ?_ (fun h => absurd rfl h), openingAt_standard nofun⟩
    cases kind
    · rfl
    · exact hnot '\x7d' (by decide) []
  all_goals
    refine ⟨closingAt_standard (by cases kind <;> rfl) (fun _ => ?_), openingAt_standard nofun⟩
    cases kind
    · exact hnot '\x7d' (by decide) _
    · exact hnot '%' (by decide) _

/-- No delimiter stands where a token is spelled that ends before what follows. -/
theorem standard_of_spells [Letters] {t : Token} {afterDot : Bool} (h : t.Spells (c :: cs))
    (hblank : t ≠ .blank) (hstop : t.Stops afterDot (c :: cs) tail) :
    standard.closingAt kind (c :: (cs ++ tail)) = none ∧
      standard.openingAt (c :: (cs ++ tail)) = none := by
  cases t with
  | ident =>
    have hplain : isPlainWord (String.ofList (c :: cs)) = true := h
    rw [isPlainWord, Bool.and_eq_true, String.toList_ofList] at hplain
    exact standard_of_not_mem (not_mem_marks_of_isWord hplain.1)
  | macroName =>
    obtain ⟨name, htext, hplain⟩ := h
    rw [isPlainWord, Bool.and_eq_true, String.toList_ofList] at hplain
    cases name with
    | nil => cases hplain.1
    | cons c' name =>
      obtain ⟨rfl, rfl⟩ : c = c' ∧ cs = name ++ ['!'] := List.cons.inj htext
      exact standard_of_not_mem (not_mem_marks_of_isWord hplain.1)
  | keyword k =>
    have htext : k.text.toList = c :: cs := Option.some.inj h
    have hword := k.isWord_text
    rw [htext] at hword
    exact standard_of_not_mem (not_mem_marks_of_isWord hword)
  | number =>
    have hnum : isNumeral (c :: cs) = true := h
    simp only [isNumeral, Bool.and_eq_true] at hnum
    exact standard_of_not_mem (not_mem_marks (p := Char.isDigit) hnum.1.1 (by decide))
  | str =>
    obtain ⟨value, hvalue⟩ := h
    obtain ⟨rfl, -⟩ := Scan.quoted_append hvalue tail
    exact standard_of_not_mem (by decide)
  | char =>
    obtain ⟨value, hvalue⟩ := h
    obtain ⟨rfl, -⟩ := Scan.quoted_append hvalue tail
    exact standard_of_not_mem (by decide)
  | blank => exact absurd rfl hblank
  | lbrace | rbrace | percent | minus | plus | tilde =>
    cases h
    exact standard_of_joins (by decide) rfl hstop
  | _ => cases h <;> exact standard_of_not_mem (by decide)

end Delims

/-- No spelling is empty. -/
theorem Token.Spells.exists_cons [Letters] {t : Token} {cs : List Char} (h : t.Spells cs) :
    ∃ c more, cs = c :: more := by
  cases cs with
  | cons c more => exact ⟨c, more, rfl⟩
  | nil =>
    exfalso
    cases t with
    | ident => cases h
    | macroName =>
      obtain ⟨name, hname, -⟩ := h
      simp at hname
    | keyword k =>
      have htext : k.text.toList = [] := Option.some.inj h
      have hword := k.isWord_text
      rw [htext] at hword
      cases hword
    | number => cases h
    | str => obtain ⟨value, body, hbody, -⟩ := h; cases hbody
    | char => obtain ⟨value, body, hbody, -⟩ := h; cases hbody
    | blank => exact h.1 rfl
    | _ => cases h

/-- No spelling of a token other than a blank begins with a blank. -/
theorem Token.Spells.isBlank_head [Letters] {t : Token} {c : Char} {cs : List Char} (h : t.Spells (c :: cs))
    (hblank : t ≠ .blank) : isBlank c = false := by
  rw [Bool.eq_false_iff]
  intro hc
  -- It would be scanned both as the token and as a blank.
  have hread : Scan.read .standard .expr false c (cs ++ [' ']) = .token t cs.length :=
    Scan.read_of_spells h hblank nofun (t.stops_blank false (c :: cs) [])
  rw [Scan.read_of_isBlank hc] at hread
  exact hblank (Scan.token.inj hread).1.symm

/-! ## Texts inside a tag -/

/-- Inside a tag of the kind, the text `cs` before `tail` is scanned as the lexemes `ls`, places apart.
    The flags tell whether a dot was read last, before the text and after it. -/
def Lexes [Letters] (kind : TagKind) (before : Bool) (cs : List Char) (ls : List Lexeme) (after : Bool)
    (tail : List Char) : Prop :=
  ∀ lx : Lexer, lx.mode = .tag kind before → lx.rest = cs ++ tail →
    ∃ next : Lexer, next.rest = tail ∧ next.mode = .tag kind after ∧
      bare (lx.feed .standard).1 = bare ls ++ bare (next.feed .standard).1 ∧
      (lx.feed .standard).2 = (next.feed .standard).2

namespace Lexes

variable {kind : TagKind} {before mid after : Bool} {cs ds tail : List Char} {ls ms : List Lexeme}

theorem nil [Letters] (kind : TagKind) (before : Bool) (tail : List Char) :
    Lexes kind before [] [] before tail :=
  fun lx hm hr => ⟨lx, hr, hm, rfl, rfl⟩

/-- A text is scanned up to where another one begins, and that one after it. -/
theorem append [Letters] (h : Lexes kind before cs ls mid (ds ++ tail))
    (h' : Lexes kind mid ds ms after tail) :
    Lexes kind before (cs ++ ds) (ls ++ ms) after tail := by
  intro lx hm hr
  rw [List.append_assoc] at hr
  obtain ⟨place, hrest, hmode, hfeed, hend⟩ := h lx hm hr
  obtain ⟨next, hrest', hmode', hfeed', hend'⟩ := h' place hmode hrest
  refine ⟨next, hrest', hmode', ?_, by rw [hend, hend']⟩
  rw [hfeed, hfeed', ← List.append_assoc]
  exact congrArg (· ++ bare (next.feed .standard).1) (List.map_append).symm

end Lexes

namespace Lexer

variable {lx : Lexer} {afterDot : Bool} {c : Char} {cs : List Char}

/-- What is scanned where no delimiter stands is the next lexeme. -/
theorem step_of_read [Letters] {d : Delims} {kind : TagKind} {t : Token} {n : Nat}
    (hm : lx.mode = .tag kind afterDot) (hr : lx.rest = c :: cs)
    (hd : d.closingAt kind (c :: cs) = none ∧ d.openingAt (c :: cs) = none)
    (hs : Scan.read d kind afterDot c cs = .token t n) :
    lx.step d = .token (lx.lexeme t (n + 1) none)
      (lx.advance (n + 1) (.tag kind (t == .dot || (afterDot && t == .blank)))) := by
  unfold step
  rw [hm, hr]
  dsimp only
  unfold tagStep
  rw [hr, hd.1, hd.2, hs]

end Lexer

namespace Lexes

variable {kind : TagKind} {before : Bool} {tail : List Char}

/-- Blanks are passed by. -/
theorem blanks [Letters] {bs : List Char} (hbs : ∀ c ∈ bs, isBlank c = true)
    (htail : ∀ c ∈ tail.head?, isBlank c = false) : Lexes kind before bs [] before tail := by
  cases bs with
  | nil => exact nil kind before tail
  | cons b bs =>
    intro lx hm hr
    have hb : isBlank b = true := hbs b List.mem_cons_self
    have hmore : bs.all isBlank = true :=
      List.all_eq_true.2 fun c hc => hbs c (List.mem_cons_of_mem b hc)
    have hread : Scan.read .standard kind before b (bs ++ tail) = .token .blank bs.length := by
      rw [Scan.read_of_isBlank hb, Scan.takeWhile_stop htail hmore]
    have hmark : b ∉ Delims.marks := Delims.not_mem_marks hb (by decide)
    have hstep := Lexer.step_of_read hm hr (Delims.standard_of_not_mem hmark) hread
    have hfeed := Lexer.feed_of_token hstep
    refine ⟨lx.advance (bs.length + 1) (.tag kind (false || (before && true))), ?_, ?_, ?_, ?_⟩
    · show lx.rest.drop (bs.length + 1) = tail
      rw [hr]
      exact List.drop_left
    · rw [Lexer.mode_advance, Bool.false_or, Bool.and_true]
    · rw [hfeed]
      rfl
    · rw [hfeed]
      rfl

/-- A single blank is passed by. -/
theorem blank [Letters] (htail : ∀ c ∈ tail.head?, isBlank c = false) :
    Lexes kind before [' '] [] before tail :=
  blanks (fun c hc => by rw [List.mem_singleton.1 hc]; decide) htail

/-- A text that spells a token is scanned as that token, if the token ends there. -/
theorem token [Letters] {l : Lexeme} (hl : l.token.Spells l.text) (hblank : l.token ≠ .blank)
    (htrim : l.trim = none)
    (hdot : before = true → l.token = .number → l.text.all (·.isDigit) = true)
    (hstop : l.token.Stops before l.text tail) :
    Lexes kind before l.text [l] (l.token == .dot) tail := by
  intro lx hm hr
  obtain ⟨token, span, text, trim⟩ := l
  dsimp only at *
  obtain ⟨c, cs, rfl⟩ := hl.exists_cons
  have hstep := Lexer.step_of_read hm hr (Delims.standard_of_spells hl hblank hstop)
    (Scan.read_of_spells hl hblank hdot hstop)
  rw [beq_eq_false_iff_ne.2 hblank, Bool.and_false, Bool.or_false] at hstep
  have hlexeme : bare (lx.lexeme token (cs.length + 1) none) = bare ⟨token, span, c :: cs, trim⟩ := by
    show Lexeme.mk token ⟨0, 0⟩ (lx.rest.take (cs.length + 1)) none = ⟨token, ⟨0, 0⟩, c :: cs, trim⟩
    rw [hr, htrim, ← List.length_cons, List.take_left]
  have hopen : ¬ (lx.lexeme token (cs.length + 1) none).token.isClosing = true := by
    show ¬ token.isClosing = true
    rw [hl.isClosing]
    exact Bool.false_ne_true
  have hkept : (lx.lexeme token (cs.length + 1) none).token ≠ .blank := hblank
  have hfeed := Lexer.feed_of_token hstep
  rw [if_neg hopen, if_neg hkept] at hfeed
  refine ⟨lx.advance (cs.length + 1) (.tag kind (token == .dot)), ?_, rfl, ?_, by rw [hfeed]⟩
  · show lx.rest.drop (cs.length + 1) = tail
    rw [hr, ← List.length_cons, List.drop_left]
  · rw [hfeed]
    exact congrArg (· :: _) hlexeme

end Lexes

/-! ## The end of a tag -/

/-- The closing delimiter is the last lexeme, and nothing is left after it. -/
theorem Lexer.feed_closing [Letters] {lx : Lexer} {kind : TagKind} {afterDot : Bool}
    (hm : lx.mode = .tag kind afterDot) (hr : lx.rest = Delims.closeText kind) :
    ∃ close : Lexeme, close.token = Token.closes kind ∧ (lx.feed .standard).1 = [close] ∧
      (lx.feed .standard).2.2.rest = [] ∧ (lx.feed .standard).2.2.mode = .template := by
  have hstep : lx.step .standard =
      .token (lx.lexeme (Token.closes kind) 2 none) (lx.advance 2 .template) := by
    unfold step
    rw [hm, hr]
    cases kind
    all_goals
      show lx.tagStep .standard _ afterDot _ _ = _
      unfold tagStep
      rw [hr]
      rfl
  have hclosing : (lx.lexeme (Token.closes kind) 2 none).token.isClosing = true :=
    Token.isClosing_closes kind
  have hfeed := feed_of_token hstep
  rw [if_pos hclosing] at hfeed
  refine ⟨_, rfl, by rw [hfeed], ?_, by rw [hfeed]; rfl⟩
  rw [hfeed]
  show lx.rest.drop 2 = []
  rw [hr]
  cases kind <;> rfl

/-- A text that is scanned before a blank and the closing delimiter makes the inside of a tag. -/
theorem Lexes.feed [Letters] {kind : TagKind} {before after : Bool} {cs : List Char} {ls : List Lexeme}
    (h : Lexes kind before cs ls after (' ' :: Delims.closeText kind)) {lx : Lexer}
    (hm : lx.mode = .tag kind before) (hr : lx.rest = cs ++ ' ' :: Delims.closeText kind) :
    ∃ close : Lexeme, close.token = Token.closes kind ∧
      bare (lx.feed .standard).1 = bare (ls ++ [close]) ∧
      (lx.feed .standard).2.2.rest = [] ∧ (lx.feed .standard).2.2.mode = .template := by
  have hblank : Lexes kind after [' '] [] after (Delims.closeText kind) := by
    refine .blank fun c hc => ?_
    cases kind <;> cases hc <;> decide
  obtain ⟨next, hrest, hmode, hfeed, hend⟩ := h.append hblank lx hm (by rw [hr]; simp)
  obtain ⟨close, htoken, hls, hover⟩ := Lexer.feed_closing hmode hrest
  refine ⟨close, htoken, ?_, by rw [hend]; exact hover⟩
  rw [hfeed, hls, List.append_nil]
  exact (List.map_append).symm

/-! ## Rows of texts -/

/-- Whether the lexemes can be written in a row, with a blank before each of them, and be scanned
    back; the flag tells whether a dot stands before the first one. -/
def Lexeme.Written [Letters] : Bool → List Lexeme → Prop
  | _, [] => True
  | afterDot, l :: ls =>
    l.token.Spells l.text ∧ l.token ≠ .blank ∧
      (afterDot = true → l.token = .number → l.text.all (·.isDigit) = true) ∧
      Written (l.token == .dot) ls

/-- The texts of the lexemes, with a blank before each of them. -/
def Lexeme.spaced (ls : List Lexeme) : List Char := ls.flatMap fun l => ' ' :: l.text

/-- A row of lexemes is scanned back before a blank. -/
theorem Lexeme.Written.lexes [Letters] {before : Bool} {ls : List Lexeme} (h : Written before ls)
    (kind : TagKind) (htrim : ∀ l ∈ ls, l.trim = none) (rest : List Char) :
    ∃ after, Lexes kind before (spaced ls) ls after (' ' :: rest) := by
  induction ls generalizing before with
  | nil => exact ⟨before, .nil kind before _⟩
  | cons l ls ih =>
    obtain ⟨hspells, hblank, hdot, hmore⟩ := h
    obtain ⟨after, hafter⟩ := ih hmore fun l' hl' => htrim l' (List.mem_cons_of_mem l hl')
    obtain ⟨c, cs, htext⟩ := hspells.exists_cons
    -- Either way what follows the lexeme begins with a blank.
    obtain ⟨tail, htail⟩ : ∃ tail, spaced ls ++ ' ' :: rest = ' ' :: tail := by
      cases ls with
      | nil => exact ⟨_, rfl⟩
      | cons l' ls => exact ⟨_, rfl⟩
    have hfirst : Lexes kind before [' '] [] before (l.text ++ (spaced ls ++ ' ' :: rest)) := by
      refine .blank fun x hx => ?_
      rw [htext] at hx hspells
      cases hx
      exact hspells.isBlank_head hblank
    have hl : Lexes kind before l.text [l] (l.token == .dot) (spaced ls ++ ' ' :: rest) := by
      rw [htail]
      exact .token hspells hblank (htrim l List.mem_cons_self) hdot (l.token.stops_blank _ _ _)
    refine ⟨after, ?_⟩
    rw [← List.append_assoc] at hfirst
    exact hfirst.append (hl.append hafter)

/-- A row of lexemes is scanned back, up to the closing delimiter after it. -/
theorem Lexer.feed_of_written [Letters] {lx : Lexer} {afterDot : Bool} {ls : List Lexeme}
    (h : Lexeme.Written afterDot ls) (htrim : ∀ l ∈ ls, l.trim = none)
    (hm : lx.mode = .tag .expr afterDot)
    (hr : lx.rest = Lexeme.spaced ls ++ [' ', '\x7d', '\x7d']) :
    ∃ close : Lexeme, close.token = .endExpr ∧
      bare (lx.feed .standard).1 = bare (ls ++ [close]) ∧
      (lx.feed .standard).2.2.rest = [] ∧ (lx.feed .standard).2.2.mode = .template := by
  obtain ⟨after, hlexes⟩ := h.lexes .expr htrim ['\x7d', '\x7d']
  exact hlexes.feed hm hr

end Stencil
