/-
  Within — what is read within a stretch of text does not depend on what comes after the stretch.

  A scan takes as much as it can, so what it takes may be a matter of what comes next: `a` is a name in
  `a!=b` and the front of a macro name in `a!`.  But if all that is taken lies within a stretch of text,
  then it is taken, too, when any blank comes after the stretch (`Scan.read_blank`).  There are two
  exceptions: a row of blanks must end within the stretch, and the stretch must not end between an
  exclamation mark and an equals sign.

  The same holds of the delimiters, because no standard delimiter has a blank in it: where none stands,
  none stands when a blank comes after the stretch.
-/
import Stencil.Proofs.Lexer.Tight

namespace Stencil

/-- A blank is different from what is none. -/
theorem ne_of_isBlank {w c : Char} (hw : isBlank w = true) (hc : isBlank c = false) : w ≠ c := by
  rintro rfl
  rw [hw] at hc
  cases hc

/-! ## Rows of characters -/

namespace Scan

/-- A row that ends within the stretch ends there whatever comes after it. -/
theorem takeWhile_within {p : Char → Bool} {a y : List Char}
    (h : ((a ++ y).takeWhile p).length < a.length) (z : List Char) :
    (a ++ z).takeWhile p = (a ++ y).takeWhile p := by
  induction a with
  | nil => exact absurd h (Nat.not_lt_zero _)
  | cons c a ih =>
    by_cases hc : p c = true
    · rw [List.cons_append, List.takeWhile_cons_of_pos hc, List.length_cons, List.length_cons] at h
      rw [List.cons_append, List.cons_append, List.takeWhile_cons_of_pos hc,
        List.takeWhile_cons_of_pos hc, ih (Nat.lt_of_succ_lt_succ h)]
    · rw [List.cons_append, List.cons_append, List.takeWhile_cons_of_neg hc,
        List.takeWhile_cons_of_neg hc]

/-- A row without blanks that ends within the stretch, or with it, ends there before a blank. -/
theorem takeWhile_blank {p : Char → Bool} {w : Char} (hp : p w = false) {a y : List Char}
    (h : ((a ++ y).takeWhile p).length ≤ a.length) (z : List Char) :
    (a ++ w :: z).takeWhile p = (a ++ y).takeWhile p := by
  induction a with
  | nil =>
    have hnil : y.takeWhile p = [] := List.length_eq_zero_iff.1 (Nat.le_zero.1 h)
    rw [List.nil_append, List.nil_append, hnil]
    exact List.takeWhile_cons_of_neg (by rw [hp]; exact Bool.false_ne_true)
  | cons c a ih =>
    by_cases hc : p c = true
    · rw [List.cons_append, List.takeWhile_cons_of_pos hc, List.length_cons, List.length_cons] at h
      rw [List.cons_append, List.cons_append, List.takeWhile_cons_of_pos hc,
        List.takeWhile_cons_of_pos hc, ih (Nat.le_of_succ_le_succ h)]
    · rw [List.cons_append, List.cons_append, List.takeWhile_cons_of_neg hc,
        List.takeWhile_cons_of_neg hc]
end Scan

/-! ## Numbers -/

namespace Numeral

variable {w : Char} (hw : isBlank w = true)

include hw

theorem startsDigit_of_blank {a : List Char} (y z : List Char)
    (h : startsDigit (a ++ w :: z) = true) : startsDigit (a ++ y) = true := by
  cases a with
  | nil =>
    have hdigit : w.isDigit = true := h
    rw [isBlank_of_isDigit hdigit] at hw
    cases hw
  | cons c a => exact h

theorem startsSigned_of_blank {a : List Char} (y z : List Char)
    (h : startsSigned (a ++ w :: z) = true) : startsSigned (a ++ y) = true := by
  cases a with
  | nil =>
    rw [List.nil_append, startsSigned_cons, Bool.and_eq_true, Bool.or_eq_true, beq_iff_eq,
      beq_iff_eq] at h
    rcases h.1 with rfl | rfl <;> cases hw
  | cons s a =>
    rw [List.cons_append, startsSigned_cons, Bool.and_eq_true] at h ⊢
    exact ⟨h.1, startsDigit_of_blank hw y z h.2⟩

omit hw in
/-- Where a digit follows, the number takes it; so it lies within the stretch. -/
theorem startsDigit_blank {decimal plain : Bool} {a y : List Char} (z : List Char)
    (hle : extent decimal plain (a ++ y) ≤ a.length) (h : startsDigit (a ++ y) = true) :
    startsDigit (a ++ w :: z) = true := by
  cases a with
  | cons c a => exact h
  | nil =>
    have htake := startsDigit_take_extent decimal plain h
    rw [Nat.le_zero.1 hle] at htake
    cases htake

/-- A blank belongs to no number. -/
theorem extent_space (decimal plain : Bool) (z : List Char) : extent decimal plain (w :: z) = 0 := by
  have hnot : ∀ {p : Char → Bool}, (∀ {c : Char}, p c = true → isBlank c = false) → ¬ p w = true := by
    intro p hp htrue
    rw [hp htrue] at hw
    cases hw
  have hpoint : (w == '.') = false := beq_false_of_ne (ne_of_isBlank hw (by decide))
  have hletter : (w == 'e') = false ∧ (w == 'E') = false :=
    ⟨beq_false_of_ne (ne_of_isBlank hw (by decide)), beq_false_of_ne (ne_of_isBlank hw (by decide))⟩
  rw [extent_cons, if_neg (hnot isBlank_of_isDigitOrBar), hpoint, hletter.1, hletter.2]
  exact if_neg (hnot isBlank_of_isAlphanum)

/-- A number that ends within the stretch ends there before a blank. -/
theorem extent_blank (decimal plain : Bool) {a y : List Char}
    (h : extent decimal plain (a ++ y) ≤ a.length) (z : List Char) :
    extent decimal plain (a ++ w :: z) = extent decimal plain (a ++ y) := by
  -- By the length and not along the list, since a signed exponent takes two characters at once.
  induction hlength : a.length using Nat.strongRecOn generalizing plain a with
  | ind length ih =>
  cases a with
  | nil =>
    rw [List.nil_append] at h
    rw [List.nil_append, List.nil_append, Nat.le_zero.1 h, extent_space hw]
  | cons c a =>
    have hless : a.length < length := by rw [← hlength]; exact Nat.lt_succ_self _
    have step : ∀ plain, extent decimal plain (a ++ y) + 1 ≤ a.length + 1 →
        extent decimal plain (a ++ w :: z) = extent decimal plain (a ++ y) :=
      fun plain hle => ih a.length hless plain (Nat.le_of_succ_le_succ hle) rfl
    rw [List.cons_append, extent_cons, List.length_cons] at h
    rw [List.cons_append, List.cons_append, extent_cons, extent_cons]
    by_cases hbar : isDigitOrBar c = true
    · rw [if_pos hbar] at h
      rw [if_pos hbar, if_pos hbar, step plain h]
    rw [if_neg hbar] at h
    rw [if_neg hbar, if_neg hbar]
    -- What is asked about the next characters has the same answer before the blank: the number does not
    -- reach the end of the stretch, so neither does what it looks at.
    by_cases hpoint : (c == '.' && decimal && plain && startsDigit (a ++ y)) = true
    · rw [if_pos hpoint] at h
      have hpoint' : (c == '.' && decimal && plain && startsDigit (a ++ w :: z)) = true := by
        rw [Bool.and_eq_true] at hpoint ⊢
        exact ⟨hpoint.1, startsDigit_blank z (Nat.le_of_succ_le_succ h) hpoint.2⟩
      rw [if_pos hpoint, if_pos hpoint', step false h]
    have hpoint' : ¬ (c == '.' && decimal && plain && startsDigit (a ++ w :: z)) = true := by
      intro hnew
      rw [Bool.and_eq_true] at hnew hpoint
      exact hpoint ⟨hnew.1, startsDigit_of_blank hw y z hnew.2⟩
    rw [if_neg hpoint] at h
    rw [if_neg hpoint, if_neg hpoint']
    by_cases hexp : ((c == 'e' || c == 'E') && decimal && startsSigned (a ++ y)) = true
    · rw [if_pos hexp] at h
      cases a with
      | nil =>
        rw [List.length_nil] at h
        omega
      | cons s a =>
        rw [List.cons_append, List.drop_one, List.tail_cons, List.length_cons] at h
        have hle : extent decimal false (a ++ y) ≤ a.length := by omega
        have hexp' : ((c == 'e' || c == 'E') && decimal && startsSigned (s :: a ++ w :: z)) = true := by
          rw [List.cons_append, startsSigned_cons, Bool.and_eq_true _ (_ && _),
            Bool.and_eq_true _ (startsDigit _)] at hexp ⊢
          exact ⟨hexp.1, hexp.2.1, startsDigit_blank z hle hexp.2.2⟩
        have hless' : a.length < length := by
          rw [List.length_cons] at hless
          omega
        rw [if_pos hexp, if_pos hexp', List.cons_append, List.drop_one, List.tail_cons,
          List.cons_append, List.drop_one, List.tail_cons, ih a.length hless' false hle rfl]
    have hexp' : ¬ ((c == 'e' || c == 'E') && decimal && startsSigned (a ++ w :: z)) = true := by
      intro hnew
      rw [Bool.and_eq_true] at hnew hexp
      exact hexp ⟨hnew.1, startsSigned_of_blank hw y z hnew.2⟩
    rw [if_neg hexp] at h
    rw [if_neg hexp, if_neg hexp']
    by_cases halnum : c.isAlphanum = true
    · rw [if_pos halnum] at h
      rw [if_pos halnum, if_pos halnum, step false h]
    · rw [if_neg halnum, if_neg halnum]

theorem more_blank (c : Char) {a y : List Char} (h : more c (a ++ y) ≤ a.length) (z : List Char) :
    more c (a ++ w :: z) = more c (a ++ y) := by
  cases a with
  | cons d a => exact extent_blank hw _ _ h z
  | nil =>
    rw [List.nil_append] at h
    rw [List.nil_append, List.nil_append, Nat.le_zero.1 h]
    unfold more
    rw [extent_space hw]

end Numeral

/-! ## Scanning -/

namespace Scan

variable {d : Delims} {kind : TagKind} {afterDot : Bool} {c w : Char} {cs a y : List Char} {t : Token}
  {n : Nat}

theorem word_le [Letters] (h : word c cs = .token t n) : n ≤ cs.length := by
  have htail := (List.takeWhile_prefix (l := cs) isIdentPart).length_le
  unfold word at h
  dsimp only at h
  split at h
  · cases h
    exact htail
  · split at h
    · next hmark =>
      cases h
      obtain ⟨rest, hrest⟩ := startsBang_eq hmark
      have hlength := congrArg List.length hrest
      rw [List.length_drop, List.length_cons] at hlength
      omega
    · cases h
      exact htail

theorem quoteEnd_le {quote : Char} {escaped : Bool} (h : quoteEnd quote escaped cs = .closed n) :
    n ≤ cs.length := by
  obtain ⟨body, rest, rfl, rfl, -⟩ := quoteEnd_closed h
  rw [List.length_append, List.length_cons]
  omega

/-- A text literal is read where its closing quote is found. -/
theorem string_eq_token (h : string d kind cs = .token t n) :
    t = .str ∧ quoteEnd '\x22' false cs = .closed n := by
  unfold string unclosedQuote at h
  split at h
  · cases h
  · next hend =>
    split at h <;> cases h
    exact ⟨rfl, hend⟩

/-- So is a character literal. -/
theorem char_eq_token (h : char d kind cs = .token t n) :
    t = .char ∧ quoteEnd '\x27' false cs = .closed n := by
  unfold char unclosedQuote at h
  split at h
  · cases h
  · next m hend =>
    dsimp only at h
    cases hv : Escape.unescape true (cs.take (m - 1)) with
    | error range => rw [hv] at h; cases h
    | ok value =>
      rw [hv] at h
      match value with
      | [] => cases h
      | [v] => cases h; exact ⟨rfl, hend⟩
      | _ :: _ :: _ => cases h

/-- What is read is there. -/
theorem read_le [Letters] (h : read d kind afterDot c cs = .token t n) : n ≤ cs.length := by
  unfold read at h
  split at h
  · next t' more hsign =>
    cases h
    unfold punctuation? at hsign
    split at hsign <;> cases hsign <;> simp
  split at h
  · exact quoteEnd_le (string_eq_token h).2
  split at h
  · exact quoteEnd_le (char_eq_token h).2
  split at h
  · unfold number at h
    split at h
    · cases h
      exact (List.takeWhile_prefix _).length_le
    · dsimp only at h
      split at h <;> cases h
      exact Numeral.extent_le _ _ _
  split at h
  · cases h
    exact (List.takeWhile_prefix _).length_le
  split at h
  · exact word_le h
  · cases h

/-- Whether a character begins a sign does not depend on what follows it. -/
theorem punctuation?_none (h : punctuation? c cs = none) (cs' : List Char) :
    punctuation? c cs' = none := by
  unfold punctuation? at h
  split at h <;> first | contradiction | (unfold punctuation?; split <;> simp_all)

/-- Before a blank every sign is as before the space. -/
theorem punctuation?_of_blank (hw : isBlank w = true) (c : Char) (z : List Char) :
    punctuation? c (w :: z) = punctuation? c (' ' :: z) ∧
      ∀ x, punctuation? c (x :: w :: z) = punctuation? c (x :: ' ' :: z) := by
  have hnot : w ≠ '.' ∧ w ≠ ':' ∧ w ≠ '|' ∧ w ≠ '&' ∧ w ≠ '=' ∧ w ≠ '<' ∧ w ≠ '>' := by
    refine ⟨?_, ?_, ?_, ?_, ?_, ?_, ?_⟩ <;> exact ne_of_isBlank hw (by decide)
  constructor
  · unfold punctuation?
    split <;> simp_all
  · intro x
    unfold punctuation?
    split <;> simp_all

/-- A sign has at most two more characters. -/
theorem punctuation?_two (c x x' : Char) (cs cs' : List Char) :
    punctuation? c (x :: x' :: cs) = punctuation? c (x :: x' :: cs') := by
  by_cases hdots : c = '.' ∧ x = '.'
  · obtain ⟨rfl, rfl⟩ := hdots
    by_cases hx' : x' = '='
    · subst hx'
      rfl
    · simp [punctuation?, hx']
  · unfold punctuation?
    split <;> simp_all

theorem punctuation?_blank (hw : isBlank w = true) (h : punctuation? c (a ++ y) = some (t, n))
    (hn : n ≤ a.length) (z : List Char) : punctuation? c (a ++ w :: z) = some (t, n) := by
  rcases a with _ | ⟨x, _ | ⟨x', a⟩⟩
  · rw [List.nil_append, (punctuation?_of_blank hw c z).1]
    unfold punctuation? at h
    rw [List.nil_append] at h
    have hzero : n = 0 := Nat.le_zero.1 hn
    split at h <;> cases h <;> first | rfl | cases hzero
  · unfold punctuation? at h
    rw [List.singleton_append] at h
    rw [List.singleton_append, (punctuation?_of_blank hw c z).2]
    clear hw
    have hone : n ≤ 1 := hn
    split at h <;> cases h <;> simp_all [punctuation?]
  · rw [← h]
    exact punctuation?_two c x x' _ _

theorem startsBang_blank (hw : isBlank w = true) (hnil : a = [] → startsBang y = false)
    (hmark : a = ['!'] → startsBang (a ++ y) = true) (z : List Char) :
    startsBang (a ++ w :: z) = startsBang (a ++ y) := by
  rcases a with _ | ⟨x, _ | ⟨x', a⟩⟩
  · have hbang : w ≠ '!' := ne_of_isBlank hw (by decide)
    rw [List.nil_append, List.nil_append, hnil rfl]
    simp [startsBang, hbang]
  · by_cases hx : x = '!'
    · subst hx
      have heq : w ≠ '=' := ne_of_isBlank hw (by decide)
      rw [hmark rfl]
      simp [startsBang, heq]
    · simp [startsBang, hx]
  · by_cases hmark : x = '!' ∧ x' = '='
    · obtain ⟨rfl, rfl⟩ := hmark
      rfl
    · unfold startsBang
      split <;> simp_all

theorem number_blank (hw : isBlank w = true) (h : number afterDot c (a ++ y) = .token t n)
    (hn : n ≤ a.length) (z : List Char) :
    number afterDot c (a ++ w :: z) = .token t n := by
  unfold number at h ⊢
  cases afterDot with
  | true =>
    rw [if_pos rfl] at h ⊢
    cases h
    have hdigit : w.isDigit = false := by
      rw [Bool.eq_false_iff]
      intro hdigit
      rw [isBlank_of_isDigit hdigit] at hw
      cases hw
    rw [takeWhile_blank hdigit hn]
  | false =>
    rw [if_neg Bool.false_ne_true] at h ⊢
    dsimp only at h ⊢
    -- The length is the extent whether or not the number is well formed.
    have hmore : Numeral.more c (a ++ y) = n := by
      split at h <;> cases h
      rfl
    rw [Numeral.more_blank hw c (by rw [hmore]; exact hn) z, hmore]
    rw [hmore, List.take_append_of_le_length hn] at h
    rw [List.take_append_of_le_length hn]
    exact h

theorem word_blank [Letters] (hw : isBlank w = true) (h : word c (a ++ y) = .token t n) (hn : n ≤ a.length)
    (hmark : a.drop n = ['!'] → y.head? ≠ some '=') (z : List Char) :
    word c (a ++ w :: z) = .token t n := by
  unfold word at h ⊢
  dsimp only at h ⊢
  have hlength : ((a ++ y).takeWhile isIdentPart).length ≤ a.length := by
    split at h
    · cases h; exact hn
    · split at h <;> cases h <;> omega
  rw [takeWhile_blank (isIdentPart_of_isBlank hw) hlength]
  generalize (a ++ y).takeWhile isIdentPart = tail at h hlength ⊢
  cases hword : Keyword.ofString? (String.ofList (c :: tail)) with
  | some k => rw [hword] at h; exact h
  | none =>
    rw [hword] at h
    dsimp only at h ⊢
    rw [List.drop_append_of_le_length hlength] at h
    rw [List.drop_append_of_le_length hlength]
    have hsame : startsBang (a.drop tail.length ++ w :: z) = startsBang (a.drop tail.length ++ y) := by
      apply startsBang_blank hw
      · -- The mark of a macro name is among what was read.
        intro hnil
        rw [Bool.eq_false_iff]
        intro htrue
        rw [hnil, List.nil_append, if_pos htrue] at h
        cases h
        have hle := List.drop_eq_nil_iff.1 hnil
        omega
      · intro hlast
        by_cases htrue : startsBang (a.drop tail.length ++ y) = true
        · exact htrue
        rw [if_neg htrue] at h
        cases h
        have hy := hmark hlast
        rw [hlast, List.singleton_append]
        unfold startsBang
        split
        · next heq => cases heq; exact absurd rfl hy
        · rfl
        · next hnot => exact absurd rfl (hnot y)
    rw [hsame]
    exact h

/-- What is read within a stretch is read there before a blank, too, in tags of any kind. -/
theorem read_blank [Letters] (hw : isBlank w = true) (h : read d kind afterDot c (a ++ y) = .token t n)
    (hn : n ≤ a.length)
    (hblank : t = .blank → n < a.length) (hmark : a.drop n = ['!'] → y.head? ≠ some '=')
    (d' : Delims) (kind' : TagKind) (z : List Char) :
    read d' kind' afterDot c (a ++ w :: z) = .token t n := by
  have hspells := spells_of_read h
  unfold read at h
  cases hsign : punctuation? c (a ++ y) with
  | some r =>
    rw [hsign] at h
    cases h
    unfold read
    rw [punctuation?_blank hw hsign hn]
  | none =>
    rw [hsign] at h
    dsimp only at h
    have quoted : t = .str ∨ t = .char →
        read d' kind' afterDot c (a ++ w :: z) = .token t n := by
      intro ht
      have hread : read d' kind' afterDot c (_ ++ (a.drop n ++ w :: z)) = .token t _ :=
        read_of_spells hspells (by rcases ht with rfl | rfl <;> decide)
        (by rcases ht with rfl | rfl <;> nofun)
        (by rcases ht with rfl | rfl <;> exact fun _ _ => List.not_mem_nil)
      rw [List.take_append_of_le_length hn, ← List.append_assoc, List.take_append_drop,
        List.length_take_of_le hn] at hread
      exact hread
    have sameSign : punctuation? c (a ++ w :: z) = none := punctuation?_none hsign _
    by_cases hquote : c = '\x22'
    · rw [if_pos hquote] at h
      exact quoted (.inl (string_eq_token h).1)
    rw [if_neg hquote] at h
    by_cases happ : c = '\x27'
    · rw [if_pos happ] at h
      exact quoted (.inr (char_eq_token h).1)
    rw [if_neg happ] at h
    unfold read
    rw [sameSign]
    dsimp only
    rw [if_neg hquote, if_neg happ]
    by_cases hdigit : c.isDigit = true
    · rw [if_pos hdigit] at h ⊢
      exact number_blank hw h hn z
    rw [if_neg hdigit] at h ⊢
    by_cases hspace : isBlank c = true
    · rw [if_pos hspace] at h ⊢
      cases h
      rw [takeWhile_within (hblank rfl)]
    rw [if_neg hspace] at h ⊢
    by_cases hstart : isIdentStart c = true
    · rw [if_pos hstart] at h ⊢
      exact word_blank hw h hn hmark z
    · rw [if_neg hstart] at h
      cases h

end Scan


/-! ## Delimiters -/

/-- A delimiter without a blank does not reach over one. -/
theorem Delim.startsAt_of_blank {delim : Delim} {w : Char} (hblank : w ∉ delim.text) {a : List Char}
    (y z : List Char) (h : delim.startsAt (a ++ w :: z) = true) :
    delim.startsAt (a ++ y) = true := by
  rw [Delim.startsAt_iff] at h ⊢
  rcases Nat.lt_or_ge a.length delim.text.length with hlong | hshort
  · -- It would have the blank.
    exfalso
    apply hblank
    have hprefix : a ++ [w] <+: delim.text := by
      refine List.prefix_of_prefix_length_le ?_ h ?_
      · exact ⟨z, by simp⟩
      · rw [List.length_append, List.length_singleton]
        exact hlong
    exact hprefix.subset (List.mem_append_right a List.mem_cons_self)
  · exact (List.prefix_of_prefix_length_le h (List.prefix_append a _) hshort).trans
      (List.prefix_append a y)

theorem DelimPair.closingAt_eq_none_iff {p : DelimPair} {cs : List Char} :
    p.closingAt cs = none ↔ p.closing.startsAt cs = false ∧
      ((Trim.ofHead? cs).isSome = true → p.closing.startsAt cs.tail = false) := by
  unfold DelimPair.closingAt
  dsimp only
  cases Trim.ofHead? cs <;> cases p.closing.startsAt cs <;> cases p.closing.startsAt cs.tail <;> simp

namespace Delims

theorem foldl_longer_ne_none (b : DelimKind × Delim) (os : List (DelimKind × Delim)) :
    os.foldl longer (some b) ≠ none := by
  induction os generalizing b with
  | nil => exact Option.some_ne_none b
  | cons o os ih =>
    rw [List.foldl_cons]
    unfold longer
    dsimp only
    split
    · exact ih o
    · exact ih b

theorem openingAt_eq_none_iff {d : Delims} {cs : List Char} :
    d.openingAt cs = none ↔ ∀ o ∈ d.openings, o.2.startsAt cs = false := by
  unfold openingAt longestAt
  rw [Option.map_eq_none_iff]
  cases hfilter : d.openings.filter fun o => o.2.startsAt cs with
  | nil =>
    rw [List.filter_eq_nil_iff] at hfilter
    exact ⟨fun _ o ho => Bool.eq_false_iff.2 (hfilter o ho), fun _ => rfl⟩
  | cons o os =>
    obtain ⟨hmem, hstarts⟩ := List.mem_filter.1 (show o ∈ d.openings.filter _ by
      rw [hfilter]; exact List.mem_cons_self)
    constructor
    · intro hnone
      exact absurd hnone (foldl_longer_ne_none o os)
    · intro hall
      rw [hall o hmem] at hstarts
      cases hstarts

variable {w : Char} (hw : isBlank w = true)

include hw

/-- No blank is among the standard delimiters. -/
theorem standard_blankless :
    (∀ o ∈ standard.openings, w ∉ o.2.text) ∧
      ∀ kind p, standard.pair (.tag kind) = some p → w ∉ p.closing.text := by
  have solid : ∀ {cs : List Char}, (cs.all fun c => !isBlank c) = true → w ∉ cs := by
    intro cs hall hmem
    have hno := List.all_eq_true.1 hall w hmem
    rw [hw] at hno
    cases hno
  have hopenings : (standard.openings.all fun o => o.2.text.all fun c => !isBlank c) = true := by decide
  constructor
  · intro o ho
    exact solid (List.all_eq_true.1 hopenings o ho)
  · intro kind p hp
    cases kind <;> cases hp <;> exact solid (by decide)

theorem openingAt_blank {a y : List Char} (h : standard.openingAt (a ++ y) = none) (z : List Char) :
    standard.openingAt (a ++ w :: z) = none := by
  rw [openingAt_eq_none_iff] at h ⊢
  intro o ho
  rw [Bool.eq_false_iff]
  intro hnew
  have hold := Delim.startsAt_of_blank ((standard_blankless hw).1 o ho) y z hnew
  rw [h o ho] at hold
  cases hold

/-- Where no tag is closed, a blank does not close it. -/
theorem closingAt_blank {kind : TagKind} {c : Char} {a y : List Char}
    (h : standard.closingAt kind (c :: (a ++ y)) = none) (z : List Char) :
    standard.closingAt kind (c :: (a ++ w :: z)) = none := by
  obtain ⟨p, hp⟩ : ∃ p, standard.pair (.tag kind) = some p := by cases kind <;> exact ⟨_, rfl⟩
  unfold closingAt at h ⊢
  rw [hp, Option.bind_some] at h ⊢
  rw [DelimPair.closingAt_eq_none_iff] at h ⊢
  have keeps : ∀ b : List Char, p.closing.startsAt (b ++ y) = false →
      p.closing.startsAt (b ++ w :: z) = false := by
    intro b hold
    rw [Bool.eq_false_iff] at hold ⊢
    exact fun hnew => hold (Delim.startsAt_of_blank ((standard_blankless hw).2 kind p hp) y z hnew)
  exact ⟨keeps (c :: a) h.1, fun htrim => keeps a (h.2 htrim)⟩

end Delims

end Stencil
