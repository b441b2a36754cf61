/-
  Spelling — which texts each kind of lexeme is written with.

  `Token.Spells t cs` says that `cs` is a spelling of the token `t`: the one text of a sign or
  keyword, any word that is no keyword for a name, and so on for literals.  The definition does not
  mention the scanner.  `spells_of_read` says that the scanner keeps to it: whatever follows in the
  source, a scanned lexeme is spelled as its token asks.

  Names, macro names and words after a dot differ only in which keywords they may be; numbers are
  the texts that the scanner takes as a whole and that have the parts of a number.
-/
import Stencil.Lexeme.Scan
import Mathlib.Data.List.TakeWhile

namespace Stencil

/-! ## Words, names and numbers -/

/-- Whether `cs` is a word: a character that a name may begin with and ones it may go on with. -/
def isWord [Letters] : List Char → Bool
  | [] => false
  | c :: cs => isIdentStart c && cs.all isIdentPart

/-- Whether `s` can be used as a name: a word that is not reserved. -/
def isName [Letters] (s : String) : Bool :=
  isWord s.toList && (Keyword.ofString? s).all fun k => !k.isReserved

/-- Whether `s` can be used as the name of a macro: a word that is no keyword. -/
def isPlainWord [Letters] (s : String) : Bool := isWord s.toList && (Keyword.ofString? s).isNone

/-- Whether `cs` is a number: taken as a whole, and well formed. -/
def isNumeral : List Char → Bool
  | [] => false
  | c :: cs =>
    c.isDigit && Numeral.more c cs == cs.length && (Numeral.split? (c :: cs)).isSome

/-- The token of a word. -/
def wordToken (s : String) : Token :=
  match Keyword.ofString? s with
  | some k => .keyword k
  | none => .ident

/-- The text of a token that is always written the same. -/
def Token.sign? : Token → Option (List Char)
  | .keyword k => some k.text.toList
  | .dot => some ['.']
  | .dotDot => some ['.', '.']
  | .dotDotEq => some ['.', '.', '=']
  | .comma => some [',']
  | .colon => some [':']
  | .pathSep => some [':', ':']
  | .lparen => some ['(']
  | .rparen => some [')']
  | .lbracket => some ['[']
  | .rbracket => some [']']
  | .lbrace => some ['{']
  | .rbrace => some ['}']
  | .pipe => some ['|']
  | .orOr => some ['|', '|']
  | .andAnd => some ['&', '&']
  | .amp => some ['&']
  | .bang => some ['!']
  | .question => some ['?']
  | .star => some ['*']
  | .slash => some ['/']
  | .percent => some ['%']
  | .plus => some ['+']
  | .minus => some ['-']
  | .tilde => some ['~']
  | .shl => some ['<', '<']
  | .shr => some ['>', '>']
  | .eqEq => some ['=', '=']
  | .ne => some ['!', '=']
  | .lt => some ['<']
  | .le => some ['<', '=']
  | .gt => some ['>']
  | .ge => some ['>', '=']
  | .eq => some ['=']
  | _ => none

/-- Whether `cs` is a literal between quotes `quote` whose body can be decoded to `value`. -/
def IsQuoted (quote : Char) (inChar : Bool) (cs value : List Char) : Prop :=
  ∃ body, cs = quote :: body ++ [quote] ∧
    Scan.quoteEnd quote false (body ++ [quote]) = .closed (body.length + 1) ∧
    Escape.unescape inChar body = .ok value

/-- Whether `cs` is a spelling of the token. -/
def Token.Spells [Letters] : Token → List Char → Prop
  | .ident, cs => isPlainWord (String.ofList cs) = true
  | .macroName, cs => ∃ name, cs = name ++ ['!'] ∧ isPlainWord (String.ofList name) = true
  | .number, cs => isNumeral cs = true
  | .str, cs => ∃ value, IsQuoted '\x22' false cs value
  | .char, cs => ∃ c, IsQuoted '\x27' true cs [c]
  | .blank, cs => cs ≠ [] ∧ cs.all isBlank = true
  | t, cs => t.sign? = some cs

/-- No delimiter of a tag has a spelling: which texts they are is up to the settings. -/
theorem Token.Spells.isClosing [Letters] {t : Token} {cs : List Char} (h : t.Spells cs) :
    t.isClosing = false := by
  cases t with
  | endExpr => cases h
  | endBlock => cases h
  | _ => rfl

/-! ## Quoted literals -/

namespace Scan

/-- The closing quote is the last character of those up to it, and is found without what follows. -/
theorem quoteEnd_closed {quote : Char} {escaped : Bool} {cs : List Char} {n : Nat}
    (h : quoteEnd quote escaped cs = .closed n) :
    ∃ body rest, cs = body ++ quote :: rest ∧ n = body.length + 1 ∧
      quoteEnd quote escaped (body ++ [quote]) = .closed n := by
  induction cs generalizing escaped n with
  | nil => cases h
  | cons c cs ih =>
    unfold quoteEnd at h
    split at h
    · cases h
    · next hline =>
      split at h
      · next hquote =>
        cases h
        refine ⟨[], cs, by rw [hquote.1]; rfl, rfl, ?_⟩
        rw [List.nil_append, quoteEnd, if_neg (by rw [← hquote.1]; exact hline),
          if_pos ⟨rfl, hquote.2⟩]
      · next hquote =>
        cases hq : quoteEnd quote (c = '\\' && !escaped) cs with
        | cut m => rw [hq] at h; cases h
        | closed m =>
          rw [hq] at h
          cases h
          obtain ⟨body, rest, rfl, rfl, hbody⟩ := ih hq
          refine ⟨c :: body, rest, rfl, rfl, ?_⟩
          rw [List.cons_append, quoteEnd, if_neg hline, if_neg hquote, hbody]
          rfl

/-- A literal that the scanner takes up to its closing quote is quoted. -/
theorem isQuoted_of_quoteEnd {quote : Char} {inChar : Bool} {cs value : List Char} {n : Nat}
    (h : quoteEnd quote false cs = .closed n)
    (hv : Escape.unescape inChar (cs.take (n - 1)) = .ok value) :
    IsQuoted quote inChar (quote :: cs.take n) value := by
  obtain ⟨body, rest, rfl, rfl, hbody⟩ := quoteEnd_closed h
  have htake : (body ++ quote :: rest).take (body.length + 1) = body ++ [quote] := by
    rw [List.take_append, List.take_of_length_le (Nat.le_succ _), Nat.add_sub_cancel_left]
    rfl
  have hbody' : (body ++ quote :: rest).take (body.length + 1 - 1) = body := by
    rw [Nat.add_sub_cancel, List.take_left]
  rw [hbody'] at hv
  exact ⟨body, by rw [htake]; rfl, hbody, hv⟩

end Scan

/-! ## Numbers -/

namespace Numeral

theorem extent_cons (decimal plain : Bool) (c : Char) (cs : List Char) :
    extent decimal plain (c :: cs) =
      if isDigitOrBar c then extent decimal plain cs + 1
      else if c == '.' && decimal && plain && startsDigit cs then extent decimal false cs + 1
      else if (c == 'e' || c == 'E') && decimal && startsSigned cs then
        extent decimal false (cs.drop 1) + 2
      else if c.isAlphanum then extent decimal false cs + 1
      else 0 := by
  rw [extent.eq_def]
  cases cs with
  | nil => simp only [startsSigned, Bool.and_false, Bool.false_eq_true, if_false]
  | cons s rest => rfl

theorem startsSigned_cons (s : Char) (cs : List Char) :
    startsSigned (s :: cs) = ((s == '+' || s == '-') && startsDigit cs) := by
  cases cs with
  | nil => exact (Bool.and_false _).symm
  | cons c cs => rfl

theorem extent_le (decimal plain : Bool) (cs : List Char) :
    extent decimal plain cs ≤ cs.length := by
  fun_induction extent decimal plain cs with
  | case1 => exact Nat.le_refl _
  | case2 plain c cs hbar ih => exact Nat.succ_le_succ ih
  | case3 plain c cs hbar hpoint ih => exact Nat.succ_le_succ ih
  | case4 plain c hbar hpoint hexp => exact Nat.le_refl _
  | case5 plain c hbar s rest hpoint hexp ih =>
    exact Nat.succ_le_succ (Nat.succ_le_succ ih)
  | case6 plain c cs hbar hpoint hexp halnum ih => exact Nat.succ_le_succ ih
  | case7 plain c cs hbar hpoint hexp halnum => exact Nat.zero_le _

theorem startsDigit_of_take {cs : List Char} {n : Nat} (h : startsDigit (cs.take n) = true) :
    startsDigit cs = true := by
  cases cs with
  | nil => rw [List.take_nil] at h; exact h
  | cons c cs =>
    cases n with
    | zero => cases h
    | succ n => exact h

theorem startsSigned_of_take {cs : List Char} {n : Nat} (h : startsSigned (cs.take n) = true) :
    startsSigned cs = true := by
  rcases cs with _ | ⟨s, _ | ⟨c, cs⟩⟩
  · rw [List.take_nil] at h; exact h
  · rcases n with _ | n
    · cases h
    · rw [List.take_succ_cons, List.take_nil] at h; exact h
  · rcases n with _ | _ | n
    · cases h
    · cases h
    · exact h

/-- A digit that follows is taken. -/
theorem startsDigit_take_extent (decimal plain : Bool) {cs : List Char}
    (h : startsDigit cs = true) : startsDigit (cs.take (extent decimal plain cs)) = true := by
  cases cs with
  | nil => cases h
  | cons c cs =>
    have hc : c.isDigit = true := h
    have hbar : isDigitOrBar c = true := by rw [isDigitOrBar, hc]; rfl
    rw [extent_cons, if_pos hbar, List.take_succ_cons]
    exact h

/-- The extent of a number does not depend on what comes after the number. -/
theorem extent_take (decimal plain : Bool) (cs : List Char) :
    extent decimal plain (cs.take (extent decimal plain cs)) = extent decimal plain cs := by
  fun_induction extent decimal plain cs with
  | case1 => rfl
  | case2 plain c cs hbar ih => rw [List.take_succ_cons, extent_cons, if_pos hbar, ih]
  | case3 plain c cs hbar hpoint ih =>
    have hpoint' : (c == '.' && decimal && plain
        && startsDigit (cs.take (extent decimal false cs))) = true := by
      simp only [Bool.and_eq_true] at hpoint ⊢
      exact ⟨hpoint.1, startsDigit_take_extent decimal false hpoint.2⟩
    rw [List.take_succ_cons, extent_cons, if_neg hbar, if_pos hpoint', ih]
  | case4 plain c hbar hpoint hexp =>
    simp only [startsSigned, Bool.and_false, Bool.false_eq_true] at hexp
  | case5 plain c hbar s rest hpoint hexp ih =>
    -- The sign and the digit after it are taken, too.
    have hexp' : ((c == 'e' || c == 'E') && decimal
        && startsSigned (s :: rest.take (extent decimal false rest))) = true := by
      simp only [startsSigned_cons, Bool.and_eq_true] at hexp ⊢
      exact ⟨hexp.1, hexp.2.1, startsDigit_take_extent decimal false hexp.2.2⟩
    have hpoint' : ¬ (c == '.' && decimal && plain
        && startsDigit (s :: rest.take (extent decimal false rest))) = true := hpoint
    rw [List.take_succ_cons, List.take_succ_cons, extent_cons, if_neg hbar, if_neg hpoint',
      if_pos hexp', List.drop_one, List.tail_cons, ih]
  | case6 plain c cs hbar hpoint hexp halnum ih =>
    have hpoint' : ¬ (c == '.' && decimal && plain
        && startsDigit (cs.take (extent decimal false cs))) = true := by
      intro h
      simp only [Bool.and_eq_true] at h hpoint
      exact hpoint ⟨h.1, startsDigit_of_take h.2⟩
    have hexp' : ¬ ((c == 'e' || c == 'E') && decimal
        && startsSigned (cs.take (extent decimal false cs))) = true := by
      intro h
      rw [Bool.and_eq_true] at h hexp
      exact hexp ⟨h.1, startsSigned_of_take h.2⟩
    rw [List.take_succ_cons, extent_cons, if_neg hbar, if_neg hpoint', if_neg hexp', if_pos halnum,
      ih]
  | case7 plain c cs hbar hpoint hexp halnum => rfl

/-- The text that is taken as a number is taken as a whole when it stands alone. -/
theorem more_take (c : Char) (cs : List Char) :
    more c (cs.take (more c cs)) = (cs.take (more c cs)).length := by
  have hle : more c cs ≤ cs.length := extent_le _ _ _
  rw [List.length_take, Nat.min_eq_left hle]
  rcases Nat.eq_zero_or_pos (more c cs) with hzero | hpos
  · rw [hzero]; rfl
  · have hhead : (cs.take (more c cs)).head? = cs.head? := by
      rw [List.head?_take, if_neg (Nat.ne_of_gt hpos)]
    have hmore : more c (cs.take (more c cs)) =
        extent (!(c == '0' && (cs.head? == some 'x' || cs.head? == some 'o'
          || cs.head? == some 'b'))) true (cs.take (more c cs)) := by
      rw [more, hhead]
    rw [hmore]
    exact extent_take _ true cs

theorem isDigitOrBar_of_isDigit {c : Char} (h : c.isDigit = true) : isDigitOrBar c = true := by
  rw [isDigitOrBar, h, Bool.true_or]

/-- A row of digits is taken as a whole. -/
theorem extent_digits (decimal plain : Bool) {cs : List Char} (h : cs.all (·.isDigit) = true) :
    extent decimal plain cs = cs.length := by
  induction cs with
  | nil => rfl
  | cons c cs ih =>
    rw [List.all_cons, Bool.and_eq_true] at h
    rw [extent_cons, if_pos (isDigitOrBar_of_isDigit h.1), ih h.2, List.length_cons]

/-- A row of digits is an integer without a suffix. -/
theorem split?_digits {c : Char} {cs : List Char} (hc : c.isDigit = true)
    (h : cs.all (·.isDigit) = true) : split? (c :: cs) = some (.int, []) := by
  have hdrop : (c :: cs).dropWhile isDigitOrBar = [] := by
    rw [List.dropWhile_eq_nil_iff]
    intro x hx
    refine isDigitOrBar_of_isDigit ?_
    rcases List.mem_cons.1 hx with rfl | hx
    · exact hc
    · exact List.all_eq_true.1 h x hx
  have hdecimal : splitDecimal? (c :: cs) = some (.int, []) := by
    rw [splitDecimal?, hdrop]
    rfl
  unfold split?
  -- A radix mark is no digit.
  split
  · next heq => cases heq; simp at h
  · next heq => cases heq; simp at h
  · next heq => cases heq; simp at h
  · next heq => cases heq; rw [if_pos hc, hdecimal]
  · next heq => cases heq

end Numeral

theorem isNumeral_digits {c : Char} {cs : List Char} (hc : c.isDigit = true)
    (h : cs.all (·.isDigit) = true) : isNumeral (c :: cs) = true := by
  simp only [isNumeral, Bool.and_eq_true, beq_iff_eq]
  exact ⟨⟨hc, Numeral.extent_digits _ _ h⟩, by rw [Numeral.split?_digits hc h]; rfl⟩

/-! ## Words -/

/-- A row of ASCII letters is a word, whatever other letters there are. -/
theorem isWord_of_isAlpha [Letters] {c : Char} {cs : List Char} (h : (c :: cs).all Char.isAlpha = true) :
    isWord (c :: cs) = true := by
  rw [List.all_cons, Bool.and_eq_true, List.all_eq_true] at h
  rw [isWord, isIdentStart_of_isAlpha h.1, Bool.true_and, List.all_eq_true]
  exact fun x hx => isIdentPart_of_isAlphanum (by rw [Char.isAlphanum, h.2 x hx, Bool.true_or])

theorem Keyword.isWord_text [Letters] (k : Keyword) : isWord k.text.toList = true := by
  have hletters : k.text.toList ≠ [] ∧ k.text.toList.all Char.isAlpha = true := by
    cases k <;> decide +kernel
  obtain ⟨c, cs, hcs⟩ := List.exists_cons_of_ne_nil hletters.1
  rw [hcs] at hletters ⊢
  exact isWord_of_isAlpha hletters.2

theorem Keyword.text_of_ofString? {s : String} {k : Keyword} (h : Keyword.ofString? s = some k) :
    k.text = s := by
  have := List.find?_some h
  exact eq_of_beq this

theorem take_length_takeWhile (p : Char → Bool) (cs : List Char) :
    cs.take (cs.takeWhile p).length = cs.takeWhile p :=
  (List.prefix_iff_eq_take.1 (List.takeWhile_prefix p)).symm

namespace Scan

theorem punctuation?_spells [Letters] {c : Char} {cs : List Char} {t : Token} {n : Nat}
    (h : punctuation? c cs = some (t, n)) : t.Spells (c :: cs.take n) := by
  unfold punctuation? at h
  split at h <;> cases h <;> rfl

theorem startsBang_eq {cs : List Char} (h : startsBang cs = true) : ∃ rest, cs = '!' :: rest := by
  unfold startsBang at h
  split at h
  · cases h
  · exact ⟨_, rfl⟩
  · cases h

theorem word_spells [Letters] {c : Char} {cs : List Char} {t : Token} {n : Nat}
    (hc : isIdentStart c = true) (h : word c cs = .token t n) : t.Spells (c :: cs.take n) := by
  have hword : isWord (c :: cs.takeWhile isIdentPart) = true := by
    rw [isWord, hc, Bool.true_and, List.all_takeWhile]
  unfold word at h
  dsimp only at h
  split at h
  · next k hk =>
    cases h
    rw [take_length_takeWhile]
    show some k.text.toList = some _
    rw [Keyword.text_of_ofString? hk, String.toList_ofList]
  · next hk =>
    have hplain : isPlainWord (String.ofList (c :: cs.takeWhile isIdentPart)) = true := by
      rw [isPlainWord, String.toList_ofList, hword, hk]
      rfl
    split at h
    · next hbang =>
      cases h
      obtain ⟨rest, hrest⟩ := startsBang_eq hbang
      refine ⟨c :: cs.takeWhile isIdentPart, ?_, hplain⟩
      rw [List.take_add, hrest, take_length_takeWhile]
      rfl
    · cases h
      rw [take_length_takeWhile]
      exact hplain

theorem number_spells [Letters] {afterDot : Bool} {c : Char} {cs : List Char} {t : Token} {n : Nat}
    (hc : c.isDigit = true) (h : number afterDot c cs = .token t n) : t.Spells (c :: cs.take n) := by
  unfold number at h
  split at h
  · cases h
    rw [take_length_takeWhile]
    exact isNumeral_digits hc (List.all_takeWhile)
  · dsimp only at h
    split at h
    · next hsplit =>
      cases h
      show isNumeral (c :: _) = true
      simp only [isNumeral, Bool.and_eq_true, beq_iff_eq]
      exact ⟨⟨hc, Numeral.more_take c cs⟩, by rw [hsplit]; rfl⟩
    · cases h

theorem string_spells [Letters] {d : Delims} {kind : TagKind} {cs : List Char} {t : Token} {n : Nat}
    (h : string d kind cs = .token t n) : t.Spells ('\x22' :: cs.take n) := by
  unfold string unclosedQuote at h
  split at h
  · cases h
  · next hend =>
    split at h
    · cases h
    · next hv => cases h; exact ⟨_, isQuoted_of_quoteEnd hend hv⟩

theorem char_spells [Letters] {d : Delims} {kind : TagKind} {cs : List Char} {t : Token} {n : Nat}
    (h : char d kind cs = .token t n) : t.Spells ('\x27' :: cs.take n) := by
  unfold char unclosedQuote at h
  split at h
  · cases h
  · next m hend =>
    dsimp only at h
    cases hv : Escape.unescape true (cs.take (m - 1)) with
    | error range => rw [hv] at h; cases h
    | ok value =>
      rw [hv] at h
      match value with
      | [] => cases h
      | [v] => cases h; exact ⟨v, isQuoted_of_quoteEnd hend hv⟩
      | _ :: _ :: _ => cases h

/-- A scanned lexeme is spelled as its token asks, whatever follows it. -/
theorem spells_of_read [Letters] {d : Delims} {kind : TagKind} {afterDot : Bool} {c : Char}
    {cs : List Char} {t : Token} {n : Nat}
    (h : read d kind afterDot c cs = .token t n) : t.Spells (c :: cs.take n) := by
  unfold read at h
  split at h
  · next hp => cases h; exact punctuation?_spells hp
  split at h
  · next hq => rw [hq]; exact string_spells h
  split at h
  · next hq => rw [hq]; exact char_spells h
  split at h
  · next hdigit => exact number_spells hdigit h
  split at h
  · next hblank =>
    cases h
    rw [take_length_takeWhile]
    refine ⟨List.cons_ne_nil _ _, ?_⟩
    rw [List.all_cons, hblank, Bool.true_and, List.all_takeWhile]
  split at h
  · next hstart => exact word_spells hstart h
  · cases h

end Scan

end Stencil
