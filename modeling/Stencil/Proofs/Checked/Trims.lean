/-
  Trims — the modifiers of a tag or comment, read off once more.

  A node records modifiers that the lexer has come by, but they are not handed on: each delimiter is looked
  for again at the byte where it begins.  For the closing delimiter of a comment that byte is computed from
  the end, one byte more than the delimiter takes.  The difference may go below zero, or lead into the
  opening delimiter or inside a character, and then the comment has no modifier there; the program asks for
  each of these.
-/
import Stencil.Proofs.Checked.Lexer
import Stencil.Proofs.Template.CommentTrims

namespace Stencil

/-- The inside of a comment up to the closing delimiter that ends it. -/
theorem DelimPair.exists_before {p : DelimPair} {inside : List Char} {n : Nat} {t : Option Trim}
    (h : p.commentEnd 0 inside = some (n, t)) :
    ∃ before more, inside = before ++ (p.closing.text ++ more) ∧ n = before.length + p.closing.length := by
  obtain ⟨used, rest, close, hgets, -, hclose, hlength, -⟩ := Gets.start.exists_end h
  obtain ⟨htext, hdelim⟩ := closing_text hclose
  refine ⟨used ++ Trim.text close.trim, rest.drop close.size, ?_, ?_⟩
  · rw [hgets.text, List.append_assoc, ← List.append_assoc (Trim.text _), ← htext,
      List.take_append_drop]
  · rw [List.length_append, Trim.length_text]
    unfold Closing.size at hlength
    rw [hdelim, List.length_nil] at hlength
    omega

namespace Checked

/-- The modifier after the opening delimiter at byte `i`. -/
def openingTrim? (d : Delims) (source : List Char) (i : Nat) : Option (Option Trim) := do
  return (← beginAt? d source i).bind (·.trim)

/-- The modifier before the closing delimiter at byte `i`. -/
def closingTrim? (d : Delims) (kind : DelimKind) (source : List Char) (i : Nat) :
    Option (Option Trim) := do
  return (← endAt? d kind source i).bind (·.trim)

/-- The modifier before the closing delimiter of a comment that ends at byte `stop`. -/
def commentClosing? (d : Delims) (source : List Char) (opening : Mark) (stop : Nat) :
    Option (Option Trim) :=
  match d.comment with
  | none => some none
  | some p =>
    match sub? stop (byteLen p.closing.text + 1) with
    | none => some none
    | some i => if i < opening.stop then some none else closingTrim? d .comment source i

/-- The modifiers of the comment at a place. -/
def commentTrims? (d : Delims) (source : List Char) (span : Span) (closed : Bool) :
    Option Trims := do
  match ← beginAt? d source span.start with
  | none => return ⟨none, none⟩
  | some m =>
    if closed then return ⟨m.trim, ← commentClosing? d source m span.stop⟩
    else return ⟨m.trim, none⟩

variable {d : Delims} {p : DelimPair} {source rest before more : List Char} {i n : Nat} {o : Opening}
  {t : Option Trim}

theorem openingTrim?_eq (h : At source i rest) :
    openingTrim? d source i = some ((d.openingAt rest).bind (·.trim)) := by
  unfold openingTrim?
  rw [beginAt?_eq h]
  cases d.openingAt rest <;> rfl

theorem closingTrim?_eq {kind : DelimKind} (hp : d.pair kind = some p) (h : At source i rest) :
    closingTrim? d kind source i = some ((p.closingAt rest).bind (·.trim)) := by
  unfold closingTrim?
  rw [endAt?_eq h, hp, Option.bind_some]
  cases p.closingAt rest <;> rfl

/-- The character before a closing delimiter is taken for its modifier. -/
theorem closingAt_trim (p : DelimPair) (c : Char) (more : List Char) :
    (p.closingAt (c :: (p.closing.text ++ more))).bind (·.trim) = Trim.ofChar? c := by
  have hstarts : p.closing.startsAt (p.closing.text ++ more) = true :=
    Delim.startsAt_iff.2 (List.prefix_append _ _)
  unfold DelimPair.closingAt
  rw [show Trim.ofHead? (c :: (p.closing.text ++ more)) = Trim.ofChar? c from rfl]
  cases Trim.ofChar? c with
  | some t =>
    dsimp only
    rw [List.tail_cons, if_pos hstarts]
    rfl
  | none =>
    dsimp only
    split <;> rfl

theorem utf8Size_of_ofChar? {c : Char} {t : Trim} (h : Trim.ofChar? c = some t) : c.utf8Size = 1 := by
  have hhead : [c] = [t.toChar] := Trim.ofHead?_eq_some h
  rw [(List.cons.inj hhead).1]
  cases t <;> rfl

/-- One byte before the closing delimiter stands the last character of the inside, unless the inside is
    empty or that character is longer. -/
theorem commentClosing?_eq (hp : d.comment = some p) (m : Mark) (hpos : 0 < m.stop)
    (h : At source m.stop (before ++ (p.closing.text ++ more))) :
    commentClosing? d source m (m.stop + byteLen (before ++ p.closing.text)) =
      some (before.getLast?.bind Trim.ofChar?) := by
  unfold commentClosing?
  rw [hp]
  dsimp only
  rcases List.eq_nil_or_concat before with rfl | ⟨front, c, rfl⟩
  · rw [sub?_of_le (by rw [List.nil_append]; omega)]
    dsimp only
    rw [if_pos (by rw [List.nil_append]; omega)]
    rfl
  · have hsize := c.utf8Size_pos
    rw [List.concat_eq_append] at h ⊢
    rw [List.append_assoc] at h
    have hat := h.append
    have hstop : m.stop + byteLen (front ++ [c] ++ p.closing.text) =
        m.stop + byteLen front + (c.utf8Size - 1) + (byteLen p.closing.text + 1) := by
      rw [byteLen_append, byteLen_append, byteLen_cons, byteLen_nil]
      omega
    rw [hstop, sub?_add]
    dsimp only
    rw [if_neg (by omega), List.getLast?_concat, Option.bind_some]
    by_cases hone : c.utf8Size = 1
    · have hpair : d.pair .comment = some p := hp
      rw [hone, Nat.sub_self, Nat.add_zero, closingTrim?_eq hpair hat]
      exact congrArg some (closingAt_trim p c more)
    · have hinside := hat.inside (k := c.utf8Size - 1) (by omega) (by omega)
      have hnone : Trim.ofChar? c = none := by
        cases htrim : Trim.ofChar? c with
        | none => rfl
        | some t => exact absurd (utf8Size_of_ofChar? htrim) hone
      unfold closingTrim? endAt?
      rw [show d.pair .comment = some p from hp, hnone]
      dsimp only
      rw [hinside]
      rfl

/-- The modifiers of a complete comment are those that its text records. -/
theorem commentTrims?_closed (h : At source i rest) (ho : d.openingAt rest = some o)
    (hk : o.kind = .comment) (hmore : d.commentMore (rest.drop o.size) = some n) :
    commentTrims? d source ⟨i, i + byteLen (rest.take (o.size + n))⟩ true =
      some (d.commentTrims (rest.take (o.size + n)) true) := by
  obtain ⟨p, hp, -, -⟩ := Delims.opening_text ho hk
  obtain ⟨⟨n, t⟩, hend, rfl⟩ : ∃ found, p.commentEnd 0 (rest.drop o.size) = some found ∧ found.1 = n := by
    unfold Delims.commentMore at hmore
    rw [show d.comment = some p from hp, Option.bind_some] at hmore
    exact Option.map_eq_some_iff.1 hmore
  obtain ⟨before, more, hinside, rfl⟩ := DelimPair.exists_before hend
  have hat := h.opening ho
  rw [hinside] at hat
  have hpos : 0 < (openingMark i o).stop := by
    have := byteLen_pos (List.cons_ne_nil o.delim.head o.delim.tail)
    show 0 < i + (byteLen (o.delim.head :: o.delim.tail) + _)
    omega
  have hstop : i + byteLen (rest.take (o.size + (before.length + p.closing.length))) =
      (openingMark i o).stop + byteLen (before ++ p.closing.text) := by
    rw [stop_openingMark ho, List.take_add, hinside, ← List.append_assoc,
      List.take_left' (by rw [List.length_append, Delim.length_text]), byteLen_append,
      Nat.add_assoc]
  have hclosing := commentClosing?_eq hp (openingMark i o) hpos hat
  have htrims := (Delims.commentTrims_of_end hp ho hend).1
  rw [hinside, Nat.add_sub_cancel, List.take_left] at htrims
  unfold commentTrims?
  rw [htrims, beginAt?_eq h, ho, hstop]
  simp only [Option.map_some, Option.bind_eq_bind, Option.bind_some, if_true, hclosing, Option.pure_def]
  rfl

/-- Of a comment without an end only the modifier of the opening delimiter is recorded. -/
theorem commentTrims?_open (h : At source i rest) (stop : Nat) :
    commentTrims? d source ⟨i, stop⟩ false = some (d.commentTrims rest false) := by
  unfold commentTrims? Delims.commentTrims
  rw [beginAt?_eq h]
  cases d.openingAt rest <;> rfl

end Checked

end Stencil
