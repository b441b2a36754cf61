/-
  Refusal — the place that a fault of the lexer is about.

  A fault comes with a range of bytes, and the ranges are computed in several ways: from an escape
  inside a literal, from a literal cut short, from a delimiter that should not be there.  Each of them
  is the range of a piece of the text (`Span.IsPiece`): its ends are in order, inside the text and
  between characters, whatever the characters are.

  The piece need not belong to the tag: an opening delimiter is reported where the tag is left, and
  stands behind it.  But it never starts behind the place where reading goes on (`Refuses.piece`).
  The same holds of every complaint a reader may make about the tag (`piece_of_explains`).
-/
import Stencil.Proofs.Reader.Blame

namespace Stencil

/-- The span is that of a piece of the text `cs`, which begins at the offset `p`. -/
def Span.IsPiece (p : Nat) (cs : List Char) (s : Span) : Prop :=
  ∃ before piece after, cs = before ++ piece ++ after ∧
    s = ⟨p + byteLen before, p + byteLen (before ++ piece)⟩

namespace Span.IsPiece

variable {p : Nat} {cs : List Char} {s : Span}

theorem front (piece after : List Char) (p : Nat) :
    IsPiece p (piece ++ after) ⟨p, p + byteLen piece⟩ := ⟨[], piece, after, rfl, rfl⟩

/-- The empty piece at the end. -/
theorem point_end (p : Nat) (cs : List Char) : IsPiece p cs (Span.point (p + byteLen cs)) := by
  refine ⟨cs, [], [], by simp, ?_⟩
  rw [List.append_nil]
  rfl

/-- What is a piece of the back of a text is a piece of the text. -/
theorem behind {rest : List Char} (used : List Char) (h : IsPiece (p + byteLen used) rest s) :
    IsPiece p (used ++ rest) s := by
  obtain ⟨before, piece, after, rfl, rfl⟩ := h
  refine ⟨used ++ before, piece, after, by simp only [List.append_assoc], ?_⟩
  simp only [byteLen_append, Nat.add_assoc]

/-- What is a piece of the front of a text is a piece of the text. -/
theorem extend {used : List Char} (h : IsPiece p used s) (rest : List Char) :
    IsPiece p (used ++ rest) s := by
  obtain ⟨before, piece, after, rfl, rfl⟩ := h
  exact ⟨before, piece, after ++ rest, by simp only [List.append_assoc], rfl⟩

theorem shift (h : IsPiece p cs s) (k : Nat) : IsPiece (p + k) cs (s.shift k) := by
  obtain ⟨before, piece, after, rfl, rfl⟩ := h
  refine ⟨before, piece, after, rfl, ?_⟩
  simp only [Span.shift, Span.mk.injEq]
  omega

theorem le_start (h : IsPiece p cs s) : p ≤ s.start := by
  obtain ⟨before, piece, after, rfl, rfl⟩ := h
  exact Nat.le_add_right _ _

theorem start_le_stop (h : IsPiece p cs s) : s.start ≤ s.stop := by
  obtain ⟨before, piece, after, rfl, rfl⟩ := h
  show p + byteLen before ≤ p + byteLen (before ++ piece)
  rw [byteLen_append]
  omega

theorem stop_le (h : IsPiece p cs s) : s.stop ≤ p + byteLen cs := by
  obtain ⟨before, piece, after, rfl, rfl⟩ := h
  show p + byteLen (before ++ piece) ≤ p + byteLen (before ++ piece ++ after)
  rw [byteLen_append _ after]
  omega

end Span.IsPiece

/-! ## Escapes -/

namespace Escape

theorem orBytes_error {n m : Nat} {r : Option Resolved} (h : orBytes n r = .error m) : m = n := by
  cases r with
  | some r => cases h
  | none => cases h; rfl

/-- Fixed digits after a letter: the faulty escape ends with them, or with the text if there are not
    enough of them. -/
theorem exists_of_splitAtByte? {k n : Nat} {rest : List Char} {f : List Char → Except Nat Resolved}
    (hf : ∀ digits, byteLen digits = k → ∀ m, f digits = .error m → m = 2 + k)
    (h : (match splitAtByte? k rest with
      | none => .error (2 + byteLen rest)
      | some (digits, _) => f digits) = Except.error n) :
    ∃ bad more, rest = bad ++ more ∧ n = 2 + byteLen bad := by
  split at h
  · cases h
    exact ⟨rest, [], by simp, rfl⟩
  · next digits back hsplit =>
    obtain ⟨hrest, hlen⟩ := splitAtByte?_eq_some hsplit
    exact ⟨digits, back, hrest.symm, by rw [hf digits hlen n h, hlen]⟩

/-- A closing brace stands behind the characters before it, if there is one. -/
theorem split_at_brace {rest : List Char} (h : (rest.takeWhile (· ≠ '}')).length ≠ rest.length) :
    ∃ after, rest = rest.takeWhile (· ≠ '}') ++ '}' :: after := by
  have hsplit := List.takeWhile_append_dropWhile (p := fun c => decide (c ≠ '\x7d')) (l := rest)
  cases hback : rest.dropWhile (fun c => decide (c ≠ '\x7d')) with
  | nil =>
    rw [hback, List.append_nil] at hsplit
    exact absurd (congrArg List.length hsplit) h
  | cons c after =>
    have hc : c = '\x7d' := by
      have hnot := List.head?_dropWhile_not (fun c => decide (c ≠ '\x7d')) rest
      rw [hback] at hnot
      simpa using hnot
    rw [hback, hc] at hsplit
    exact ⟨after, hsplit.symm⟩

theorem resolveBraced_error {rest : List Char} {n : Nat} (h : resolveBraced rest = .error n) :
    ∃ bad more, rest = bad ++ more ∧ n = 3 + byteLen bad := by
  unfold resolveBraced at h
  dsimp only at h
  split at h
  · cases h
    exact ⟨rest, [], by simp, rfl⟩
  · next hshort =>
    -- The brace that ends the digits belongs to the faulty escape.
    obtain ⟨back, hrest⟩ := split_at_brace hshort
    refine ⟨rest.takeWhile (fun c => decide (c ≠ '\x7d')) ++ ['\x7d'], back, ?_, ?_⟩
    · rw [List.append_assoc, List.singleton_append]
      exact hrest
    · rw [orBytes_error h, byteLen_append]
      show 4 + byteLen _ = 3 + (byteLen _ + 1)
      omega

/-- A faulty escape is a backslash and the front of what follows it. -/
theorem resolve_error {inChar : Bool} {rest : List Char} {n : Nat}
    (h : resolve inChar rest = .error n) :
    ∃ bad more, rest = bad ++ more ∧ n = 1 + byteLen bad := by
  have letter : ∀ {c : Char} {after : List Char} (bad more : List Char), c.utf8Size = 1 → after = bad ++ more →
      n = 2 + byteLen bad → ∃ bad' more', c :: after = bad' ++ more' ∧ n = 1 + byteLen bad' := by
    intro c after bad more hc hafter hn
    refine ⟨c :: bad, more, by rw [hafter]; rfl, ?_⟩
    rw [hn, byteLen_cons, hc]
    omega
  unfold resolve at h
  split at h
  · cases h
    exact ⟨[], [], rfl, rfl⟩
  · next after =>
    obtain ⟨bad, more, hafter, hn⟩ := exists_of_splitAtByte? (k := 2)
      (fun _ _ _ hm => orBytes_error hm) h
    exact letter bad more rfl hafter hn
  · next after =>
    obtain ⟨bad, more, hafter, hn⟩ := resolveBraced_error h
    refine letter ('\x7b' :: bad) more rfl (by rw [hafter]; rfl) ?_
    rw [hn, byteLen_cons]
    show 3 + byteLen bad = 2 + (1 + byteLen bad)
    omega
  · next after _ =>
    split at h
    · obtain ⟨bad, more, hafter, hn⟩ := exists_of_splitAtByte? (k := 4)
        (fun _ _ _ hm => orBytes_error hm) h
      exact letter bad more rfl hafter hn
    · cases h
      exact letter [] after rfl rfl rfl
  · next c after _ _ _ =>
    split at h
    · cases h
    · cases h
      exact ⟨[c], after, rfl, by simp⟩

theorem map_eq_error {ε α β : Type} {f : α → β} {e : Except ε α} {err : ε}
    (h : e.map f = .error err) : e = .error err := by
  cases e with
  | ok a => cases h
  | error err' => cases h; rfl

/-- The range of a faulty escape is that of a piece of the body. -/
theorem unescapeFrom_error {inChar : Bool} {offset : Nat} {cs : List Char} {range : Span}
    (h : unescapeFrom inChar offset cs = .error range) : range.IsPiece offset cs := by
  fun_induction unescapeFrom inChar offset cs with
  | case1 offset => cases h
  | case2 offset rest n hresolve =>
    cases h
    obtain ⟨bad, more, rfl, rfl⟩ := resolve_error hresolve
    refine ⟨[], '\\' :: bad, more, rfl, ?_⟩
    rw [List.nil_append, byteLen_cons]
    rfl
  | case3 offset rest r hresolve ih =>
    have hpiece := ih (map_eq_error h)
    have hsplit : '\\' :: rest = ('\\' :: rest.take r.size) ++ rest.drop r.size := by
      rw [List.cons_append, List.take_append_drop]
    rw [hsplit]
    refine .behind _ ?_
    rw [byteLen_cons, ← Nat.add_assoc]
    exact hpiece
  | case4 offset c rest hc ih =>
    have hpiece := ih (map_eq_error h)
    refine Span.IsPiece.behind [c] ?_
    rw [byteLen_cons, byteLen_nil, Nat.add_zero]
    exact hpiece

end Escape

/-! ## Malformed lexemes -/

namespace Scan

variable {d : Delims} {kind : TagKind} {cs : List Char} {fault : LexFault} {range : Span} {n : Nat}

/-- The text without the blanks at its end is the front of the text. -/
theorem dropBlanksRight_isPrefix (cs : List Char) : dropBlanksRight cs <+: cs := by
  have hsuffix := List.dropWhile_suffix isBlank (l := cs.reverse)
  have hreverse := List.reverse_prefix.2 hsuffix
  rwa [List.reverse_reverse] at hreverse

theorem unclosedQuote_fault {c : Char} {cut : LexFault} {m : Nat} (hc : c.utf8Size = 1)
    (h : unclosedQuote d kind cut cs m = .fault fault range n) : range.IsPiece 0 (c :: cs.take n) := by
  cases h
  obtain ⟨blanks, hblanks⟩ := dropBlanksRight_isPrefix (cs.take (closingWithin d kind m cs))
  refine ⟨[], c :: dropBlanksRight (cs.take (closingWithin d kind m cs)), blanks, ?_, ?_⟩
  · rw [List.nil_append, List.cons_append, hblanks]
  · simp only [List.nil_append, byteLen_cons, hc, byteLen_nil, Nat.zero_add]

/-- The range of a faulty escape, seen from the opening quote. -/
theorem piece_of_unescape {c : Char} {inChar : Bool} (hc : c.utf8Size = 1)
    (h : Escape.unescape inChar (cs.take (n - 1)) = .error range) :
    (range.shift 1).IsPiece 0 (c :: cs.take n) := by
  have hbody := (Escape.unescapeFrom_error h).shift 1
  have hsplit : cs.take n = cs.take (n - 1) ++ (cs.take n).drop (n - 1) := by
    have htake : (cs.take n).take (n - 1) = cs.take (n - 1) := by
      rw [List.take_take, Nat.min_eq_left (Nat.sub_le n 1)]
    rw [← htake, List.take_append_drop]
  rw [hsplit]
  refine Span.IsPiece.behind [c] (.extend ?_ _)
  rw [byteLen_cons, hc]
  exact hbody

theorem string_fault {c : Char} (hc : c.utf8Size = 1)
    (h : string d kind cs = .fault fault range n) : range.IsPiece 0 (c :: cs.take n) := by
  unfold string at h
  split at h
  · exact unclosedQuote_fault hc h
  · split at h
    · next hbad => cases h; exact piece_of_unescape hc hbad
    · cases h

theorem char_fault {c : Char} (hc : c.utf8Size = 1)
    (h : char d kind cs = .fault fault range n) : range.IsPiece 0 (c :: cs.take n) := by
  have whole : ∀ m, (Span.mk 0 (1 + byteLen (cs.take m))).IsPiece 0 (c :: cs.take m) := by
    intro m
    have hpiece := Span.IsPiece.front (c :: cs.take m) [] 0
    rwa [List.append_nil, byteLen_cons, hc, Nat.zero_add] at hpiece
  unfold char at h
  split at h
  · exact unclosedQuote_fault hc h
  · next m _ =>
    cases hinside : Escape.unescape true (cs.take (m - 1)) with
    | error bad =>
      rw [hinside] at h
      cases h
      exact piece_of_unescape hc hinside
    | ok text =>
      rw [hinside] at h
      match text, h with
      | [], h => cases h; exact whole _
      | [_], h => cases h
      | _ :: _ :: _, h => cases h; exact whole _

theorem number_fault {c : Char} {afterDot : Bool}
    (h : number afterDot c cs = .fault fault range n) : range.IsPiece 0 (c :: cs.take n) := by
  unfold number at h
  split at h
  · cases h
  · dsimp only at h
    split at h
    · cases h
    · cases h
      have hpiece := Span.IsPiece.front (c :: cs.take (Numeral.more c cs)) [] 0
      rwa [List.append_nil, Nat.zero_add] at hpiece

/-- The range of a malformed lexeme is that of a piece of the text that is used up with it. -/
theorem read_fault [Letters] {c : Char} {afterDot : Bool}
    (h : read d kind afterDot c cs = .fault fault range n) : range.IsPiece 0 (c :: cs.take n) := by
  unfold read at h
  split at h
  · cases h
  · split at h
    · next hc => exact string_fault (by rw [hc]; decide) h
    · split at h
      · next hc => exact char_fault (by rw [hc]; decide) h
      · split at h
        · exact number_fault h
        · split at h
          · cases h
          · split at h
            · -- A word is never malformed.
              unfold word at h
              dsimp only at h
              split at h
              · cases h
              · split at h <;> cases h
            · cases h
              have hpiece := Span.IsPiece.front [c] (cs.take 0) 0
              rwa [Nat.zero_add, byteLen_cons, byteLen_nil, Nat.add_zero] at hpiece

end Scan

/-! ## Steps and feeds -/

/-- Whether the fault is one of a tag, and not of a comment or the body of a raw block. -/
def Fault.isOfTag : Fault → Bool
  | lex _ | indexTooLarge | unexpected .. | tooDeep _ => true
  | _ => false

theorem Fault.isOfTag_of_isGrammar {f : Fault} (h : f.isGrammar = true) : f.isOfTag = true := by
  cases f with
  | unexpected expected found => rfl
  | tooDeep limit => rfl
  | indexTooLarge => rfl
  | _ => cases h

namespace Lexer

variable {d : Delims} {lx next : Lexer} {diagnostic : Diagnostic}

theorem isPiece_spanOf (lx : Lexer) (n : Nat) : (lx.spanOf n).IsPiece lx.pos lx.rest := by
  have hpiece := Span.IsPiece.front (lx.rest.take n) (lx.rest.drop n) lx.pos
  rwa [List.take_append_drop] at hpiece

/-- The span of a piece of what is read next. -/
theorem Reaches.piece {used : List Char} {s : Span} (h : lx.Reaches used next)
    (hs : s.IsPiece next.pos next.rest) : s.IsPiece lx.pos lx.rest := by
  rw [h.text]
  rw [h.pos] at hs
  exact hs.behind used

/-- A fault is about a piece of the text that does not start behind the place to go on from. -/
theorem Refuses.piece [Letters] (h : lx.Refuses d diagnostic next) :
    diagnostic.span.IsPiece lx.pos lx.rest ∧ diagnostic.span.start ≤ next.pos := by
  cases h with
  | comment => exact ⟨isPiece_spanOf lx _, Nat.le_add_right _ _⟩
  | raw => exact ⟨isPiece_spanOf lx _, Nat.le_add_right _ _⟩
  | opening => exact ⟨isPiece_spanOf lx _, Nat.le_add_right _ _⟩
  | @word kind afterDot c cs fault range more hm hr hc ho hs =>
    have hpiece := (Scan.read_fault hs).shift lx.pos
    rw [Nat.zero_add, ← List.take_succ_cons, ← hr] at hpiece
    constructor
    · rw [← List.take_append_drop (more + 1) lx.rest]
      exact hpiece.extend _
    · exact Nat.le_trans hpiece.start_le_stop hpiece.stop_le

/-- Inside a tag every fault is one of the tag. -/
theorem Refuses.isOfTag [Letters] {kind : TagKind} {afterDot : Bool} (h : lx.Refuses d diagnostic next)
    (hm : lx.mode = .tag kind afterDot) : diagnostic.fault.isOfTag = true := by
  cases h.inTag hm with
  | opening => rfl
  | word => rfl

/-- What the lexemes of a tag stop with. -/
theorem stop_of_feed [Letters] {kind : TagKind} {afterDot : Bool} (hm : lx.mode = .tag kind afterDot) :
    (∀ pos, (lx.feed d).2.1 = .atEnd pos → pos = (lx.feed d).2.2.pos) ∧
      ∀ diagnostic, (lx.feed d).2.1 = .fault diagnostic →
        diagnostic.span.IsPiece lx.pos lx.rest ∧
          diagnostic.span.start ≤ (lx.feed d).2.2.pos ∧ diagnostic.fault.isOfTag = true := by
  fun_induction feed d lx generalizing afterDot with
  | case1 lx h =>
    refine ⟨fun pos hpos => ?_, fun _ hstop => by cases hstop⟩
    cases hpos
    rfl
  | case2 lx diagnostic next h =>
    refine ⟨fun _ hpos => (by cases hpos), fun diagnostic' hstop => ?_⟩
    cases hstop
    obtain ⟨hpiece, hle⟩ := (refuses_of_step h).piece
    exact ⟨hpiece, hle, (refuses_of_step h).isOfTag hm⟩
  | case3 lx l next h hclose =>
    refine ⟨fun pos hpos => ?_, fun _ hstop => by cases hstop⟩
    cases hpos
    rfl
  | case4 lx l next h hclose ls stop after heq ih =>
    rw [heq] at ih
    rcases (emits_of_step h).mode_of_tag hm with ⟨htoken, -⟩ | ⟨-, dot, hnext⟩
    · rw [htoken] at hclose
      exact absurd (Token.isClosing_closes kind) hclose
    · obtain ⟨hatEnd, hfault⟩ := ih hnext
      refine ⟨hatEnd, fun diagnostic hstop => ?_⟩
      obtain ⟨hpiece, hle, htag⟩ := hfault diagnostic hstop
      exact ⟨(emits_of_step h).reaches.1.piece hpiece, hle, htag⟩

/-- A lexeme of a tag stands over a piece of the text, in front of the place after the tag. -/
theorem piece_of_mem_feed [Letters] {l : Lexeme} (hl : l ∈ (lx.feed d).1) :
    l.span.IsPiece lx.pos lx.rest ∧ l.span.start ≤ (lx.feed d).2.2.pos := by
  have first : ∀ {lx next : Lexer} {l : Lexeme}, lx.step d = .token l next →
      l.span.IsPiece lx.pos lx.rest ∧ l.span.start ≤ next.pos := by
    intro lx next l h
    obtain ⟨hreach, hspan⟩ := (emits_of_step h).reaches
    rw [hspan, hreach.text, hreach.pos]
    exact ⟨.front _ _ _, Nat.le_add_right _ _⟩
  fun_induction feed d lx with
  | case1 lx h => cases hl
  | case2 lx diagnostic next h => cases hl
  | case3 lx l' next h hclose =>
    obtain rfl : l = l' := List.mem_singleton.1 hl
    exact first h
  | case4 lx l' next h hclose ls stop after heq ih =>
    rw [heq] at ih
    have hrest : after = (next.feed d).2.2 := by rw [heq]
    obtain ⟨used, hused⟩ := reaches_feed d next
    rw [← hrest] at hused
    have behind : l ∈ ls → l.span.IsPiece lx.pos lx.rest ∧ l.span.start ≤ after.pos := by
      intro hmem
      obtain ⟨hpiece, hle⟩ := ih hmem
      exact ⟨(emits_of_step h).reaches.1.piece hpiece, hle⟩
    dsimp only at hl
    split at hl
    · exact behind hl
    · rcases List.mem_cons.1 hl with rfl | hmem
      · obtain ⟨hpiece, hle⟩ := first h
        exact ⟨hpiece, Nat.le_trans hle hused.pos_le⟩
      · exact behind hmem

/-- Whatever a reader complains about in a tag is a piece of the text that does not start behind the
    tag. -/
theorem piece_of_explains [Letters] {kind : TagKind} {afterDot : Bool} {last : Span}
    (hm : lx.mode = .tag kind afterDot)
    (h : Feed.Explains ⟨(lx.feed d).1, (lx.feed d).2.1, last⟩ diagnostic) :
    diagnostic.span.IsPiece lx.pos lx.rest ∧ diagnostic.span.start ≤ (lx.feed d).2.2.pos ∧
      diagnostic.fault.isOfTag = true := by
  obtain ⟨hatEnd, hfault⟩ := stop_of_feed (d := d) hm
  cases h with
  | lexeme hl hf =>
    obtain ⟨hpiece, hle⟩ := piece_of_mem_feed hl
    exact ⟨hpiece, hle, Fault.isOfTag_of_isGrammar hf⟩
  | @atEnd pos fault hstop hf =>
    obtain ⟨used, hused⟩ := reaches_feed d lx
    have hpos := hatEnd pos hstop
    refine ⟨?_, Nat.le_of_eq hpos, Fault.isOfTag_of_isGrammar hf⟩
    rw [hused.text, hpos, hused.pos]
    exact (Span.IsPiece.point_end lx.pos used).extend _
  | fault hstop => exact hfault diagnostic hstop

end Lexer

end Stencil
