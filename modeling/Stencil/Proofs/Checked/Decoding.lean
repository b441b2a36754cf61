/-
  Decoding — what a tag relies on when its literals are decoded.

  The lexer takes a text, character or number literal only if it can be decoded; the program decodes it again,
  from the source.  A `Decoding` is such a call with what it gave.  `Decoding.Sound` says that it gave a value;
  the member after a dot is the one that can be refused, for an index that has more than 64 bits.

  For a text, a character or a number it is enough that the lexeme is spelled as its token asks.  A number may
  have a fraction or a suffix, though, and an index may not: which of the two is taken depends on whether a dot
  stands before it, with blanks between them or without.  `indexes_feed` says that in the lexemes of a tag a
  number behind a dot is a row of digits.

  The other way round, what a tag is read as has its literals from such calls: `Decoded calls p` says that every
  literal in the part `p` was given by one of them.
-/
import Mathlib.Data.List.Chain
import Stencil.Proofs.Checked.Machine
import Stencil.Proofs.Cut.Stretch
import Stencil.Proofs.Reader.Blame

namespace Stencil

/-- All lexemes that are left stand in the source. -/
def Feed.Sits [Letters] (d : Delims) (source : List Char) (feed : Feed) : Prop :=
  ∀ l ∈ feed.lexemes, l.Sits d source

/-- The second lexeme can be the index behind the first: after a dot, a number is a row of digits. -/
def Lexeme.Indexes (l m : Lexeme) : Prop :=
  l.token = .dot → m.token = .number → m.text.all (·.isDigit) = true

namespace Checked

open Reader (quotedBody decimalValue indexBound)

/-- The call gives a value for a literal, and a character literal stands for exactly one character.  A number
    that is a member is a row of digits; it is the index that it spells, or it is refused because that has more
    than 64 bits.  The text of the lexeme is the one in the source. -/
def Decoding.Sound (source : List Char) : Decoding → Prop
  | .constant l negative result =>
    slice? l.span source = some l.text ∧
    (l.token = .str → ∃ value, Escape.unescape false (quotedBody l) = .ok value ∧
      result = .ok (.str (String.ofList value))) ∧
    (l.token = .char → ∃ c, Escape.unescape true (quotedBody l) = .ok [c] ∧
      result = .ok (.char c)) ∧
    (l.token = .number → ∃ n, Numeral.number? l.text negative = some n ∧ result = .ok (.num n))
  | .text l result =>
    slice? l.span source = some l.text ∧ l.token = .str ∧
    ∃ value, Escape.unescape false (quotedBody l) = .ok value ∧ result = .ok (String.ofList value)
  | .index l result =>
    slice? l.span source = some l.text ∧ l.token = .number ∧
    l.text ≠ [] ∧ l.text.all (·.isDigit) = true ∧
    result = if decimalValue l.text < UInt64.size then .ok (decimalValue l.text)
      else .error ⟨.indexTooLarge, l.span⟩

/-! ## Decoders -/

variable {d : Delims} {source raw value : List Char} {l : Lexeme}

theorem quotedBody?_eq {quote : Char} {inChar : Bool} (hquote : quote.utf8Size = 1)
    (h : IsQuoted quote inChar raw value) : quotedBody? raw = some ((raw.drop 1).dropLast) := by
  obtain ⟨body, rfl, -, -⟩ := h
  have hat : At (quote :: (body ++ [quote])) (0 + quote.utf8Size) (body ++ [quote]) :=
    (At.start _).cons
  rw [hquote] at hat
  have hsub : sub? (byteLen (quote :: (body ++ [quote]))) 1 = some (0 + 1 + byteLen body) := by
    rw [byteLen_cons, byteLen_append, byteLen_cons, byteLen_nil, hquote, ← Nat.add_assoc,
      Nat.zero_add]
    exact sub?_add _ 1
  unfold quotedBody?
  rw [List.cons_append, hsub]
  show slice? _ _ = some ((body ++ [quote]).dropLast)
  rw [List.dropLast_concat]
  exact hat.slice rfl

/-- What is between the quotes of a literal that stands in the source is its value. -/
theorem unescape_quotedBody {quote : Char} {inChar : Bool} (h : IsQuoted quote inChar l.text value) :
    Escape.unescape inChar (quotedBody l) = .ok value := by
  obtain ⟨body, htext, -, hvalue⟩ := h
  have hbody : quotedBody l = body := by
    rw [quotedBody, htext]
    exact List.dropLast_concat
  rw [hbody, hvalue]

theorem textOf?_eq [Letters] (hl : l.Sits d source) (ht : l.token = .str) :
    ∃ value, Escape.unescape false (quotedBody l) = .ok value ∧
      textOf? source l = some (.ok (String.ofList value)) := by
  have hspells := hl.spells (by rw [ht]; rfl)
  rw [ht] at hspells
  obtain ⟨value, hquoted⟩ := hspells
  have hvalue := unescape_quotedBody hquoted
  refine ⟨value, hvalue, ?_⟩
  unfold textOf?
  rw [hl.text, Option.bind_eq_bind, Option.bind_some, quotedBody?_eq rfl hquoted, Option.bind_eq_bind,
    Option.bind_some, unescape?_eq, show (l.text.drop 1).dropLast = quotedBody l from rfl, hvalue]
  rfl

theorem charOf?_eq [Letters] (hl : l.Sits d source) (ht : l.token = .char) :
    ∃ c, Escape.unescape true (quotedBody l) = .ok [c] ∧ charOf? source l = some (.ok c) := by
  have hspells := hl.spells (by rw [ht]; rfl)
  rw [ht] at hspells
  obtain ⟨c, hquoted⟩ := hspells
  have hvalue := unescape_quotedBody hquoted
  refine ⟨c, hvalue, ?_⟩
  unfold charOf?
  rw [hl.text, Option.bind_eq_bind, Option.bind_some, quotedBody?_eq rfl hquoted, Option.bind_eq_bind,
    Option.bind_some, unescape?_eq, show (l.text.drop 1).dropLast = quotedBody l from rfl, hvalue]
  rfl

theorem numberOf?_eq [Letters] (hl : l.Sits d source) (ht : l.token = .number) (negative : Bool) :
    ∃ n, Numeral.number? l.text negative = some n ∧ numberOf? source l negative = some (.ok n) := by
  have hspells := hl.spells (by rw [ht]; rfl)
  rw [ht] at hspells
  obtain ⟨n, hn⟩ := Reader.number?_of_isNumeral hspells negative
  refine ⟨n, hn, ?_⟩
  unfold numberOf?
  rw [hl.text, Option.bind_eq_bind, Option.bind_some, number?_eq, hn]
  rfl

/-- A macro name is cut off before its mark, which is one byte long. -/
theorem cut_macroName [Letters] (hl : l.Sits d source) (ht : l.token = .macroName) :
    sub? l.span.stop 1 = some (l.span.stop - 1) ∧
      slice? ⟨l.span.start, l.span.stop - 1⟩ source = some l.text.dropLast := by
  have hspells := hl.spells (by rw [ht]; rfl)
  rw [ht] at hspells
  obtain ⟨word, htext, -⟩ := hspells
  obtain ⟨front, back, hsource, hstart, hstop⟩ := slice?_eq_some hl.text
  rw [htext, byteLen_append, byteLen_cons, byteLen_nil] at hstop
  refine ⟨sub?_of_le (by rw [hstop]; exact Nat.le_add_left _ _), ?_⟩
  rw [htext, List.dropLast_concat]
  refine slice?_of_append front ('!' :: back) ?_ hstart ?_
  · rw [hsource, htext, List.append_assoc]
    rfl
  · show l.span.stop - 1 = _
    rw [hstop]
    rfl

/-- Of a word there is only the text to be said. -/
theorem Decoding.sound_of_other [Letters] (hl : l.Sits d source) (hstr : l.token ≠ .str) (hchar : l.token ≠ .char)
    (hnumber : l.token ≠ .number) (negative : Bool) (result : Except Diagnostic Literal) :
    (Decoding.constant l negative result).Sound source :=
  ⟨hl.text, fun h => absurd h hstr, fun h => absurd h hchar, fun h => absurd h hnumber⟩

/-- A constant is decoded as it is on a feed, and soundly. -/
theorem literalOf?_eq [Letters] (hl : l.Sits d source) (negative : Bool) :
    ∃ result, literalOf? source l negative = some result ∧
      (∀ feed, Feed.literalOf l negative feed = result.map fun v => (v, feed)) ∧
      (Decoding.constant l negative result).Sound source := by
  unfold literalOf? Feed.literalOf
  cases ht : l.token with
  | str =>
    obtain ⟨value, hvalue, htext⟩ := textOf?_eq hl ht
    refine ⟨.ok (.str (String.ofList value)), by rw [htext]; rfl, fun feed => ?_,
      ⟨hl.text, fun _ => ⟨value, hvalue, rfl⟩, by rw [ht]; exact nofun, by rw [ht]; exact nofun⟩⟩
    unfold Feed.textOf
    dsimp only
    rw [hvalue]
    rfl
  | char =>
    obtain ⟨c, hvalue, hchar⟩ := charOf?_eq hl ht
    refine ⟨.ok (.char c), by rw [hchar]; rfl, fun feed => ?_,
      ⟨hl.text, by rw [ht]; exact nofun, fun _ => ⟨c, hvalue, rfl⟩, by rw [ht]; exact nofun⟩⟩
    unfold Feed.charOf
    dsimp only
    rw [hvalue]
    rfl
  | number =>
    obtain ⟨n, hn, hnumber⟩ := numberOf?_eq hl ht negative
    refine ⟨.ok (.num n), by rw [hnumber]; rfl, fun feed => ?_,
      ⟨hl.text, by rw [ht]; exact nofun, by rw [ht]; exact nofun, fun _ => ⟨n, hn, rfl⟩⟩⟩
    dsimp only
    rw [hn]
    rfl
  | keyword w =>
    have hsound := fun result => Decoding.sound_of_other hl (by rw [ht]; exact nofun) (by rw [ht]; exact nofun)
      (by rw [ht]; exact nofun) negative result
    cases w with
    | trueKw => exact ⟨_, rfl, fun _ => rfl, hsound _⟩
    | falseKw => exact ⟨_, rfl, fun _ => rfl, hsound _⟩
    | _ =>
      refine ⟨_, rfl, fun _ => ?_, hsound _⟩
      dsimp only [Reader.unexpected]
      rw [ht]
      rfl
  | _ =>
    refine ⟨_, rfl, fun _ => ?_, Decoding.sound_of_other hl (by rw [ht]; exact nofun) (by rw [ht]; exact nofun)
      (by rw [ht]; exact nofun) negative _⟩
    dsimp only [Reader.unexpected]
    rw [ht]
    rfl

/-- A number that is a row of digits is decoded as an index as it is on a feed, and soundly. -/
theorem indexOf?_eq [Letters] (hl : l.Sits d source) (ht : l.token = .number)
    (hdigits : l.text.all (·.isDigit) = true) :
    ∃ result, indexOf? source l = some result ∧
      (∀ feed, Feed.indexOf l feed = result.map fun n => (n, feed)) ∧
      (Decoding.index l result).Sound source := by
  have hbound : indexBound = UInt64.size := rfl
  have hsound : ∀ {result}, result = (if decimalValue l.text < UInt64.size then .ok (decimalValue l.text)
      else .error ⟨.indexTooLarge, l.span⟩) → (Decoding.index l result).Sound source :=
    fun h => ⟨hl.text, ht, hl.some, hdigits, h⟩
  unfold indexOf? Feed.indexOf
  rw [hl.text, Option.bind_eq_bind, Option.bind_some]
  dsimp only
  rw [hdigits, Bool.true_and, hbound]
  by_cases hsmall : decimalValue l.text < UInt64.size
  · rw [decide_eq_true hsmall]
    exact ⟨_, rfl, fun _ => rfl, hsound (if_pos hsmall).symm⟩
  · rw [decide_eq_false hsmall]
    exact ⟨_, rfl, fun _ => rfl, hsound (if_neg hsmall).symm⟩

end Checked

/-! ## Behind a dot -/

/-- Behind a dot, a number is taken up to its last digit. -/
theorem Scan.digits_of_read [Letters] {d : Delims} {kind : TagKind} {c : Char} {cs : List Char} {more : Nat}
    (h : read d kind true c cs = .token .number more) :
    (c :: cs.take more).all (·.isDigit) = true := by
  have hnumeral : isNumeral (c :: cs.take more) = true := spells_of_read h
  simp only [isNumeral, Bool.and_eq_true] at hnumeral
  have hc : c.isDigit = true := hnumeral.1.1
  rw [read_of_isDigit hc, number, if_pos rfl] at h
  cases h
  rw [take_length_takeWhile, List.all_cons, hc, List.all_takeWhile]
  rfl

namespace Lexer

variable {d : Delims} {lx next : Lexer} {l : Lexeme} {kind : TagKind} {afterDot : Bool}

theorem Words.digits [Letters] {c : Char} {cs : List Char} (h : lx.Words d kind true l c cs next)
    (ht : l.token = .number) : l.text.all (·.isDigit) = true := by
  have hread := h.read
  rw [ht] at hread
  have hdigits := Scan.digits_of_read hread
  rw [List.take_left] at hdigits
  rw [h.text]
  exact hdigits

/-- In the lexemes of a tag a number behind a dot is a row of digits; so is a first number if a dot stands
    before the place. -/
theorem indexes_feed [Letters] (hm : lx.mode = .tag kind afterDot) :
    (lx.feed d).1.IsChain Lexeme.Indexes ∧
      (afterDot = true → ∀ l ∈ (lx.feed d).1.head?, l.token = .number →
        l.text.all (·.isDigit) = true) := by
  -- The second half is about the head of what is left: a dot reaches the next lexeme through the mode.
  fun_induction feed d lx generalizing afterDot with
  | case1 lx h => exact ⟨.nil, fun _ l hl => by cases hl⟩
  | case2 lx diagnostic next h => exact ⟨.nil, fun _ l hl => by cases hl⟩
  | case3 lx l next h hclose =>
    refine ⟨.singleton l, fun _ l' hl' ht => ?_⟩
    cases hl'
    rw [ht] at hclose
    cases hclose
  | case4 lx l next h hclose ls stop after heq ih =>
    obtain ⟨c, cs, hword⟩ := words_of_step hm h (eq_false_of_ne_true hclose)
    obtain ⟨hchain, hhead⟩ := ih hword.mode
    rw [heq] at hchain hhead
    dsimp only at hchain hhead ⊢
    by_cases hblank : l.token = .blank
    · -- A blank is left out, and the dot before it is remembered.
      rw [if_pos hblank]
      refine ⟨hchain, fun hdot => hhead ?_⟩
      rw [hdot, hblank]
      rfl
    · rw [if_neg hblank]
      refine ⟨List.isChain_cons.2 ⟨fun m hmem hdot ht => ?_, hchain⟩, fun hdot l' hl' ht => ?_⟩
      · exact hhead (by rw [hdot]; rfl) m hmem ht
      · cases hl'
        rw [hdot] at hword
        exact hword.digits ht

end Lexer

/-! ## The literals of a part -/

/-- Whether the part is a literal, or a name in place of which a number stands. -/
def Part.isLiteral : Part → Bool
  | expr (.lit _ _) | pattern (.lit _ _) | text _ | key (.index _ _) => true
  | _ => false

namespace Checked

/-- What the call gave is the part.  The place of a negative constant begins at its minus sign. -/
inductive Decoding.Gives : Decoding → Part → Prop
  | expr {l : Lexeme} {negative : Bool} {v : Literal} {s : Span}
      (hs : s = l.span ∨ negative = true ∧ ∃ minus : Span, s = minus.join l.span) :
      Gives (.constant l negative (.ok v)) (.expr (.lit v s))
  | pattern {l : Lexeme} {negative : Bool} {v : Literal} {s : Span}
      (hs : s = l.span ∨ negative = true ∧ ∃ minus : Span, s = minus.join l.span) :
      Gives (.constant l negative (.ok v)) (.pattern (.lit v s))
  | text {l : Lexeme} {value : String} : Gives (.text l (.ok value)) (.text ⟨value, l.span⟩)
  | key {l : Lexeme} {n : Nat} : Gives (.index l (.ok n)) (.key (.index n l.span))

/-- Every literal in the part was given by one of the calls. -/
def Decoded (calls : List Decoding) (p : Part) : Prop :=
  ∀ q, p.HasPart q → q.isLiteral = true → ∃ call ∈ calls, call.Gives q

/-- So was every literal in one of the parts. -/
def AllDecoded (calls : List Decoding) (parts : List Part) : Prop := ∀ p ∈ parts, Decoded calls p

variable {calls more : List Decoding} {p : Part} {ps qs : List Part}

theorem Decoded.mono (h : Decoded calls p) (hmore : calls ⊆ more) : Decoded more p := by
  intro q hq hliteral
  obtain ⟨call, hcall, hgives⟩ := h q hq hliteral
  exact ⟨call, hmore hcall, hgives⟩

/-- A literal is decoded by a call that gave it. -/
theorem Decoded.of_call {call : Decoding} (hcall : call ∈ calls) (hgives : call.Gives p)
    (hchildren : p.children = []) : Decoded calls p := by
  intro q hq _
  cases hq with
  | refl => exact ⟨call, hcall, hgives⟩
  | inside hc _ =>
    rw [hchildren] at hc
    cases hc

namespace AllDecoded

theorem mono (h : AllDecoded calls ps) (hmore : calls ⊆ more) : AllDecoded more ps := fun p hp => (h p hp).mono hmore

/-- What is put together from parts has their literals. -/
theorem wrap (h : AllDecoded calls p.children) (hp : p.isLiteral = false) : Decoded calls p := by
  intro q hq hliteral
  cases hq with
  | refl =>
    rw [hp] at hliteral
    cases hliteral
  | inside hc hq => exact h _ hc q hq hliteral

@[simp] theorem nil : AllDecoded calls [] := List.forall_mem_nil _

@[simp] theorem cons_iff : AllDecoded calls (p :: ps) ↔ Decoded calls p ∧ AllDecoded calls ps := List.forall_mem_cons

@[simp] theorem append_iff : AllDecoded calls (ps ++ qs) ↔ AllDecoded calls ps ∧ AllDecoded calls qs :=
  List.forall_mem_append

theorem sublist (h : AllDecoded calls ps) (hsub : qs ⊆ ps) : AllDecoded calls qs := fun p hp => h p (hsub hp)

end AllDecoded

/-- A name holds no literal. -/
@[simp] theorem decoded_ident (i : Ident) : Decoded calls (.ident i) := AllDecoded.wrap .nil rfl

/-- Nor does a path. -/
@[simp] theorem decoded_path (p : Path) : Decoded calls (.path p) := by
  refine AllDecoded.wrap (fun q hq => ?_) rfl
  obtain ⟨i, -, rfl⟩ := List.mem_map.1 hq
  exact decoded_ident i

@[simp] theorem decoded_rest (s : Span) : Decoded calls (.rest s) := AllDecoded.wrap .nil rfl

end Checked

end Stencil
