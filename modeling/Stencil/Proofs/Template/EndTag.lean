/-
  EndTag — the end of a raw block is found exactly where the parser reads its end tag.

  Two recognisers know the tag that ends a raw block.  The scanner for raw bodies tests the text itself
  (`Delims.isEndRaw`): an opening delimiter, blanks, the word, blanks, a closing delimiter.  The parser
  collects lexemes, reads a statement and expects a closing delimiter after it.  With the standard
  delimiters both accept the same texts (`isEndRaw_iff_turn`): blanks make no lexeme, and neither a blank
  nor a closing delimiter joins the word before it.

  From there on it is a matter of places: the scanner walks character by character and stops at the
  first place where the test succeeds (`rawLength_eq_some_iff`), so what it finds is the least offset at
  which the rest of the source is read as an end tag first.
-/
import Stencil.Parse
import Stencil.Proofs.Part.Scan
import Stencil.Proofs.Template.Cover
import Stencil.Proofs.Template.Limit

namespace Stencil

/-- Whether the node is the tag that ends a raw block. -/
def Node.isEndRaw : Node → Bool
  | tag ⟨.endRaw, _⟩ _ _ => true
  | _ => false

theorem Node.eq_tag_of_isEndRaw {n : Node} (h : n.isEndRaw = true) :
    ∃ s trims span, n = .tag ⟨.endRaw, s⟩ trims span := by
  cases n with
  | tag t trims span =>
    obtain ⟨kind, s⟩ := t
    cases kind with
    | endRaw => exact ⟨s, trims, span, rfl⟩
    | _ => cases h
  | _ => cases h

/-! ## The first lexeme of a tag -/

namespace Lexer

variable {d : Delims} {lx : Lexer} {l : Lexeme} {kind : TagKind} {afterDot : Bool}

/-- The first lexeme of a feed is read behind blanks, and the others come after it. -/
theorem exists_step_of_feed [Letters] {ls : List Lexeme} (hm : lx.mode = .tag kind afterDot)
    (h : (lx.feed d).1 = l :: ls) :
    ∃ (bs : List Char) (place next : Lexer) (dot : Bool), (∀ c ∈ bs, isBlank c = true) ∧
      lx.rest = bs ++ place.rest ∧ place.mode = .tag kind dot ∧ place.step d = .token l next ∧
      (l.token.isClosing = false → (next.feed d).1 = ls) := by
  -- Blanks make no lexeme and are gathered in `bs`; the first step of another kind gives the lexeme.
  fun_induction feed d lx generalizing afterDot with
  | case1 lx hstep => cases h
  | case2 lx diagnostic next hstep => cases h
  | case3 lx l' next hstep hclose =>
    obtain ⟨rfl, rfl⟩ := List.cons.inj h
    refine ⟨[], lx, next, afterDot, List.forall_mem_nil _, rfl, hm, hstep, fun hopen => ?_⟩
    rw [hopen] at hclose
    cases hclose
  | case4 lx l' next hstep hclose more stop after heq ih =>
    have hemits := emits_of_step hstep
    rcases hemits.mode_of_tag hm with ⟨htoken, -⟩ | ⟨hopen, dot, hmode⟩
    · rw [htoken] at hclose
      exact absurd (Token.isClosing_closes kind) hclose
    · rw [heq] at ih
      by_cases hblank : l'.token = .blank
      · rw [if_pos hblank] at h
        obtain ⟨bs, place, next', dot', hbs, hrest, hplace⟩ := ih hmode h
        have hspells : l'.token.Spells l'.text := by
          rcases hemits.spells hm with htoken | hspells
          · rw [htoken] at hclose
            exact absurd (Token.isClosing_closes kind) hclose
          · exact hspells
        rw [hblank] at hspells
        refine ⟨l'.text ++ bs, place, next', dot', fun c hc => ?_, ?_, hplace⟩
        · rcases List.mem_append.1 hc with hmem | hmem
          · exact List.all_eq_true.1 hspells.2 c hmem
          · exact hbs c hmem
        · rw [hemits.reaches.1.text, hrest, List.append_assoc]
      · rw [if_neg hblank] at h
        obtain ⟨rfl, rfl⟩ := List.cons.inj h
        refine ⟨[], lx, next, afterDot, List.forall_mem_nil _, rfl, hm, hstep, fun _ => ?_⟩
        rw [heq]

end Lexer

/-! ## The text of an end tag -/

/-- Behind blanks stands what does not begin with one. -/
theorem dropWhile_blanks {bs tail : List Char} (hbs : ∀ c ∈ bs, isBlank c = true)
    (htail : ∀ c ∈ tail.head?, isBlank c = false) : (bs ++ tail).dropWhile isBlank = tail := by
  rw [List.dropWhile_append_of_pos hbs]
  cases tail with
  | nil => rfl
  | cons c tail =>
    exact List.dropWhile_cons_of_neg (by rw [htail c rfl]; exact Bool.false_ne_true)

namespace Delims

/-- A standard closing delimiter begins neither like a word nor with a blank. -/
theorem head_of_closingAt {cs : List Char} {close : Closing}
    (h : standard.closingAt .block cs = some close) : ∃ c more, cs = c :: more ∧ c ∈ marks := by
  obtain ⟨pair, hpair, htext⟩ := closing_text h
  cases hpair
  cases cs with
  | nil =>
    rw [List.take_nil] at htext
    cases ht : close.trim <;> rw [ht] at htext <;> cases htext
  | cons c more =>
    refine ⟨c, more, rfl, ?_⟩
    by_contra hnot
    rw [(standard_of_not_mem hnot).1] at h
    cases h

theorem isBlank_of_mem_marks {c : Char} (h : c ∈ marks) : isBlank c = false := by
  have hall : marks.all (fun c => !isBlank c) = true := by decide
  rw [← Bool.not_eq_true']
  exact List.all_eq_true.1 hall c h

theorem isIdentPart_of_mem_marks [Letters] {c : Char} (h : c ∈ marks) : isIdentPart c = false ∧ c ≠ '!' :=
  isIdentPart_of_mem (by decide) h

theorem drop_word (more : List Char) : ("endraw".toList ++ more).drop "endraw".length = more := rfl

/-- The inside of an end tag is the word between blanks, and a closing delimiter. -/
theorem isEndRawBody_iff {cs : List Char} : standard.isEndRawBody cs = true ↔
    ∃ bs bs' tail close, cs = bs ++ ("endraw".toList ++ (bs' ++ tail)) ∧
      (∀ c ∈ bs, isBlank c = true) ∧ (∀ c ∈ bs', isBlank c = true) ∧
      standard.closingAt .block tail = some close := by
  constructor
  · intro h
    unfold isEndRawBody at h
    rw [Bool.and_eq_true, List.isPrefixOf_iff_prefix, Option.isSome_iff_exists] at h
    obtain ⟨⟨more, hmore⟩, close, hclose⟩ := h
    rw [← hmore, drop_word] at hclose
    refine ⟨cs.takeWhile isBlank, more.takeWhile isBlank, more.dropWhile isBlank, close, ?_,
      fun c hc => List.mem_takeWhile_imp hc, fun c hc => List.mem_takeWhile_imp hc, hclose⟩
    rw [List.takeWhile_append_dropWhile, hmore, List.takeWhile_append_dropWhile]
  · rintro ⟨bs, bs', tail, close, rfl, hbs, hbs', hclose⟩
    obtain ⟨c, more, rfl, hmark⟩ := head_of_closingAt hclose
    have hword : ∀ c ∈ ("endraw".toList ++ (bs' ++ c :: more)).head?, isBlank c = false := by
      intro c hc
      cases hc
      decide
    have hend : ∀ x ∈ (c :: more).head?, isBlank x = false := by
      intro x hx
      cases hx
      exact isBlank_of_mem_marks hmark
    unfold isEndRawBody
    dsimp only
    rw [dropWhile_blanks hbs hword, drop_word, dropWhile_blanks hbs' hend, hclose]
    rfl

end Delims

namespace Lexer

variable {d : Delims} {lx next : Lexer} {l : Lexeme} {kind : TagKind} {afterDot : Bool}

/-- A lexeme that closes a tag is the closing delimiter at the place. -/
theorem Emits.closing_of_isClosing [Letters] (h : lx.Emits d l next) (hm : lx.mode = .tag kind afterDot)
    (hl : l.token.isClosing = true) : ∃ close, d.closingAt kind lx.rest = some close := by
  cases h.inTag hm with
  | closing hr hc => exact ⟨_, hc⟩
  | word hr hc ho hs => exact absurd hl (Bool.eq_false_iff.1 (Scan.spells_of_read hs).isClosing)

/-- The word between blanks is one lexeme before a closing delimiter: neither a blank nor the delimiter
    joins it. -/
theorem lexes_endRaw [Letters] {bs bs' tail : List Char} {close : Closing} (hbs : ∀ c ∈ bs, isBlank c = true)
    (hbs' : ∀ c ∈ bs', isBlank c = true) (hclose : Delims.standard.closingAt .block tail = some close) :
    Lexes .block false (bs ++ ("endraw".toList ++ bs'))
      [⟨.keyword .endRaw, ⟨0, 0⟩, "endraw".toList, none⟩] false tail := by
  obtain ⟨c, more, rfl, hmark⟩ := Delims.head_of_closingAt hclose
  have hend : ∀ x ∈ (c :: more).head?, isBlank x = false := by
    intro x hx
    cases hx
    exact Delims.isBlank_of_mem_marks hmark
  have hstop : ∀ x ∈ (bs' ++ c :: more).head?, isIdentPart x = false ∧ x ≠ '!' := by
    intro x hx
    cases bs' with
    | nil =>
      cases hx
      exact Delims.isIdentPart_of_mem_marks hmark
    | cons b bs' =>
      cases hx
      have hb := hbs' x List.mem_cons_self
      refine ⟨isIdentPart_of_isBlank hb, ?_⟩
      rintro rfl
      revert hb
      decide
  let word : Lexeme := ⟨.keyword .endRaw, ⟨0, 0⟩, "endraw".toList, none⟩
  have hword : Lexes .block false "endraw".toList [word] false (bs' ++ c :: more) :=
    .token (l := word) rfl Token.noConfusion rfl (fun _ hnumber => by cases hnumber) hstop
  have hfront : ∀ x ∈ ("endraw".toList ++ (bs' ++ c :: more)).head?, isBlank x = false := by
    intro x hx
    cases hx
    decide
  exact .append (.blanks hbs (by rw [List.append_assoc]; exact hfront))
    (.append hword (.blanks hbs' hend))

/-- What the scanner takes for the inside of an end tag makes two lexemes, the word and the closing
    delimiter. -/
theorem lexemes_of_isEndRawBody [Letters] (hm : lx.mode = .tag .block false)
    (h : Delims.standard.isEndRawBody lx.rest = true) :
    ∃ l l', (lx.feed .standard).1 = [l, l'] ∧ l.token = .keyword .endRaw ∧ l'.token = .endBlock := by
  obtain ⟨bs, bs', tail, close, hrest, hbs, hbs', hclose⟩ := Delims.isEndRawBody_iff.1 h
  obtain ⟨place, rfl, hmode, hfeed, -⟩ := lexes_endRaw hbs hbs' hclose lx hm
    (by rw [hrest, List.append_assoc, List.append_assoc])
  -- Behind the word and its blanks comes the closing delimiter.
  have hne : place.rest ≠ [] := by
    obtain ⟨c, more, heq, -⟩ := Delims.head_of_closingAt hclose
    rw [heq]
    exact List.cons_ne_nil c more
  have hclosing : (place.feed .standard).1 = [place.lexeme .endBlock close.size close.trim] := by
    rw [feed_of_token (step_of_emits (.closing hmode hne hclose))]
    rfl
  rw [hclosing] at hfeed
  obtain ⟨l, ls, hls, hl, hmore⟩ := List.map_eq_cons_iff.1 hfeed
  obtain ⟨l', ls', rfl, hl', hnil⟩ := List.map_eq_cons_iff.1 hmore
  rw [List.map_eq_nil_iff.1 hnil] at hls
  exact ⟨l, l', hls, congrArg Lexeme.token hl, congrArg Lexeme.token hl'⟩

end Lexer

/-! ## The scanner and the parser -/

namespace Reader

/-- The statement that ends a raw block is its word alone. -/
theorem word_of_endRaw {limit : Nat} {feed rest : Feed} {s : Span}
    (h : stmt limit feed = .ok (⟨.endRaw, s⟩, rest)) :
    ∃ l, feed.lexemes = l :: rest.lexemes ∧ l.token = .keyword .endRaw := by
  obtain ⟨l, mid, body, hls, htoken, hbody, hkind⟩ := exists_word_of_stmt h (w := .endRaw) rfl
  cases hbody
  cases hkind
  exact ⟨l, hls, htoken⟩

end Reader

namespace Region

open Reader

variable {limit : Nat} {lx next : Lexer} {r : Region} {n : Node}

/-- The lexemes of an end tag are its word and the closing delimiter. -/
theorem lexemes_of_endRaw {kind : TagKind} {feed rest : Feed} {s : Span} {closing : Lexeme}
    (h : body limit kind feed = .ok ((.stmt ⟨.endRaw, s⟩, closing), rest)) :
    kind = .block ∧ ∃ l, l.token = .keyword .endRaw ∧ closing.token.isClosing = true ∧
      feed.lexemes = l :: closing :: rest.lexemes := by
  cases kind with
  | expr =>
    obtain ⟨b, mid, hb, hmid⟩ := bind_eq_ok_iff.1 h
    obtain ⟨l', after, -, hpure⟩ := bind_eq_ok_iff.1 hmid
    cases hpure
    obtain ⟨e, mid', -, hpure⟩ := bind_eq_ok_iff.1 hb
    cases hpure
  | block =>
    obtain ⟨b, mid, hb, hmid⟩ := bind_eq_ok_iff.1 h
    obtain ⟨l', after, hexpect, hpure⟩ := bind_eq_ok_iff.1 hmid
    cases hpure
    obtain ⟨st, mid', hst, hpure⟩ := bind_eq_ok_iff.1 hb
    cases hpure
    obtain ⟨hclose, hls'⟩ := expect_eq_ok hexpect
    obtain ⟨l, hls, htoken⟩ := word_of_endRaw hst
    exact ⟨rfl, l, htoken, by rw [hclose]; rfl, by rw [hls, hls']⟩

/-- The word and the closing delimiter are read as an end tag. -/
theorem body_of_endRaw (limit : Nat) {l closing : Lexeme} (hl : l.token = .keyword .endRaw)
    (hclosing : closing.token = .endBlock) (stop : Lexer.Stop) (last : Span) :
    ∃ s rest, body limit .block (⟨[l, closing], stop, last⟩ : Feed) =
      .ok ((.stmt ⟨.endRaw, s⟩, closing), rest) := by
  obtain ⟨token, place, text, trim⟩ := l
  obtain ⟨token', place', text', trim'⟩ := closing
  cases hl
  cases hclosing
  exact ⟨_, _, rfl⟩

/-- Where an end tag is read, the scanner finds one. -/
theorem Turn.isEndRaw_of_node [Letters] (h : Turn ⟨.standard, limit⟩ lx r next) (hout : lx.inTag = false)
    (hn : r.node = some n) (hend : n.isEndRaw = true) :
    Delims.standard.isEndRaw lx.rest = true := by
  obtain ⟨s, trims, span, rfl⟩ := Node.eq_tag_of_isEndRaw hend
  obtain ⟨opening, inside, kind, closing, rest, hstep, hopens, hmode, hbody⟩ :=
    h.body_of_node (b := .stmt ⟨.endRaw, s⟩) hout hn
  obtain ⟨-, o, ho, hk, -, hinside⟩ := (Lexer.emits_of_step hstep).opening_of_opens hopens hout
  obtain ⟨rfl, l, htoken, hclosing, hlexemes⟩ := lexemes_of_endRaw hbody
  -- The word stands behind blanks, and so does the closing delimiter after it.
  obtain ⟨bs, place, after, dot, hbs, hrest, hplace, hword, hmore⟩ :=
    Lexer.exists_step_of_feed hmode hlexemes
  have hemits := Lexer.emits_of_step hword
  have hopen : l.token.isClosing = false := by rw [htoken]; rfl
  have hafter : ∃ dot, after.mode = .tag .block dot := by
    rcases hemits.mode_of_tag hplace with ⟨hclose, -⟩ | ⟨-, hafter⟩
    · rw [hclose, Token.isClosing_closes] at hopen
      cases hopen
    · exact hafter
  obtain ⟨dot', hafter⟩ := hafter
  obtain ⟨bs', place', end', dot'', hbs', hrest', hplace', hstep', -⟩ :=
    Lexer.exists_step_of_feed hafter (hmore hopen)
  obtain ⟨close, hclose⟩ := (Lexer.emits_of_step hstep').closing_of_isClosing hplace' hclosing
  have htext : l.text = "endraw".toList := by
    rcases hemits.spells hplace with hclose | hspells
    · rw [hclose, Token.isClosing_closes] at hopen
      cases hopen
    · rw [htoken] at hspells
      exact (Option.some.inj hspells).symm
  have hinner : lx.rest.drop o.size = bs ++ ("endraw".toList ++ (bs' ++ place'.rest)) := by
    rw [← htext, ← hrest', ← hemits.reaches.1.text, ← hrest, hinside]
    rfl
  have hbodyText := Delims.isEndRawBody_iff.2 ⟨bs, bs', place'.rest, close, hinner, hbs, hbs', hclose⟩
  unfold Delims.isEndRaw
  rw [show (⟨.standard, limit⟩ : Settings).delims = .standard from rfl] at ho
  rw [ho]
  dsimp only
  rw [hk, hbodyText]
  rfl

/-- Where the scanner finds an end tag, one is read. -/
theorem turn_of_isEndRaw [Letters] (limit : Nat) (hm : lx.mode = .template)
    (h : Delims.standard.isEndRaw lx.rest = true) :
    ∃ s trims span next,
      Turn ⟨.standard, limit⟩ lx ⟨some (.tag ⟨.endRaw, s⟩ trims span), none⟩ next := by
  have hne : lx.rest ≠ [] := by
    intro hnil
    rw [hnil] at h
    cases h
  unfold Delims.isEndRaw at h
  split at h
  · next o ho =>
    rw [Bool.and_eq_true, beq_iff_eq] at h
    obtain ⟨hk, hbodyText⟩ := h
    have hstep := Lexer.step_of_emits (.opening hm hne ho hk)
    let inside : Lexer := lx.advance o.size (.tag .block false)
    let opening : Lexeme := lx.lexeme .beginBlock o.size o.trim
    have hmode : inside.mode = .tag .block false := rfl
    obtain ⟨l, l', hlexemes, hl, hl'⟩ := Lexer.lexemes_of_isEndRawBody hmode hbodyText
    obtain ⟨s, rest, hbody⟩ := body_of_endRaw limit hl hl' (inside.feed .standard).2.1 opening.span
    rw [← hlexemes] at hbody
    have hturn : Turn ⟨.standard, limit⟩ lx _ _ := .tag hstep rfl
    rw [readTag_of_ok hbody] at hturn
    exact ⟨s, _, _, _, hturn⟩
  · cases h

end Region

/-! ## The first place of an end tag -/

namespace Delims

variable {d : Delims} {cs : List Char} {n : Nat}

theorem openingAt_nil : d.openingAt [] = none := by
  cases h : d.longestAt [] with
  | none =>
    unfold openingAt
    rw [h]
    rfl
  | some o =>
    have hprefix := Delim.startsAt_iff.1 (longestAt_mem h).2
    exact absurd (List.prefix_nil.1 hprefix) (List.cons_ne_nil _ _)

theorem isEndRaw_nil : d.isEndRaw [] = false := by
  unfold isEndRaw
  rw [openingAt_nil]

theorem le_of_isEndRaw_drop (h : d.isEndRaw (cs.drop n) = true) : n ≤ cs.length := by
  by_contra hlt
  rw [List.drop_eq_nil_of_le (Nat.le_of_not_le hlt), isEndRaw_nil] at h
  cases h

/-- The body goes up to the first place where an end tag stands. -/
theorem rawLength_eq_some_iff : d.rawLength cs = some n ↔
    d.isEndRaw (cs.drop n) = true ∧ ∀ m < n, d.isEndRaw (cs.drop m) = false := by
  -- Behind the first place, all counts are one less.
  induction cs generalizing n with
  | nil => simp [rawLength, isEndRaw_nil]
  | cons c cs ih =>
    rw [rawLength]
    by_cases hfirst : d.isEndRaw (c :: cs) = true
    · rw [if_pos hfirst]
      constructor
      · intro h
        cases h
        exact ⟨hfirst, fun m hm => absurd hm (Nat.not_lt_zero m)⟩
      · rintro ⟨-, hbefore⟩
        cases n with
        | zero => rfl
        | succ n =>
          have hzero := hbefore 0 (Nat.succ_pos n)
          rw [List.drop_zero, hfirst] at hzero
          cases hzero
    · rw [if_neg hfirst, Option.map_eq_some_iff]
      constructor
      · rintro ⟨n, hn, rfl⟩
        obtain ⟨hend, hbefore⟩ := ih.1 hn
        refine ⟨hend, fun m hm => ?_⟩
        cases m with
        | zero => exact Bool.eq_false_iff.2 hfirst
        | succ m => exact hbefore m (Nat.lt_of_succ_lt_succ hm)
      · rintro ⟨hend, hbefore⟩
        cases n with
        | zero => exact absurd hend hfirst
        | succ n => exact ⟨n, ih.2 ⟨hend, fun m hm => hbefore (m + 1) (Nat.succ_lt_succ hm)⟩, rfl⟩

/-- Without an end the body has no end tag in it. -/
theorem rawLength_eq_none_iff : d.rawLength cs = none ↔ ∀ n, d.isEndRaw (cs.drop n) = false := by
  induction cs with
  | nil => simp [rawLength, isEndRaw_nil]
  | cons c cs ih =>
    rw [rawLength]
    by_cases hfirst : d.isEndRaw (c :: cs) = true
    · rw [if_pos hfirst]
      refine ⟨fun h => (by cases h), fun h => ?_⟩
      rw [← List.drop_zero (l := c :: cs), h 0] at hfirst
      cases hfirst
    · rw [if_neg hfirst, Option.map_eq_none_iff, ih]
      constructor
      · intro h n
        cases n with
        | zero => exact Bool.eq_false_iff.2 hfirst
        | succ n => exact h n
      · exact fun h n => h (n + 1)

/-- The offset where the body of a raw block ends that begins at the offset `a`. -/
def rawEnd? (d : Delims) (source : String) (a : Nat) : Option Nat := do
  let (_, back) ← splitAtByte? a source.toList
  let n ← d.rawLength back
  return a + byteLen (back.take n)

theorem rawEnd?_append (d : Delims) (front back : String) :
    d.rawEnd? (front ++ back) front.utf8ByteSize =
      (d.rawLength back.toList).map fun n => front.utf8ByteSize + byteLen (back.toList.take n) := by
  unfold rawEnd?
  rw [String.toList_append, utf8ByteSize_eq, splitAtByte?_append, Option.map_eq_bind]
  rfl

end Delims

/-- The lexer goes on at that offset when it has read the body of a raw block. -/
theorem Lexer.rawEnd?_eq {d : Delims} {lx : Lexer} {source : String} {used : List Char}
    (h : (start source.toList).Reaches used lx) :
    d.rawEnd? source lx.pos = (d.rawLength lx.rest).map fun n => (lx.advance n .template).pos := by
  have hpos : lx.pos = (String.ofList used).utf8ByteSize := by
    rw [utf8ByteSize_ofList, h.pos]
    exact Nat.zero_add _
  have hsource : source = String.ofList used ++ String.ofList lx.rest := by
    rw [← String.ofList_append, ← h.text]
    exact String.ofList_toList.symm
  rw [hsource, hpos, Delims.rawEnd?_append, String.toList_ofList, ← hpos]
  rfl

namespace Template

/-- The source can be cut at the offset `p`, and what follows there begins with the end tag of a raw
    block: that is its first node. -/
def EndsRawAt [Letters] (s : Settings) (source : String) (p : Nat) : Prop :=
  ∃ front back : String, source = front ++ back ∧ front.utf8ByteSize = p ∧
    ∃ n, (s.parse back).template.nodes.head? = some n ∧ n.isEndRaw = true

end Template

namespace Region

/-- In content every turn gives a node. -/
theorem Turn.exists_node [Letters] {s : Settings} {lx next : Lexer} {r : Region} (h : Turn s lx r next)
    (hm : lx.mode = .template) : ∃ n, r.node = some n := by
  have hout : lx.inTag = false := by
    unfold Lexer.inTag
    rw [hm]
  obtain ⟨used, hcovers⟩ := h.covers hout
  cases hn : r.node with
  | some n => exact ⟨n, rfl⟩
  | none =>
    -- Without one, nothing would have been read.
    have hrest : next.rest = lx.rest := by
      rw [hcovers.reaches.text, hcovers.noNode hn]
      rfl
    have hlt := h.weight_lt
    have hpending : lx.mode.pending = 0 := by rw [hm]; rfl
    unfold Lexer.weight at hlt
    rw [hrest, hpending] at hlt
    omega

end Region

/-- The first node of a source is an end tag of a raw block exactly if the scanner finds one there. -/
theorem Template.first_isEndRaw_iff [Letters] {limit : Nat} {source : String} :
    (∃ n, (Settings.parse ⟨.standard, limit⟩ source).template.nodes.head? = some n ∧
      n.isEndRaw = true) ↔ Delims.standard.isEndRaw source.toList = true := by
  let s : Settings := ⟨.standard, limit⟩
  have hnodes : (s.parse source).template.nodes =
      (regions s (Lexer.start source.toList)).filterMap (·.node) := rfl
  constructor
  · rintro ⟨n, hhead, hend⟩
    rw [hnodes] at hhead
    rcases done_or_turn s (Lexer.start source.toList) with hdone | ⟨r, next, hturn⟩
    · rw [regions_of_done hdone] at hhead
      cases hhead
    · obtain ⟨m, hm⟩ := hturn.exists_node rfl
      rw [hturn.regions_eq, List.filterMap_cons_some hm] at hhead
      cases hhead
      exact hturn.isEndRaw_of_node rfl hm hend
  · intro h
    have hmode : (Lexer.start source.toList).mode = .template := rfl
    obtain ⟨place, trims, span, next, hturn⟩ := Region.turn_of_isEndRaw limit hmode h
    refine ⟨.tag ⟨.endRaw, place⟩ trims span, ?_, rfl⟩
    rw [hnodes, hturn.regions_eq]
    rfl

/-- From the end of `front` on, the places of a text are those between the characters of the rest. -/
theorem exists_take_of_append {front back front' back' : List Char}
    (h : front ++ back = front' ++ back') (hle : byteLen front ≤ byteLen front') :
    ∃ n, n ≤ back.length ∧ front' = front ++ back.take n ∧ back' = back.drop n := by
  rcases List.append_eq_append_iff.1 h with ⟨mid, hfront, hback⟩ | ⟨mid, hfront, hback⟩
  · refine ⟨mid.length, ?_, ?_, ?_⟩
    · rw [hback, List.length_append]
      omega
    · rw [hback, List.take_left, hfront]
    · rw [hback, List.drop_left]
  · -- The second place is not before the first, so the two are the same.
    have hmid : mid = [] := by
      by_contra hne
      have hpos := byteLen_pos hne
      rw [hfront, byteLen_append] at hle
      omega
    subst hmid
    refine ⟨0, Nat.zero_le _, ?_, ?_⟩
    · rw [hfront, List.append_nil, List.take_zero, List.append_nil]
    · rw [hback, List.nil_append, List.drop_zero]

theorem byteLen_take_le (cs : List Char) {m n : Nat} (h : m ≤ n) :
    byteLen (cs.take m) ≤ byteLen (cs.take n) := by
  rw [← Nat.add_sub_cancel' h, List.take_add, byteLen_append]
  exact Nat.le_add_right _ _

theorem byteLen_take_lt {cs : List Char} {m n : Nat} (h : m < n) (hn : n ≤ cs.length) :
    byteLen (cs.take m) < byteLen (cs.take n) := by
  have hne : (cs.drop m).take (n - m) ≠ [] := by
    intro hnil
    have hlength := congrArg List.length hnil
    rw [List.length_take, List.length_drop, List.length_nil] at hlength
    omega
  have hpos := byteLen_pos hne
  rw [← Nat.add_sub_cancel' (Nat.le_of_lt h), List.take_add, byteLen_append]
  omega

namespace Template

/-- The places from the end of `front` on where an end tag is read are those where the scanner finds
    one. -/
theorem endsRawAt_iff [Letters] {limit p : Nat} {front back : String} :
    front.utf8ByteSize ≤ p ∧ EndsRawAt ⟨.standard, limit⟩ (front ++ back) p ↔
      ∃ n, n ≤ back.toList.length ∧ p = front.utf8ByteSize + byteLen (back.toList.take n) ∧
        Delims.standard.isEndRaw (back.toList.drop n) = true := by
  constructor
  · rintro ⟨hle, front', back', hsource, rfl, hfirst⟩
    have htext : front.toList ++ back.toList = front'.toList ++ back'.toList := by
      rw [← String.toList_append, hsource, String.toList_append]
    rw [utf8ByteSize_eq, utf8ByteSize_eq] at hle
    obtain ⟨n, hn, hfront, hback⟩ := exists_take_of_append htext hle
    refine ⟨n, hn, ?_, ?_⟩
    · rw [utf8ByteSize_eq, utf8ByteSize_eq, hfront, byteLen_append]
    · rw [← hback]
      exact first_isEndRaw_iff.1 hfirst
  · rintro ⟨n, -, rfl, hend⟩
    refine ⟨Nat.le_add_right _ _, front ++ String.ofList (back.toList.take n),
      String.ofList (back.toList.drop n), ?_, ?_, ?_⟩
    · rw [String.append_assoc, ← String.ofList_append, List.take_append_drop, String.ofList_toList]
    · rw [utf8ByteSize_eq, String.toList_append, byteLen_append, String.toList_ofList, utf8ByteSize_eq]
    · exact first_isEndRaw_iff.2 (by rw [String.toList_ofList]; exact hend)

/-- The raw scanner agrees with the tag parser.  For every source and every offset `a` where it can be
    cut, the body of a raw block that begins at `a` ends at the least offset from `a` on where the rest of
    the source is read with an end tag as its first node, and it has no end if there is no such offset. -/
theorem raw_body_ends_at_least [Letters] (limit : Nat) (front back : String) :
    let s : Settings := ⟨.standard, limit⟩
    let source := front ++ back
    let a := front.utf8ByteSize
    (∀ p, Delims.standard.rawEnd? source a = some p ↔
      a ≤ p ∧ EndsRawAt s source p ∧ ∀ q, a ≤ q → q < p → ¬ EndsRawAt s source q) ∧
    (Delims.standard.rawEnd? source a = none ↔ ∀ p, a ≤ p → ¬ EndsRawAt s source p) := by
  intro s source a
  have hend : Delims.standard.rawEnd? source a = _ := Delims.rawEnd?_append .standard front back
  rw [hend]
  refine ⟨fun p => ?_, ?_⟩
  · rw [Option.map_eq_some_iff]
    constructor
    · rintro ⟨n, hn, rfl⟩
      obtain ⟨hfound, hbefore⟩ := Delims.rawLength_eq_some_iff.1 hn
      obtain ⟨hle, hends⟩ :=
        endsRawAt_iff.2 ⟨n, Delims.le_of_isEndRaw_drop hfound, rfl, hfound⟩
      refine ⟨hle, hends, fun q hq hlt hends' => ?_⟩
      obtain ⟨m, -, rfl, hfound'⟩ := endsRawAt_iff.1 ⟨hq, hends'⟩
      have hm : m < n := by
        by_contra hnot
        have := byteLen_take_le back.toList (Nat.le_of_not_lt hnot)
        omega
      rw [hbefore m hm] at hfound'
      cases hfound'
    · rintro ⟨hle, hends, hleast⟩
      obtain ⟨n, hn, rfl, hfound⟩ := endsRawAt_iff.1 ⟨hle, hends⟩
      refine ⟨n, Delims.rawLength_eq_some_iff.2 ⟨hfound, fun m hm => ?_⟩, rfl⟩
      rw [Bool.eq_false_iff]
      intro hfound'
      obtain ⟨hle', hends'⟩ := endsRawAt_iff.2
        ⟨m, Nat.le_trans (Nat.le_of_lt hm) hn, rfl, hfound'⟩
      exact hleast _ hle' (Nat.add_lt_add_left (byteLen_take_lt hm hn) _) hends'
  · rw [Option.map_eq_none_iff, Delims.rawLength_eq_none_iff]
    constructor
    · intro hnone p hle hends
      obtain ⟨n, -, -, hfound⟩ := endsRawAt_iff.1 ⟨hle, hends⟩
      rw [hnone n] at hfound
      cases hfound
    · intro hnone n
      rw [Bool.eq_false_iff]
      intro hfound
      obtain ⟨hle, hends⟩ :=
        endsRawAt_iff.2 ⟨n, Delims.le_of_isEndRaw_drop hfound, rfl, hfound⟩
      exact hnone _ hle hends

/-- The second of two braces begins the end tag. -/
example : Delims.standard.rawEnd? "\x7b\x7b% endraw %\x7d" 0 = some 1 := by decide +kernel

end Template

end Stencil
