/-
  Parse — a machine reads any source to its end.

  The cuts that a machine makes may fail: the text from an offset on, the text between two offsets, a difference.
  Each of the functions that makes them asks for each of them and gives `none` otherwise, so `isSome` says that all
  its cuts are possible (`SourceCuts`).  Those that read on from an offset are possible just where a character begins.

  A machine gives what is read without one (`parse_never_stuck`).  So none of its cuts is out of range or inside a
  character, no difference goes below zero, what must not occur does not occur, and the bounds of its loops are never
  reached.  Behind an expression or a pattern it is as deep as it was before.
-/
import Stencil.Proofs.Checked.Template

namespace Stencil.Checked

variable {s : Settings} {d : Delims} {source rest : List Char} {i k : Nat} {kind : TagKind} {lx : Lexer} {l : Lexeme}
  {α : Type}

/-! ## Cuts -/

/-- The cuts that are made for one lexeme of a tag: its text, the text between its quotes, its value, and its name
    without the mark. -/
structure LexemeCuts (source : List Char) (l : Lexeme) : Prop where
  text : slice? l.span source = some l.text
  quotes : l.token = .str ∨ l.token = .char → ∃ quote body, quote.utf8Size = 1 ∧
    l.text = quote :: (body ++ [quote]) ∧ quotedBody? l.text = some body
  literal : ∀ negative, (literalOf? source l negative).isSome
  string : l.token = .str → (textOf? source l).isSome
  index : (indexOf? source l).isSome
  name : l.token = .macroName →
    ∃ stop, sub? l.span.stop 1 = some stop ∧ (slice? ⟨l.span.start, stop⟩ source).isSome

/-- The cuts that are made in a source.  Delimiters may be looked for at any offset; the functions that read on from
    an offset are sure of their cuts where a character begins, and some of them only there. -/
structure SourceCuts [Letters] (d : Delims) (source : List Char) : Prop where
  opening : ∀ i, (beginAt? d source i).isSome
  closing : ∀ kind i, (endAt? d kind source i).isSome
  comment : ∀ i, (from? i source).isSome → (commentEnd? d source i).isSome
  endRaw : ∀ i, (isEndRawBody? d source i).isSome ↔ (from? i source).isSome
  raw : ∀ i, (from? i source).isSome → (rawFrom? d source (byteLen source + 1) i).isSome
  tag : ∀ kind afterDot i, i < byteLen source →
    ((tagStep? d source kind afterDot i).isSome ↔ (from? i source).isSome)
  step : ∀ mode i, (from? i source).isSome → (step? d source i mode).isSome
  quoted : ∀ kind fault quote i rest, from? i source = some (quote :: rest) → quote.utf8Size = 1 →
    (quoted? d kind source quote fault i).isSome
  unclosed : ∀ kind fault i rest n, from? (i + 1) source = some rest →
    (unclosedQuote? d kind source fault i (i + 1 + byteLen (rest.take n))).isSome
  number : ∀ raw, (splitNumber? raw).isSome
  escapes : ∀ inChar body, (unescape? inChar body).isSome
  lexemes : ∀ kind (lx : Lexer), from? lx.pos source = some lx.rest → lx.mode = .tag kind false →
    ∀ l ∈ (lx.feed d).1, LexemeCuts source l

theorem exists_at (h : (from? i source).isSome) : ∃ rest, At source i rest := by
  obtain ⟨rest, hrest⟩ := Option.isSome_iff_exists.1 h
  exact ⟨rest, at_of_from? hrest⟩

theorem from?_cases (source : List Char) (i : Nat) : from? i source = none ∨ ∃ rest, At source i rest := by
  cases h : from? i source with
  | none => exact .inl rfl
  | some rest => exact .inr ⟨rest, at_of_from? h⟩

theorem isEndRawBody?_isSome_iff : (isEndRawBody? d source i).isSome ↔ (from? i source).isSome := by
  rcases from?_cases source i with hnone | ⟨rest, hat⟩
  · have hblanks : skipBlanks? source i = none := by
      unfold skipBlanks?
      rw [hnone]
      rfl
    rw [isEndRawBody?, hblanks, hnone]
    rfl
  · rw [isEndRawBody?_eq hat, hat.from?]
    exact iff_of_true rfl rfl

/-- Inside a character a tag cannot be read on. -/
theorem tagStep?_isSome_iff [Letters] {dot : Bool} (hi : i < byteLen source) :
    (tagStep? d source kind dot i).isSome ↔ (from? i source).isSome := by
  rcases from?_cases source i with hnone | ⟨rest, hat⟩
  · have hscan : scan? d kind source dot i = none := by
      unfold scan?
      rw [hnone]
      rfl
    unfold tagStep?
    rw [endAt?_of_none hnone, beginAt?_of_none hnone]
    simp only [Option.bind_eq_bind, Option.bind_some, hscan, hnone, Option.bind_none]
    exact iff_of_false Bool.false_ne_true Bool.false_ne_true
  · cases rest with
    | nil =>
      have hlen := hat.byteLen
      rw [byteLen_nil] at hlen
      omega
    | cons c cs =>
      let lx : Lexer := ⟨i, c :: cs, .tag kind dot⟩
      have hplace : At source lx.pos lx.rest := hat
      have hstep : tagStep? d source kind dot i = _ := tagStep?_eq hplace rfl rfl
      rw [hstep, hat.from?]
      exact iff_of_true rfl rfl

theorem step?_isSome [Letters] (mode : Mode) (h : (from? i source).isSome) : (step? d source i mode).isSome := by
  obtain ⟨rest, hat⟩ := exists_at h
  let lx : Lexer := ⟨i, rest, mode⟩
  have hplace : At source lx.pos lx.rest := hat
  have hstep : step? d source i mode = _ := step?_eq hplace
  rw [hstep]
  rfl

theorem commentEnd?_isSome (d : Delims) (h : (from? i source).isSome) : (commentEnd? d source i).isSome := by
  obtain ⟨rest, hat⟩ := exists_at h
  obtain ⟨found, hfound, -⟩ := Option.map_eq_some_iff.1 (commentEnd?_eq (d := d) hat)
  rw [hfound]
  rfl

theorem rawFrom?_isSome (d : Delims) (h : (from? i source).isSome) :
    (rawFrom? d source (byteLen source + 1) i).isSome := by
  obtain ⟨rest, hat⟩ := exists_at h
  rw [rawFrom?_eq hat (Nat.lt_succ_of_le hat.length_le)]
  rfl

theorem quoted?_isSome {quote : Char} {fault : LexFault} (h : from? i source = some (quote :: rest))
    (hquote : quote.utf8Size = 1) : (quoted? d kind source quote fault i).isSome := by
  have hat := at_of_from? h
  cases hend : Scan.quoteEnd quote false rest with
  | cut n =>
    rw [quoted?_cut hat hquote hend]
    rfl
  | closed n =>
    rw [quoted?_closed hat hquote hquote hend]
    rfl

theorem unclosedQuote?_isSome {fault : LexFault} (h : from? (i + 1) source = some rest) (n : Nat) :
    (unclosedQuote? d kind source fault i (i + 1 + byteLen (rest.take n))).isSome := by
  have hat := at_of_from? h
  simp only [unclosedQuote?, hat.slice_take, firstEnd?_eq hat, Option.bind_eq_bind, Option.bind_some,
    Option.pure_def, Option.isSome_some]

theorem splitNumber?_isSome (raw : List Char) : (splitNumber? raw).isSome := by
  have hsplit := splitNumber?_ends raw
  generalize splitNumber? raw = found at hsplit ⊢
  generalize Numeral.split? raw = parts at hsplit
  cases hsplit <;> rfl

/-- A quoted literal has two quotes to strip, which are one byte long. -/
theorem exists_quotes {quote : Char} {inChar : Bool} {raw value : List Char} (hquote : quote.utf8Size = 1)
    (h : IsQuoted quote inChar raw value) :
    ∃ quote body, quote.utf8Size = 1 ∧ raw = quote :: (body ++ [quote]) ∧ quotedBody? raw = some body := by
  have hbody := quotedBody?_eq hquote h
  obtain ⟨body, rfl, -⟩ := h
  rw [List.cons_append, List.drop_one, List.tail_cons, List.dropLast_concat] at hbody
  exact ⟨quote, body, hquote, rfl, hbody⟩

theorem lexemeCuts [Letters] (hl : l.Sits d source) : LexemeCuts source l where
  text := hl.text
  quotes := by
    rintro (ht | ht)
    · have hspells := hl.spells (by rw [ht]; rfl)
      rw [ht] at hspells
      obtain ⟨value, hquoted⟩ := hspells
      exact exists_quotes rfl hquoted
    · have hspells := hl.spells (by rw [ht]; rfl)
      rw [ht] at hspells
      obtain ⟨value, hquoted⟩ := hspells
      exact exists_quotes rfl hquoted
  literal negative := by
    obtain ⟨result, hresult, -⟩ := literalOf?_eq hl negative
    rw [hresult]
    rfl
  string ht := by
    obtain ⟨value, -, hresult⟩ := textOf?_eq hl ht
    rw [hresult]
    rfl
  index := by
    unfold indexOf?
    rw [hl.text]
    simp only [Option.bind_eq_bind, Option.bind_some]
    split <;> rfl
  name ht := by
    obtain ⟨hsub, hname⟩ := cut_macroName hl ht
    exact ⟨_, hsub, by rw [hname]; rfl⟩

/-- In any source all cuts are possible. -/
theorem sourceCuts [Letters] (d : Delims) (source : List Char) : SourceCuts d source where
  opening i := Option.isSome_iff_exists.2 (exists_beginAt? d source i)
  closing k i := Option.isSome_iff_exists.2 (exists_endAt? d k source i)
  comment _ := commentEnd?_isSome d
  endRaw _ := isEndRawBody?_isSome_iff
  raw _ := rawFrom?_isSome d
  tag _ _ _ := tagStep?_isSome_iff
  step mode _ := step?_isSome mode
  quoted _ _ _ _ _ := quoted?_isSome
  unclosed _ _ _ _ n h := unclosedQuote?_isSome h n
  number := splitNumber?_isSome
  escapes inChar body := by rw [unescape?_eq]; rfl
  lexemes kind lx hfrom hm l hl :=
    lexemeCuts (sits_feed (at_of_from? hfrom) hm (lx.feed d).2.1 (Span.point 0) l hl)

/-! ## Depth -/

/-- At depth `k` inside a tag the program gives what the reader gives, and when it succeeds the machine is at that
    depth again. -/
def ReadsAtDepth [Letters] (k : Nat) (p : Program d source α) (q : Reader α) : Prop :=
  ∀ t m feed, Live t k m feed → match p m, q feed with
    | .ok (x, m'), .ok (y, _) => x = y ∧ m.depth = k ∧ m'.depth = k
    | .error (.failed diagnostic _), .error diagnostic' => diagnostic = diagnostic'
    | _, _ => False

theorem readsAtDepth_of_follows [Letters] {p : Program d source α} {q : Reader α} {f : α → List Part}
    (h : ∀ t, Follows t k [] p q f) : ReadsAtDepth k p q := by
  intro t m feed hlive
  cases h t m feed hlive .nil with
  | ok reader program post =>
    rw [program, reader]
    exact ⟨rfl, hlive.depth, post.live.depth⟩
  | failed reader program lost => rw [program, reader]

/-! ## Whole sources -/

/-- Reading a source never goes wrong, whatever the delimiters, the limit and the source: a machine reads it to its
    end, and gives what is read without a machine.  The lexemes that must not occur outside a tag do not occur there.
    Behind an opening delimiter a machine is at depth zero and in step with the lexemes of the tag.  A full expression
    or a pattern that is read in a tag, from any depth and with the bound of the recursion anywhere above the levels
    to go, is not stuck and comes back to that depth when it succeeds.  And every one of the functions that cut the
    source can make its cuts. -/
theorem parse_never_stuck [Letters] (s : Settings) (source : String) :
    parse? s source = some (s.parse source) ∧
      (∀ (lx next : Lexer) (l : Lexeme), lx.inTag = false → lx.step s.delims = .token l next →
        l.token ∈ [.content, .comment, .rawText, .beginExpr, .beginBlock]) ∧
      (∀ kind lx (m : Machine s.delims source.toList), lx.mode = .tag kind false → m.Stands lx → m.peeked = [] →
        ∃ t feed, Live t 0 m.beginTag feed) ∧
      (∀ k more,
        ReadsAtDepth k (Reader.exprWithin s.limit (s.limit - k + more) : Program s.delims source.toList _)
          (Reader.exprWithin s.limit (s.limit - k)) ∧
        ReadsAtDepth k (Reader.patternWithin s.limit (s.limit - k + more) : Program s.delims source.toList _)
          (Reader.patternWithin s.limit (s.limit - k))) ∧
      SourceCuts s.delims source.toList :=
  ⟨parse?_eq s source, fun _ _ _ => Lexer.token_outside,
    fun _ _ _ hm hstands hpeeked => ⟨_, _, live_beginTag hm hstands hpeeked⟩,
    fun _ _ => ⟨readsAtDepth_of_follows fun _ => .exprWithin (Nat.le_add_right _ _),
      readsAtDepth_of_follows fun _ => .patternWithin (Nat.le_add_right _ _)⟩,
    sourceCuts s.delims source.toList⟩

end Stencil.Checked
