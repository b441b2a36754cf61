/-
  Scan — readers that lay the parts they give in a row.

  The lexemes of a tag stand in the source one after the other, with nothing but blanks between them
  (`Lexeme.Lined`, `Lexer.lined_feed`).  A feed is scanned up to the end of the lexeme taken last.
  `Lays p f` says that reading goes on from there: if `p` gives `x`, the parts `f x` form a row from
  the place where the feed was to the place where it is afterwards.

  `LaysOn feed p Q` is the rule behind it, with any condition on the result and the feed that is left.
  It passes through sequencing, choice and repetition, so a reader of the grammar is treated by
  following its definition; what remains at its end is to wrap a row of parts into one part.
-/
import Stencil.Proofs.Part.Basic
import Stencil.Proofs.Reader.Row

namespace Stencil

variable {d : Delims} {source : List Char}

/-! ## Lexemes in the source -/

/-- There are only blanks between the two offsets. -/
def BlanksBetween (source : List Char) (a b : Nat) : Prop :=
  ∃ cs, slice? ⟨a, b⟩ source = some cs ∧ ∀ c ∈ cs, isBlank c = true

theorem BlanksBetween.le {a b : Nat} (h : BlanksBetween source a b) : a ≤ b := by
  obtain ⟨cs, hcs, -⟩ := h
  obtain ⟨front, back, -, hstart, hstop⟩ := slice?_eq_some hcs
  dsimp only at hstart hstop
  omega

/-- The text of an optional modifier. -/
def Trim.text (t : Option Trim) : List Char := t.toList.map Trim.toChar

/-- The lexeme is the opening delimiter of a tag of that kind, with its modifier. -/
def Lexeme.IsOpening (d : Delims) (kind : TagKind) (l : Lexeme) : Prop :=
  ∃ pair, d.pair (.tag kind) = some pair ∧ l.text = pair.opening.text ++ Trim.text l.trim

/-- The lexeme is the closing delimiter of a tag of that kind, with its modifier. -/
def Lexeme.IsClosing (d : Delims) (kind : TagKind) (l : Lexeme) : Prop :=
  ∃ pair, d.pair (.tag kind) = some pair ∧ l.text = Trim.text l.trim ++ pair.closing.text

/-- The lexeme stands in the source, and is a closing delimiter or spelled as its token asks; it is no
    blank. -/
structure Lexeme.Sits [Letters] (d : Delims) (source : List Char) (l : Lexeme) : Prop where
  text : slice? l.span source = some l.text
  some : l.text ≠ []
  spelled : (∃ kind, l.token = Token.closes kind ∧ l.IsClosing d kind) ∨ l.token.Spells l.text
  solid : l.token ≠ .blank

theorem Trim.tight_text (t : Option Trim) : Tight (Trim.text t) := by
  rcases t with _ | (_ | _ | _) <;> exact .of_all (by decide)

theorem Lexeme.IsOpening.tight {kind : TagKind} {l : Lexeme} (h : l.IsOpening d kind) (hd : d.Tight) :
    Tight l.text := by
  obtain ⟨pair, hpair, htext⟩ := h
  rw [htext]
  exact (hd kind pair hpair).1.append (Trim.tight_text l.trim)

theorem Lexeme.IsClosing.tight {kind : TagKind} {l : Lexeme} (h : l.IsClosing d kind) (hd : d.Tight) :
    Tight l.text := by
  obtain ⟨pair, hpair, htext⟩ := h
  rw [htext]
  exact (Trim.tight_text l.trim).append (hd kind pair hpair).2

theorem Lexeme.Sits.marks [Letters] {l : Lexeme} (h : l.Sits d source) : l.span.Marks d source := by
  refine ⟨l.text, h.text, h.some, fun hd => ?_⟩
  rcases h.spelled with ⟨kind, -, hclosing⟩ | hspells
  · exact hclosing.tight hd
  · exact hspells.tight h.solid

theorem Lexeme.Sits.spells [Letters] {l : Lexeme} (h : l.Sits d source) (ht : l.token.isClosing = false) :
    l.token.Spells l.text := by
  rcases h.spelled with ⟨kind, hkind, -⟩ | hspells
  · rw [hkind, Token.isClosing_closes] at ht
    cases ht
  · exact hspells

/-- The lexemes stand in the source from the offset on, with only blanks between them. -/
def Lexeme.Lined [Letters] (d : Delims) (source : List Char) : Nat → List Lexeme → Prop
  | _, [] => True
  | a, l :: ls =>
    BlanksBetween source a l.span.start ∧ l.Sits d source ∧ Lined d source l.span.stop ls

/-- The feed is scanned up to the end of its last lexeme, and the rest of its lexemes follow. -/
structure Feed.Scanned [Letters] (d : Delims) (source : List Char) (feed : Feed) : Prop where
  last : feed.last.Marks d source
  lined : Lexeme.Lined d source feed.last.stop feed.lexemes

/-- The modifier that is found is the first character. -/
theorem Trim.ofHead?_eq_some {cs : List Char} {t : Trim} (h : Trim.ofHead? cs = some t) :
    cs = t.toChar :: cs.tail := by
  cases cs with
  | nil => cases h
  | cons c cs =>
    have hc : Trim.ofChar? c = some t := h
    unfold Trim.ofChar? at hc
    split at hc <;> cases hc <;> rfl

/-- A modifier that is found stands at the front. -/
theorem Trim.take_width_ofHead? (cs : List Char) :
    cs.take (Trim.width (Trim.ofHead? cs)) = Trim.text (Trim.ofHead? cs) := by
  cases h : Trim.ofHead? cs with
  | none => rfl
  | some t =>
    rw [Trim.ofHead?_eq_some h]
    rfl

theorem Trim.length_text (t : Option Trim) : (Trim.text t).length = Trim.width t := by
  cases t <;> rfl

theorem take_length_of_isPrefix {a cs : List Char} (h : a <+: cs) : cs.take a.length = a := by
  obtain ⟨b, rfl⟩ := h
  exact List.take_left

/-- A closing delimiter that is found stands at the front, with its modifier before it. -/
theorem DelimPair.closing_text {p : DelimPair} {cs : List Char} {close : Closing}
    (h : p.closingAt cs = some close) :
    cs.take close.size = Trim.text close.trim ++ p.closing.text ∧ close.delim = p.closing := by
  have plain : (if p.closing.startsAt cs then some (⟨p.closing, none⟩ : Closing) else none) =
      some close → cs.take close.size = Trim.text close.trim ++ p.closing.text ∧
        close.delim = p.closing := by
    intro hplain
    split at hplain
    · next hstarts =>
      cases hplain
      exact ⟨take_length_of_isPrefix (Delim.startsAt_iff.1 hstarts), rfl⟩
    · cases hplain
  unfold DelimPair.closingAt at h
  dsimp only at h
  split at h
  · next t ht =>
    split at h
    · next hstarts =>
      cases h
      refine ⟨?_, rfl⟩
      rw [Trim.ofHead?_eq_some ht]
      show t.toChar :: cs.tail.take p.closing.text.length = t.toChar :: p.closing.text
      rw [take_length_of_isPrefix (Delim.startsAt_iff.1 hstarts)]
    · exact plain h
  · exact plain h

theorem Delims.closing_text {kind : TagKind} {cs : List Char} {close : Closing}
    (h : d.closingAt kind cs = some close) :
    ∃ pair, d.pair (.tag kind) = some pair ∧
      cs.take close.size = Trim.text close.trim ++ pair.closing.text := by
  obtain ⟨pair, hpair, hclose⟩ := Option.bind_eq_some_iff.1 h
  exact ⟨pair, hpair, (DelimPair.closing_text hclose).1⟩

/-- What is kept of a list of delimiters is one of them, and the longest: those of equal length stand before
    it, in whatever relation `R` each one stands to all that come after it. -/
theorem Delims.longest_of_foldl {R : DelimKind × Delim → DelimKind × Delim → Prop}
    {found : DelimKind × Delim} (os : List (DelimKind × Delim)) (best : Option (DelimKind × Delim))
    (hsorted : (best.toList ++ os).Pairwise R) (h : os.foldl longer best = some found) :
    found ∈ best.toList ++ os ∧ ∀ o ∈ best.toList ++ os, o.2.length ≤ found.2.length ∧
      (o.2.length = found.2.length → o = found ∨ R o found) := by
  induction os generalizing best with
  | nil =>
    cases best with
    | none => cases h
    | some b =>
      cases h
      refine ⟨List.mem_cons_self, fun o ho => ?_⟩
      cases List.mem_singleton.1 ho
      exact ⟨Nat.le_refl _, fun _ => .inl rfl⟩
  | cons o os ih =>
    rw [List.foldl_cons] at h
    cases best with
    | none => exact ih (some o) hsorted h
    | some b =>
      obtain ⟨hb, hos⟩ := List.pairwise_cons.1 hsorted
      unfold longer at h
      dsimp only at h
      by_cases hle : b.2.length ≤ o.2.length
      · -- The earlier one is dropped: what is kept is no shorter, and comes after it.
        rw [if_pos hle] at h
        obtain ⟨hmem, hall⟩ := ih (some o) hos h
        refine ⟨List.mem_cons_of_mem b hmem, List.forall_mem_cons.2 ⟨⟨?_, fun _ => ?_⟩, hall⟩⟩
        · have := (hall o List.mem_cons_self).1
          omega
        · exact .inr (hb found hmem)
      · rw [if_neg hle] at h
        obtain ⟨hmem, hall⟩ := ih (some b) (hsorted.sublist (.cons_cons b (.cons o (.refl os)))) h
        obtain ⟨hkept, hrest⟩ := List.forall_mem_cons.1 hall
        refine ⟨?_, List.forall_mem_cons.2 ⟨hkept, List.forall_mem_cons.2 ⟨⟨?_, fun heq => ?_⟩, hrest⟩⟩⟩
        · rcases List.mem_cons.1 hmem with rfl | hmem
          · exact List.mem_cons_self
          · exact List.mem_cons_of_mem b (List.mem_cons_of_mem o hmem)
        · omega
        · omega

/-- The longest opening delimiter is one of those that begin the text. -/
theorem Delims.longestAt_mem {cs : List Char} {o : DelimKind × Delim}
    (h : d.longestAt cs = some o) : o ∈ d.openings ∧ o.2.startsAt cs = true := by
  have hmem := (longest_of_foldl (R := fun _ _ => True) _ none
    (List.pairwise_iff_forall_sublist.2 fun _ => trivial) h).1
  exact List.mem_filter.1 hmem

theorem Delims.opening_text {kind : DelimKind} {cs : List Char} {o : Opening}
    (h : d.openingAt cs = some o) (hk : o.kind = kind) :
    ∃ pair, d.pair kind = some pair ∧ o.delim = pair.opening ∧
      cs.take o.size = pair.opening.text ++ Trim.text o.trim := by
  obtain ⟨⟨kind', delim⟩, hlongest, heq⟩ := Option.map_eq_some_iff.1 h
  obtain ⟨hmem, hstarts⟩ := longestAt_mem hlongest
  obtain ⟨k, -, hk'⟩ := List.mem_filterMap.1 hmem
  obtain ⟨pair, hpair, hpair'⟩ := Option.map_eq_some_iff.1 hk'
  cases hpair'
  cases heq
  dsimp only at hk hstarts
  refine ⟨pair, hk ▸ hpair, rfl, ?_⟩
  show cs.take (pair.opening.text.length + _) = _
  rw [List.take_add, take_length_of_isPrefix (Delim.startsAt_iff.1 hstarts)]
  exact congrArg _ (Trim.take_width_ofHead? _)

namespace Lexer

variable {lx next : Lexer} {l : Lexeme} {kind : TagKind} {afterDot : Bool} {front : List Char}

/-- Two places that reading leads to mark off the text between them. -/
theorem Reaches.slice {place : Lexer} {used cs : List Char}
    (hplace : (start source).Reaches used place) (h : place.Reaches cs next) :
    slice? ⟨place.pos, next.pos⟩ source = some cs := by
  have htext : source = used ++ place.rest := hplace.text
  have hpos : place.pos = byteLen used := by
    rw [hplace.pos]
    exact Nat.zero_add _
  refine slice?_of_append used next.rest (by rw [htext, h.text]) hpos ?_
  show next.pos = _
  rw [h.pos, hpos]

/-- A lexeme of a tag sits where it was read. -/
theorem Emits.sits [Letters] (h : lx.Emits d l next) (hm : lx.mode = .tag kind afterDot) {used : List Char}
    (hlx : (start source).Reaches used lx) (hblank : l.token ≠ .blank) : l.Sits d source where
  text := by
    obtain ⟨hreach, hspan⟩ := h.reaches
    rw [hspan]
    exact hlx.slice hreach
  some := h.text_ne_nil (by rw [hm]; exact Mode.noConfusion)
  spelled := by
    cases h.inTag hm with
    | closing hr hc => exact .inl ⟨kind, rfl, Delims.closing_text hc⟩
    | @word c cs token more hr hc ho hs =>
      right
      show token.Spells (lx.rest.take (more + 1))
      rw [hr, List.take_succ_cons]
      exact Scan.spells_of_read hs
  solid := hblank

/-- The lexemes of a tag stand in a line from the place on where it is read from. -/
theorem lined_feed [Letters] {a : Nat} {used : List Char} (hlx : (start source).Reaches used lx)
    (hm : lx.mode = .tag kind afterDot) (hblank : BlanksBetween source a lx.pos) :
    Lexeme.Lined d source a (lx.feed d).1 := by
  -- Along the feed.  What is carried is the gap of blanks between `a` and the place.
  fun_induction feed d lx generalizing a used afterDot with
  | case1 lx h => exact trivial
  | case2 lx diagnostic next h => exact trivial
  | case3 lx l next h hclose =>
    have hemits := emits_of_step h
    have hsolid : l.token ≠ .blank := by
      intro hblank
      rw [hblank] at hclose
      cases hclose
    refine ⟨?_, hemits.sits hm hlx hsolid, trivial⟩
    rw [hemits.reaches.2]
    exact hblank
  | case4 lx l next h hclose ls stop after heq ih =>
    have hemits := emits_of_step h
    obtain ⟨hreach, hspan⟩ := hemits.reaches
    have hnext := hlx.trans hreach
    rw [heq] at ih
    rcases hemits.mode_of_tag hm with ⟨htoken, -⟩ | ⟨hopen, dot, hmode⟩
    · rw [htoken] at hclose
      exact absurd (Token.isClosing_closes kind) hclose
    · dsimp only
      split
      · -- A blank is left out, and lengthens the gap before the next lexeme.
        next hblankToken =>
        have hspells : l.token.Spells l.text := by
          rcases hemits.spells hm with htoken | hspells
          · rw [hblankToken] at htoken
            cases kind <;> cases htoken
          · exact hspells
        rw [hblankToken] at hspells
        obtain ⟨cs, hcs, hall⟩ := hblank
        refine ih hnext hmode ⟨cs ++ l.text, slice?_concat hcs (hlx.slice hreach) rfl, ?_⟩
        intro c hc
        rcases List.mem_append.1 hc with hmem | hmem
        · exact hall c hmem
        · exact List.all_eq_true.1 hspells.2 c hmem
      · next hsolid =>
        refine ⟨by rw [hspan]; exact hblank, hemits.sits hm hlx hsolid, ?_⟩
        rw [hspan]
        exact ih hnext hmode ⟨[], hnext.slice (.refl next), List.forall_mem_nil _⟩

end Lexer

/-! ## Rules for readers -/

/-- The lexeme is the first of the one feed, and the other feed is what is left after it. -/
structure Lexeme.Between [Letters] (d : Delims) (source : List Char) (feed rest : Feed) (l : Lexeme) : Prop where
  sits : l.Sits d source
  blanks : BlanksBetween source feed.last.stop l.span.start
  last : rest.last = l.span
  first : feed.lexemes.head? = some l

namespace Lexeme.Between

variable {feed rest : Feed} {l : Lexeme}

theorem le [Letters] (h : l.Between d source feed rest) : feed.last.stop ≤ l.span.start := h.blanks.le

theorem marks [Letters] (h : l.Between d source feed rest) : l.span.Marks d source := h.sits.marks

/-- The lexeme takes up the end of what lies between the two feeds. -/
theorem ends [Letters] (h : l.Between d source feed rest) :
    feed.last.stop ≤ l.span.start ∧ l.span.start < l.span.stop ∧ l.span.stop = rest.last.stop :=
  ⟨h.le, h.marks.lt, by rw [h.last]⟩

/-- A part without children that stands in place of a lexeme. -/
theorem row [Letters] (h : l.Between d source feed rest) {p : Part} (hspan : p.span = l.span)
    (hchildren : p.children = []) (hrecords : p.Records l.text) :
    Part.Row d source feed.last.stop [p] rest.last.stop := by
  obtain ⟨hle, -, hstop⟩ := h.ends
  refine (Part.Row.leaf h.marks hspan hchildren fun cs hcs => ?_).weaken hle (Nat.le_of_eq hstop)
  rw [hspan, h.sits.text] at hcs
  rw [← Option.some.inj hcs]
  exact hrecords

end Lexeme.Between

namespace Reader

variable {α β : Type} {feed rest : Feed} {P : α → Feed → Prop} {Q : β → Feed → Prop}

/-- If the reader succeeds on the scanned feed, what it leaves is scanned further, and satisfies `Q`
    together with what it gives. -/
def LaysOn [Letters] (d : Delims) (source : List Char) (feed : Feed) (p : Reader α) (Q : α → Feed → Prop) :
    Prop :=
  feed.Scanned d source → ∀ x rest, p feed = .ok (x, rest) →
    rest.Scanned d source ∧ feed.last.start ≤ rest.last.start ∧ Q x rest

/-- The parts `f x` of whatever the reader gives form a row over what it takes. -/
def Lays [Letters] (d : Delims) (source : List Char) (p : Reader α) (f : α → List Part) : Prop :=
  ∀ feed, LaysOn d source feed p fun x rest =>
    Part.Row d source feed.last.stop (f x) rest.last.stop

namespace LaysOn

theorem pure [Letters] {a : α} (h : P a feed) : LaysOn d source feed (Pure.pure a) P := by
  intro hfeed x rest hx
  cases hx
  exact ⟨hfeed, Nat.le_refl _, h⟩

/-- A reader that tells nothing but the next lexemes takes nothing. -/
theorem looking [Letters] {p : Reader α}
    (h : ∀ x rest, p feed = .ok (x, rest) → rest = feed ∧ P x feed) : LaysOn d source feed p P := by
  intro hfeed x rest hx
  obtain ⟨rfl, hpx⟩ := h x rest hx
  exact ⟨hfeed, Nat.le_refl _, hpx⟩

theorem bind [Letters] {p : Reader α} {k : α → Reader β} (hp : LaysOn d source feed p P)
    (hk : ∀ a mid, P a mid → LaysOn d source mid (k a) Q) : LaysOn d source feed (p >>= k) Q := by
  intro hfeed y rest hy
  obtain ⟨a, mid, ha, hb⟩ := bind_eq_ok_iff.1 hy
  obtain ⟨hmid, hle, hpa⟩ := hp hfeed _ _ ha
  obtain ⟨hrest, hle', hq⟩ := hk a mid hpa hmid _ _ hb
  exact ⟨hrest, Nat.le_trans hle hle', hq⟩

theorem map [Letters] {p : Reader α} {f : α → β} (hp : LaysOn d source feed p P)
    (hf : ∀ a mid, P a mid → Q (f a) mid) : LaysOn d source feed (f <$> p) Q :=
  hp.bind fun a mid ha => .pure (hf a mid ha)

theorem mono [Letters] {P' : α → Feed → Prop} {p : Reader α} (hp : LaysOn d source feed p P)
    (h : ∀ a mid, P a mid → P' a mid) : LaysOn d source feed p P' := by
  intro hfeed x rest hx
  obtain ⟨hrest, hle, hpx⟩ := hp hfeed x rest hx
  exact ⟨hrest, hle, h x rest hpx⟩

/-- The lexeme taken last is in the source, and not before the one taken last in the beginning. -/
theorem withLast [Letters] {p : Reader α} (hp : LaysOn d source feed p P) :
    LaysOn d source feed p fun x rest =>
      P x rest ∧ feed.last.start ≤ rest.last.start ∧ rest.last.Marks d source := by
  intro hfeed x rest hx
  obtain ⟨hrest, hle, hpx⟩ := hp hfeed x rest hx
  exact ⟨hrest, hle, hpx, hle, hrest.last⟩

theorem ite [Letters] {c : Prop} [Decidable c] {p q : Reader α} (hp : c → LaysOn d source feed p P)
    (hq : ¬ c → LaysOn d source feed q P) : LaysOn d source feed (if c then p else q) P := by
  split
  · next hc => exact hp hc
  · next hc => exact hq hc

theorem unexpected [Letters] {expected : List Expected} {found : Option Lexeme} :
    LaysOn d source feed (unexpected expected found) P :=
  fun _ _ _ h => (unexpected_ne_ok h).elim

theorem tooDeep [Letters] {limit : Nat} : LaysOn d source feed (tooDeep limit) P :=
  fun _ _ _ h => (tooDeep_ne_ok h).elim

theorem fail [Letters] {diagnostic : Diagnostic} : LaysOn d source feed (fail diagnostic) P := by
  intro _ _ _ h
  cases h

end LaysOn

/-! ## Single lexemes -/

theorem peek_laysOn [Letters] (feed : Feed) :
    LaysOn d source feed peek fun found rest => rest = feed ∧ found = feed.lexemes.head? := by
  refine .looking fun found rest h => ?_
  obtain ⟨rfl, hfound⟩ := peek_eq_ok h
  exact ⟨rfl, rfl, hfound⟩

theorem nextIs_laysOn [Letters] (t : Token) (feed : Feed) :
    LaysOn d source feed (nextIs t) fun b rest =>
      rest = feed ∧ (b = true → ∃ l, feed.lexemes.head? = some l ∧ l.token = t) := by
  refine .looking fun b rest h => ?_
  obtain ⟨rfl, hb⟩ := nextIs_eq_ok h
  refine ⟨rfl, rfl, ?_⟩
  rintro rfl
  obtain ⟨l, hl, ht⟩ := (Option.any_eq_true _ _).1 hb.symm
  exact ⟨l, hl, eq_of_beq ht⟩

theorem secondIs_laysOn [Letters] (t : Token) (feed : Feed) :
    LaysOn d source feed (secondIs t) fun _ rest => rest = feed := by
  refine .looking fun b rest h => ?_
  obtain ⟨rfl, -⟩ := secondIs_eq_ok h
  exact ⟨rfl, rfl⟩

/-- The lexeme that is taken stands behind the one taken before. -/
theorem next_laysOn [Letters] (feed : Feed) :
    LaysOn d source feed next fun found rest =>
      found = feed.lexemes.head? ∧ ∀ l ∈ found, l.Between d source feed rest := by
  intro hfeed found rest h
  rcases next_eq_ok h with ⟨rfl, rfl, hnil⟩ | ⟨l, rfl, hls, hlast⟩
  · exact ⟨hfeed, Nat.le_refl _, by rw [hnil]; rfl, nofun⟩
  · have hlined := hfeed.lined
    rw [hls] at hlined
    obtain ⟨hblanks, hsits, hrest⟩ := hlined
    have hhead : feed.lexemes.head? = some l := by rw [hls]; rfl
    have hle := hblanks.le
    have hlt := hfeed.last.lt
    refine ⟨⟨by rw [hlast]; exact hsits.marks, by rw [hlast]; exact hrest⟩, ?_, hhead.symm, ?_⟩
    · rw [hlast]
      omega
    · intro l' hl'
      cases hl'
      exact ⟨hsits, hblanks, hlast, hhead⟩

/-- A reader that takes a lexeme and gives up where there is none. -/
theorem LaysOn.next [Letters] {k : Option Lexeme → Reader α} (hnone : ∀ mid, LaysOn d source mid (k none) P)
    (hsome : ∀ (l : Lexeme) mid, l.Between d source feed mid → LaysOn d source mid (k (some l)) P) :
    LaysOn d source feed (next >>= k) P := by
  refine (next_laysOn feed).bind fun found mid hfound => ?_
  cases found with
  | none => exact hnone mid
  | some l => exact hsome l mid (hfound.2 l rfl)

/-- A reader that takes the lexeme it has looked at. -/
theorem LaysOn.nextSeen [Letters] {k : Option Lexeme → Reader α} {l : Lexeme}
    (hl : feed.lexemes.head? = some l)
    (hsome : ∀ mid, l.Between d source feed mid → LaysOn d source mid (k (some l)) P) :
    LaysOn d source feed (Reader.next >>= k) P := by
  refine (next_laysOn feed).bind fun found mid hfound => ?_
  rw [hl] at hfound
  obtain ⟨rfl, hbetween⟩ := hfound
  exact hsome mid (hbetween l rfl)

theorem eat_laysOn [Letters] (t : Token) (feed : Feed) :
    LaysOn d source feed (eat t) fun found rest =>
      (found = none → rest = feed) ∧ ∀ l ∈ found, l.token = t ∧ l.Between d source feed rest := by
  intro hfeed found rest h
  rcases eat_eq_ok h with ⟨rfl, rfl, -⟩ | ⟨l, rfl, ht, hls⟩
  · exact ⟨hfeed, Nat.le_refl _, fun _ => rfl, nofun⟩
  · -- What is eaten is what `next` takes.
    have hhead : feed.lexemes.head? = some l := by rw [hls]; rfl
    have hnext : next feed = .ok (some l, rest) := by
      obtain ⟨b, mid, hnextIs, hite⟩ := bind_eq_ok_iff.1 h
      obtain ⟨rfl, -⟩ := nextIs_eq_ok hnextIs
      split at hite
      · exact hite
      · cases hite
    obtain ⟨hrest, hle, -, hbetween⟩ := next_laysOn feed hfeed _ _ hnext
    refine ⟨hrest, hle, nofun, ?_⟩
    rintro l' ⟨rfl⟩
    exact ⟨ht, hbetween l rfl⟩

theorem eats_laysOn [Letters] (t : Token) (feed : Feed) :
    LaysOn d source feed (eats t) fun b rest =>
      (b = false → rest = feed) ∧
        (b = true → ∃ l : Lexeme, l.token = t ∧ l.Between d source feed rest) := by
  refine (eat_laysOn t feed).bind fun found mid hfound => .pure ?_
  cases found with
  | none => exact ⟨fun _ => hfound.1 rfl, nofun⟩
  | some l => exact ⟨nofun, fun _ => ⟨l, hfound.2 l rfl⟩⟩

/-- An optional token leads no part back. -/
theorem skips_laysOn [Letters] (t : Token) (feed : Feed) :
    LaysOn d source feed (eats t) fun _ rest => feed.last.stop ≤ rest.last.stop := by
  refine (eats_laysOn t feed).mono fun b rest hb => ?_
  cases b with
  | true =>
    obtain ⟨l, -, hl⟩ := hb.2 rfl
    have hends := hl.ends
    omega
  | false =>
    obtain rfl := hb.1 rfl
    exact Nat.le_refl _

/-- A reader that goes on in one way behind a token, and in another without it. -/
theorem LaysOn.ifEats [Letters] {t : Token} {p q : Reader α}
    (hp : ∀ (l : Lexeme) mid, l.token = t → l.Between d source feed mid → LaysOn d source mid p P)
    (hq : LaysOn d source feed q P) :
    LaysOn d source feed (do if ← eats t then p else q) P := by
  refine (eats_laysOn t feed).bind fun b mid hb => ?_
  cases b with
  | true =>
    obtain ⟨l, ht, hbetween⟩ := hb.2 rfl
    exact hp l mid ht hbetween
  | false =>
    obtain rfl := hb.1 rfl
    exact hq

/-- A reader that chooses by looking at the next lexeme. -/
theorem LaysOn.ifNextIs [Letters] {t : Token} {p q : Reader α}
    (hp : ∀ l, feed.lexemes.head? = some l → l.token = t → LaysOn d source feed p P)
    (hq : LaysOn d source feed q P) : LaysOn d source feed (do if ← nextIs t then p else q) P := by
  refine (nextIs_laysOn t feed).bind fun b mid hmid => ?_
  obtain ⟨rfl, hb⟩ := hmid
  refine .ite (fun htrue => ?_) fun _ => hq
  obtain ⟨l, hl, ht⟩ := hb htrue
  exact hp l hl ht

theorem expect_laysOn [Letters] (t : Token) (feed : Feed) :
    LaysOn d source feed (expect t) fun l rest => l.token = t ∧ l.Between d source feed rest := by
  refine .next (fun mid => .unexpected) fun l mid hl => ?_
  exact .ite (fun ht => .pure ⟨ht, hl⟩) fun _ => .unexpected

/-! ## Repetition -/

variable {f : α → List Part}

theorem manyFrom_laysOn [Letters] {item : Reader (Option α)} (hitem : Lays d source item (Option.elim · [] f))
    (fuel : Nat) (feed : Feed) :
    LaysOn d source feed (manyFrom item fuel) fun xs rest =>
      Part.Row d source feed.last.stop (xs.flatMap f) rest.last.stop := by
  induction fuel generalizing feed with
  | zero => exact .pure (.nil (Nat.le_refl _))
  | succ fuel ih =>
    refine (hitem feed).bind fun found mid hx => ?_
    cases found with
    | none => exact .pure hx
    | some x => exact (ih mid).bind fun xs rest hxs => .pure (hx.append hxs)

/-- The parts of all items are laid in a row. -/
theorem many_lays [Letters] {item : Reader (Option α)} (hitem : Lays d source item (Option.elim · [] f)) :
    Lays d source (many item) (·.flatMap f) :=
  fun feed => manyFrom_laysOn hitem (feed.lexemes.length + 1) feed

/-- As `many_lays`, where each item is one part. -/
theorem many_lays_map [Letters] {item : Reader (Option α)} {g : α → Part}
    (hitem : Lays d source item (Option.elim · [] fun x => [g x])) :
    Lays d source (many item) (·.map g) := by
  refine fun feed => (many_lays hitem feed).mono fun xs rest hxs => ?_
  show Part.Row d source feed.last.stop (xs.map g) rest.last.stop
  rw [List.map_eq_flatMap]
  exact hxs

/-- The parts of a bracketed list lie before its closing bracket, which is taken last. -/
structure Listed (d : Delims) (source : List Char) (f : α → List Part) (feed : Feed) (s : Seq α)
    (rest : Feed) : Prop where
  items : Part.Row d source feed.last.stop (s.items.flatMap f) s.close.start
  close : s.close.Marks d source
  last : rest.last = s.close

theorem seqFrom_laysOn [Letters] {item : Reader α} (hitem : Lays d source item f) (close : Token) (fuel : Nat)
    (trailing : Bool) (feed : Feed) :
    LaysOn d source feed (seqFrom close item fuel trailing) (Listed d source f feed) := by
  induction fuel using Nat.strongRecOn generalizing trailing feed with
  | ind fuel ih =>
    unfold seqFrom
    refine (eat_laysOn close feed).bind fun found mid hfound => ?_
    cases found with
    | some c =>
      obtain ⟨-, hc⟩ := hfound.2 c rfl
      exact .pure ⟨.nil hc.le, hc.marks, hc.last⟩
    | none =>
      obtain rfl := hfound.1 rfl
      refine (hitem _).bind fun x mid hx => .next (fun _ => .unexpected) fun c after hc => ?_
      have hends := hc.ends
      refine .ite (fun _ => ?_) fun _ => .ite (fun _ => ?_) fun _ => .unexpected
      · cases fuel with
        | zero => exact .unexpected
        | succ left =>
          refine (ih left (Nat.lt_succ_self left) true after).bind fun s rest hs => .pure ?_
          exact ⟨hx.append (hs.items.weaken (by omega) (Nat.le_refl _)), hs.close, hs.last⟩
      · refine .pure ⟨?_, hc.marks, hc.last⟩
        show Part.Row d source _ (f x ++ []) c.span.start
        exact hx.append (.nil hc.le)

/-- The parts of a bracketed list lie in a row. -/
theorem seq_laysOn [Letters] {item : Reader α} (hitem : Lays d source item f) (close : Token) (feed : Feed) :
    LaysOn d source feed (seq close item) (Listed d source f feed) :=
  seqFrom_laysOn hitem close feed.lexemes.length false feed

/-! ## Names and constants -/

theorem records_identOf (l : Lexeme) : Part.Records (.ident (identOf l)) l.text := by
  show l.text = (String.ofList l.text).toList
  rw [String.toList_ofList]

theorem ident_lays [Letters] : Lays d source ident fun i => [.ident i] := by
  refine fun feed => .next (fun _ => .unexpected) fun l mid hl => ?_
  exact .ite (fun _ => .pure (hl.row rfl rfl (records_identOf l))) fun _ => .unexpected

/-- An item that there need not be. -/
theorem Lays.option [Letters] {item : Reader α} (hitem : Lays d source item f) :
    Lays d source (some <$> item) (Option.elim · [] f) :=
  fun feed => (hitem feed).map fun _ _ hx => hx

theorem none_lays [Letters] : Lays d source (pure none : Reader (Option α)) (Option.elim · [] f) :=
  fun _ => .pure (.nil (Nat.le_refl _))

theorem ident?_lays [Letters] : Lays d source ident? (Option.elim · [] fun i => [.ident i]) := by
  refine fun feed => (peek_laysOn feed).bind fun found mid hmid => ?_
  obtain ⟨rfl, -⟩ := hmid
  exact .ite (fun _ => ident_lays.option _) fun _ => none_lays _

theorem after?_lays [Letters] {item : Reader α} (hitem : Lays d source item f) (t : Token) :
    Lays d source (after? t item) (Option.elim · [] f) := by
  refine fun feed => .ifEats (fun l mid _ hl => ?_) (none_lays feed)
  have hends := hl.ends
  exact (hitem.option mid).mono fun x rest hx => hx.weaken (by omega) (Nat.le_refl _)

theorem textLit_lays [Letters] : Lays d source textLit fun t => [.text t] := by
  refine fun feed => .next (fun _ => .unexpected) fun l mid hl => ?_
  refine .ite (fun _ => ?_) fun _ => .unexpected
  intro hmid t rest h
  obtain ⟨value, after, hvalue, hpure⟩ := bind_eq_ok_iff.1 h
  cases hpure
  -- Decoding the text takes nothing.
  rw [textOf_feed, Feed.textOf] at hvalue
  cases hunescape : Escape.unescape false (quotedBody l) with
  | ok cs =>
    rw [hunescape] at hvalue
    cases hvalue
    exact ⟨hmid, Nat.le_refl _, hl.row rfl rfl trivial⟩
  | error range =>
    rw [hunescape] at hvalue
    cases hvalue

end Reader

namespace Numeral

/-- The suffix is the end of the number. -/
theorem suffix_of_splitDecimal? {cs : List Char} {kind : NumberKind} {suffix : List Char}
    (h : splitDecimal? cs = some (kind, suffix)) : suffix <:+ cs := by
  obtain ⟨⟨hasFraction, afterFraction⟩, hfraction, h⟩ := Option.bind_eq_some_iff.1 h
  obtain ⟨⟨hasExponent, left⟩, hexponent, h⟩ := Option.bind_eq_some_iff.1 h
  have hdrop : ∀ (p : Char → Bool) (xs : List Char), xs.dropWhile p <:+ xs :=
    fun p xs => List.dropWhile_suffix p
  have hafter : afterFraction <:+ cs := by
    refine List.IsSuffix.trans ?_ (hdrop isDigitOrBar cs)
    generalize cs.dropWhile isDigitOrBar = row at hfraction
    unfold fraction? at hfraction
    split at hfraction
    · split at hfraction
      · cases hfraction
        exact (hdrop _ _).trans (List.suffix_cons _ _)
      · cases hfraction
    · cases hfraction
      exact List.suffix_refl _
  have hsign : ∀ xs : List Char, dropSign xs <:+ xs := by
    intro xs
    unfold dropSign
    split
    · exact List.suffix_cons _ _
    · exact List.suffix_cons _ _
    · exact List.suffix_refl _
  have hleft : left <:+ cs := by
    refine List.IsSuffix.trans ?_ hafter
    unfold exponent? at hexponent
    split at hexponent
    · cases hexponent
      exact List.suffix_refl _
    · dsimp only at hexponent
      split at hexponent
      · split at hexponent
        · cases hexponent
          exact ((hdrop _ _).trans (hsign _)).trans (List.suffix_cons _ _)
        · cases hexponent
      · cases hexponent
        exact List.suffix_refl _
  dsimp only at h
  generalize (if (hasFraction || hasExponent) = true then NumberKind.float else .int) = k at h
  split at h
  · cases h
    exact List.nil_suffix
  · split at h
    · cases h
      exact hleft
    · split at h
      · cases h
        exact hleft
      · cases h

theorem suffix_of_splitRadix? {inRow isDigit : Char → Bool} {cs : List Char} {kind : NumberKind}
    {suffix : List Char} (h : splitRadix? inRow isDigit cs = some (kind, suffix)) : suffix <:+ cs := by
  unfold splitRadix? at h
  dsimp only at h
  split at h
  · cases h
    exact List.dropWhile_suffix _
  · cases h

theorem suffix_of_split? {cs : List Char} {kind : NumberKind} {suffix : List Char}
    (h : split? cs = some (kind, suffix)) : suffix <:+ cs := by
  have marked : ∀ (c c' : Char) (xs : List Char), suffix <:+ xs → suffix <:+ c :: c' :: xs :=
    fun c c' xs hxs => (hxs.trans (List.suffix_cons c' xs)).trans (List.suffix_cons c _)
  unfold split? at h
  split at h
  · exact marked _ _ _ (suffix_of_splitRadix? h)
  · exact marked _ _ _ (suffix_of_splitRadix? h)
  · exact marked _ _ _ (suffix_of_splitRadix? h)
  · split at h
    · exact suffix_of_splitDecimal? h
    · cases h
  · cases h

/-- A number is written as its digits are, behind its sign. -/
theorem writtenAs_of_number? {raw : List Char} {negative : Bool} {n : Number} (sign : List Char)
    (h : number? raw negative = some n)
    (hsign : if negative then ∃ blanks, sign = '-' :: blanks ∧ ∀ c ∈ blanks, isBlank c = true
      else sign = []) : n.WrittenAs (sign ++ raw) := by
  obtain ⟨hraw, hnegative⟩ := Reader.number?_eq_some h
  refine ⟨⟨sign, by rw [hraw], by rw [hnegative]; exact hsign⟩, ?_⟩
  intro s hs
  obtain ⟨⟨kind, suffix⟩, hsplit, hsome⟩ := Option.bind_eq_some_iff.1 h
  cases hsome
  dsimp only at hs
  split at hs
  · cases hs
  · cases hs
    rw [String.toList_ofList, String.toList_ofList]
    exact suffix_of_split? hsplit

end Numeral

namespace Reader

variable {feed : Feed}

/-- A constant is read without taking a lexeme; a number is the one that its lexeme spells. -/
theorem literalOf_laysOn [Letters] (l : Lexeme) (negative : Bool) (feed : Feed) :
    LaysOn d source feed (literalOf l negative) fun v rest =>
      rest = feed ∧ ∀ n, v = .num n → Numeral.number? l.text negative = some n := by
  refine .looking fun v rest h => ?_
  obtain rfl := literalOf_rest h
  refine ⟨rfl, rfl, ?_⟩
  rintro n rfl
  rw [literalOf_feed] at h
  generalize hp : Feed.literalOf l negative = p at h
  unfold Feed.literalOf at hp
  split at hp <;> subst hp
  · obtain ⟨t, mid, -, hpure⟩ := bind_eq_ok_iff.1 h
    cases hpure
  · obtain ⟨t, mid, -, hpure⟩ := bind_eq_ok_iff.1 h
    cases hpure
  · cases hn : Numeral.number? l.text negative <;> rw [hn] at h <;> cases h
    rfl
  · cases h
  · cases h
  · exact (unexpected_ne_ok h).elim

end Reader

/-- A constant records its text if it is a number. -/
theorem Part.records_expr_lit {v : Literal} {s : Span} {cs : List Char}
    (h : ∀ n, v = .num n → n.WrittenAs cs) : Part.Records (.expr (.lit v s)) cs := by
  cases v with
  | num n => exact h n rfl
  | _ => trivial

theorem Part.records_pattern_lit {v : Literal} {s : Span} {cs : List Char}
    (h : ∀ n, v = .num n → n.WrittenAs cs) : Part.Records (.pattern (.lit v s)) cs := by
  cases v with
  | num n => exact h n rfl
  | _ => trivial

namespace Lexeme.Between

variable {feed mid rest : Feed} {v : Literal} {p : Part}

/-- A constant without a sign stands in place of its lexeme. -/
theorem literal_row [Letters] {l : Lexeme} (hl : l.Between d source feed rest)
    (hv : ∀ n, v = .num n → Numeral.number? l.text false = some n) (hspan : p.span = l.span)
    (hchildren : p.children = [])
    (hrecords : ∀ cs, (∀ n, v = .num n → n.WrittenAs cs) → p.Records cs) :
    Part.Row d source feed.last.stop [p] rest.last.stop := by
  refine hl.row hspan hchildren (hrecords _ fun n hn => ?_)
  exact Numeral.writtenAs_of_number? [] (hv n hn) rfl

/-- A minus sign and the lexeme after it make up one text: the sign, blanks and the lexeme. -/
theorem minus_text [Letters] {m l : Lexeme} (hm : m.Between d source feed mid) (ht : m.token = .minus)
    (hl : l.Between d source mid rest) :
    ∃ blanks, slice? ⟨m.span.start, l.span.stop⟩ source = some (('-' :: blanks) ++ l.text) ∧
      ∀ c ∈ blanks, isBlank c = true := by
  obtain ⟨blanks, hblanks, hall⟩ := hl.blanks
  have hspells := hm.sits.spells (by rw [ht]; rfl)
  rw [ht] at hspells
  have htext : m.text = ['-'] := (Option.some.inj hspells).symm
  have hm' := hm.sits.text
  rw [htext] at hm'
  have hfirst : slice? ⟨m.span.start, l.span.start⟩ source = some ('-' :: blanks) :=
    slice?_concat hm' hblanks (by rw [hm.last])
  exact ⟨blanks, slice?_concat (s := ⟨m.span.start, l.span.start⟩) hfirst hl.sits.text rfl, hall⟩

/-- A negative constant stands in place of a minus sign and a lexeme. -/
theorem negative_row [Letters] {m l : Lexeme} (hm : m.Between d source feed mid) (ht : m.token = .minus)
    (hl : l.Between d source mid rest)
    (hv : ∀ n, v = .num n → Numeral.number? l.text true = some n)
    (hspan : p.span = m.span.join l.span) (hchildren : p.children = [])
    (hrecords : ∀ cs, (∀ n, v = .num n → n.WrittenAs cs) → p.Records cs) :
    Part.Row d source feed.last.stop [p] rest.last.stop := by
  have hsign := hm.ends
  have hends := hl.ends
  obtain ⟨blanks, htext, hall⟩ := hm.minus_text ht hl
  have hnil : Part.Row d source m.span.start p.children l.span.stop := by
    rw [hchildren]
    exact .nil (by omega)
  refine (hnil.wrap hm.marks hl.marks (by omega) (by omega) hspan fun cs hcs => ?_).weaken
    (by omega) (by omega)
  rw [hspan, Span.join_eq (by omega) (by omega), htext] at hcs
  rw [← Option.some.inj hcs]
  exact hrecords _ fun n hn => Numeral.writtenAs_of_number? _ (hv n hn) ⟨blanks, rfl, hall⟩

end Lexeme.Between

/-! ## Paths -/

/-- A path goes from its leading double colon, or from its first name, to its last name. -/
theorem Part.path_row {start : Span} (global : Bool) {first : Ident} {more : List Ident} {b : Nat}
    (hstart : start.Marks d source)
    (h : Part.Row d source start.start ((first :: more).map .ident) b)
    (hstop : start.stop ≤ first.span.stop) :
    Part.Row d source start.start
      [.path ⟨global, first :: more, start.join ((first :: more).getLastD first).span⟩] b := by
  have hlast : ((first :: more).map Part.ident).getLast? =
      some (.ident ((first :: more).getLastD first)) := by
    rw [List.getLast?_map, List.getLastD_eq_getLast?, List.getLast?_cons]
    rfl
  obtain ⟨hrow, -⟩ := h.to_last hlast
  have hfirst := (hrow.inOrder.within (p := .ident first) List.mem_cons_self).2
  exact h.wrapFrom hstart hlast (Nat.le_trans hstop hfirst) rfl fun _ _ => trivial

end Stencil
