/-
  Step — everything that one step of reading can do, and where it leads.

  `Lexer.step` decides by the mode and by which delimiter stands at the place.  This file says once
  what comes of that: `Emits` lists the ways of yielding a lexeme and `Refuses` the ways of reporting
  a fault, each with the conditions under which it happens.  Every later fact about the lexer is a
  case analysis over these two, never over the text of `step`.  Where it is known whether a step is made
  inside a tag, the ways that remain are those of `EmitsInTag` and `RefusesInTag`, or of `EmitsOutside`
  and `RefusesOutside`.

  The first such facts are about places.  `a.Reaches used b` says that reading the characters `used`
  leads from the place `a` to the place `b`: nothing is skipped, nothing is read twice, and the
  offset counts the bytes of `used`.  A step yields exactly the characters it uses up
  (`Emits.reaches`), so the places of a run are strung together by the texts of its lexemes.
-/
import Stencil.Lexeme.Lexer

namespace Stencil

namespace Lexer

/-! ## What a step can do -/

/-- The ways in which a step yields the lexeme and goes on to the place. -/
inductive Emits [Letters] (d : Delims) (lx : Lexer) : Lexeme → Lexer → Prop
  | content {c : Char} {cs : List Char} (hm : lx.mode = .template) (hr : lx.rest = c :: cs)
      (ho : d.openingAt lx.rest = none) :
      Emits d lx (lx.lexeme .content (d.contentLength cs + 1) none)
        (lx.advance (d.contentLength cs + 1) .template)
  | opening {o : Opening} {kind : TagKind} (hm : lx.mode = .template) (hr : lx.rest ≠ [])
      (ho : d.openingAt lx.rest = some o) (hk : o.kind = .tag kind) :
      Emits d lx (lx.lexeme (Token.opens kind) o.size o.trim) (lx.advance o.size (.tag kind false))
  | comment {o : Opening} {n : Nat} (hm : lx.mode = .template) (hr : lx.rest ≠ [])
      (ho : d.openingAt lx.rest = some o) (hk : o.kind = .comment)
      (hc : d.commentMore (lx.rest.drop o.size) = some n) :
      Emits d lx (lx.lexeme .comment (o.size + n) none) (lx.advance (o.size + n) .template)
  | raw {n : Nat} (hm : lx.mode = .raw) (hn : d.rawLength lx.rest = some n) :
      Emits d lx (lx.lexeme .rawText n none) (lx.advance n .template)
  | closing {kind : TagKind} {afterDot : Bool} {close : Closing}
      (hm : lx.mode = .tag kind afterDot) (hr : lx.rest ≠ [])
      (hc : d.closingAt kind lx.rest = some close) :
      Emits d lx (lx.lexeme (Token.closes kind) close.size close.trim)
        (lx.advance close.size .template)
  | word {kind : TagKind} {afterDot : Bool} {c : Char} {cs : List Char} {token : Token} {more : Nat}
      (hm : lx.mode = .tag kind afterDot) (hr : lx.rest = c :: cs)
      (hc : d.closingAt kind lx.rest = none) (ho : d.openingAt lx.rest = none)
      (hs : Scan.read d kind afterDot c cs = .token token more) :
      Emits d lx (lx.lexeme token (more + 1) none)
        (lx.advance (more + 1) (.tag kind (token == .dot || (afterDot && token == .blank))))

/-- The ways in which a step reports the fault and goes on to the place. -/
inductive Refuses [Letters] (d : Delims) (lx : Lexer) : Diagnostic → Lexer → Prop
  | comment {o : Opening} (hm : lx.mode = .template) (hr : lx.rest ≠ [])
      (ho : d.openingAt lx.rest = some o) (hk : o.kind = .comment)
      (hc : d.commentMore (lx.rest.drop o.size) = none) :
      Refuses d lx ⟨.unclosedComment, lx.spanOf o.size⟩ (lx.advance lx.rest.length .template)
  | raw (hm : lx.mode = .raw) (hn : d.rawLength lx.rest = none) :
      Refuses d lx ⟨.unclosedRaw, lx.spanOf lx.rest.length⟩ (lx.advance lx.rest.length .template)
  | opening {kind : TagKind} {afterDot : Bool} {o : Opening} (hm : lx.mode = .tag kind afterDot)
      (hr : lx.rest ≠ []) (hc : d.closingAt kind lx.rest = none)
      (ho : d.openingAt lx.rest = some o) :
      Refuses d lx ⟨.unexpected [.token (Token.closes kind)] (some (foundOpening o.kind)),
        lx.spanOf o.size⟩ (lx.advance 0 .template)
  | word {kind : TagKind} {afterDot : Bool} {c : Char} {cs : List Char} {fault : LexFault}
      {range : Span} {more : Nat} (hm : lx.mode = .tag kind afterDot) (hr : lx.rest = c :: cs)
      (hc : d.closingAt kind lx.rest = none) (ho : d.openingAt lx.rest = none)
      (hs : Scan.read d kind afterDot c cs = .fault fault range more) :
      Refuses d lx ⟨.lex fault, range.shift lx.pos⟩ (lx.advance (more + 1) lx.mode)

variable {d : Delims} {lx next : Lexer} {l : Lexeme} {diagnostic : Diagnostic}

/-- A step that yields a lexeme does so in one of the ways of `Emits`. -/
theorem emits_of_step [Letters] (h : lx.step d = .token l next) : lx.Emits d l next := by
  unfold step at h
  split at h
  · next hm =>
    unfold rawStep at h
    split at h
    · next n hn => cases h; exact .raw hm hn
    · cases h
  · cases h
  · next c cs hm hr =>
    have hne : lx.rest ≠ [] := by rw [hr]; exact List.cons_ne_nil _ _
    unfold templateStep at h
    split at h
    · next ho => cases h; exact .content hm hr ho
    · next o ho =>
      split at h
      · next kind hk => cases h; exact .opening hm hne ho hk
      · next hk =>
        split at h
        · next n hc => cases h; exact .comment hm hne ho hk hc
        · cases h
  · next kind afterDot c cs hm hr =>
    have hne : lx.rest ≠ [] := by rw [hr]; exact List.cons_ne_nil _ _
    unfold tagStep at h
    split at h
    · next close hc => cases h; exact .closing hm hne hc
    · next hc =>
      split at h
      · cases h
      · next ho =>
        split at h
        · next token more hs => cases h; exact .word hm hr hc ho hs
        · cases h

/-- A step that reports a fault does so in one of the ways of `Refuses`. -/
theorem refuses_of_step [Letters] (h : lx.step d = .fault diagnostic next) :
    lx.Refuses d diagnostic next := by
  unfold step at h
  split at h
  · next hm =>
    unfold rawStep at h
    split at h
    · cases h
    · next hn => cases h; exact .raw hm hn
  · cases h
  · next c cs hm hr =>
    have hne : lx.rest ≠ [] := by rw [hr]; exact List.cons_ne_nil _ _
    unfold templateStep at h
    split at h
    · cases h
    · next o ho =>
      split at h
      · cases h
      · next hk =>
        split at h
        · cases h
        · next hc => cases h; exact .comment hm hne ho hk hc
  · next kind afterDot c cs hm hr =>
    have hne : lx.rest ≠ [] := by rw [hr]; exact List.cons_ne_nil _ _
    unfold tagStep at h
    split at h
    · cases h
    · next hc =>
      split at h
      · next o ho => cases h; exact .opening hm hne hc ho
      · next ho =>
        split at h
        · cases h
        · next fault range more hs => cases h; exact .word hm hr hc ho hs

/-! ## Inside a tag -/

section

variable {kind : TagKind} {afterDot : Bool}

/-- The ways in which a step inside a tag yields the lexeme and goes on to the place. -/
inductive EmitsInTag [Letters] (d : Delims) (kind : TagKind) (afterDot : Bool) (lx : Lexer) :
    Lexeme → Lexer → Prop
  | closing {close : Closing} (hr : lx.rest ≠ []) (hc : d.closingAt kind lx.rest = some close) :
      EmitsInTag d kind afterDot lx (lx.lexeme (Token.closes kind) close.size close.trim)
        (lx.advance close.size .template)
  | word {c : Char} {cs : List Char} {token : Token} {more : Nat} (hr : lx.rest = c :: cs)
      (hc : d.closingAt kind lx.rest = none) (ho : d.openingAt lx.rest = none)
      (hs : Scan.read d kind afterDot c cs = .token token more) :
      EmitsInTag d kind afterDot lx (lx.lexeme token (more + 1) none)
        (lx.advance (more + 1) (.tag kind (token == .dot || (afterDot && token == .blank))))

/-- The ways in which a step inside a tag reports the fault and goes on to the place. -/
inductive RefusesInTag [Letters] (d : Delims) (kind : TagKind) (afterDot : Bool) (lx : Lexer) :
    Diagnostic → Lexer → Prop
  | opening {o : Opening} (hr : lx.rest ≠ []) (hc : d.closingAt kind lx.rest = none)
      (ho : d.openingAt lx.rest = some o) :
      RefusesInTag d kind afterDot lx ⟨.unexpected [.token (Token.closes kind)]
        (some (foundOpening o.kind)), lx.spanOf o.size⟩ (lx.advance 0 .template)
  | word {c : Char} {cs : List Char} {fault : LexFault} {range : Span} {more : Nat}
      (hr : lx.rest = c :: cs) (hc : d.closingAt kind lx.rest = none)
      (ho : d.openingAt lx.rest = none) (hs : Scan.read d kind afterDot c cs = .fault fault range more) :
      RefusesInTag d kind afterDot lx ⟨.lex fault, range.shift lx.pos⟩
        (lx.advance (more + 1) (.tag kind afterDot))

theorem Emits.inTag [Letters] (h : lx.Emits d l next) (hm : lx.mode = .tag kind afterDot) :
    lx.EmitsInTag d kind afterDot l next := by
  cases h with
  | closing hm' hr hc =>
    rw [hm] at hm'
    cases hm'
    exact .closing hr hc
  | word hm' hr hc ho hs =>
    rw [hm] at hm'
    cases hm'
    exact .word hr hc ho hs
  | content hm' | opening hm' | comment hm' | raw hm' => rw [hm] at hm'; cases hm'

theorem Refuses.inTag [Letters] (h : lx.Refuses d diagnostic next) (hm : lx.mode = .tag kind afterDot) :
    lx.RefusesInTag d kind afterDot diagnostic next := by
  cases h with
  | opening hm' hr hc ho =>
    rw [hm] at hm'
    cases hm'
    exact .opening hr hc ho
  | word hm' hr hc ho hs =>
    rw [hm] at hm'
    cases hm'
    rw [hm]
    exact .word hr hc ho hs
  | comment hm' | raw hm' => rw [hm] at hm'; cases hm'

end

/-! ## Outside tags -/

/-- The ways in which a step outside tags yields the lexeme and goes on to the place, if it does not open a
    tag. -/
inductive EmitsOutside (d : Delims) (lx : Lexer) : Lexeme → Lexer → Prop
  | content {c : Char} {cs : List Char} (hm : lx.mode = .template) (hr : lx.rest = c :: cs)
      (ho : d.openingAt lx.rest = none) :
      EmitsOutside d lx (lx.lexeme .content (d.contentLength cs + 1) none)
        (lx.advance (d.contentLength cs + 1) .template)
  | comment {o : Opening} {n : Nat} (hm : lx.mode = .template) (hr : lx.rest ≠ [])
      (ho : d.openingAt lx.rest = some o) (hk : o.kind = .comment)
      (hc : d.commentMore (lx.rest.drop o.size) = some n) :
      EmitsOutside d lx (lx.lexeme .comment (o.size + n) none) (lx.advance (o.size + n) .template)
  | raw {n : Nat} (hm : lx.mode = .raw) (hn : d.rawLength lx.rest = some n) :
      EmitsOutside d lx (lx.lexeme .rawText n none) (lx.advance n .template)

/-- The ways in which a step outside tags reports the fault and goes on to the place. -/
inductive RefusesOutside (d : Delims) (lx : Lexer) : Diagnostic → Lexer → Prop
  | comment {o : Opening} (hm : lx.mode = .template) (hr : lx.rest ≠ [])
      (ho : d.openingAt lx.rest = some o) (hk : o.kind = .comment)
      (hc : d.commentMore (lx.rest.drop o.size) = none) :
      RefusesOutside d lx ⟨.unclosedComment, lx.spanOf o.size⟩ (lx.advance lx.rest.length .template)
  | raw (hm : lx.mode = .raw) (hn : d.rawLength lx.rest = none) :
      RefusesOutside d lx ⟨.unclosedRaw, lx.spanOf lx.rest.length⟩
        (lx.advance lx.rest.length .template)

theorem inTag_of_mode {kind : TagKind} {afterDot : Bool} (h : lx.mode = .tag kind afterDot) :
    lx.inTag = true := by
  unfold inTag
  rw [h]

theorem Emits.outside [Letters] (h : lx.Emits d l next) (hout : lx.inTag = false) (hl : l.token.opens? = none) :
    lx.EmitsOutside d l next := by
  cases h with
  | content hm hr ho => exact .content hm hr ho
  | comment hm hr ho hk hc => exact .comment hm hr ho hk hc
  | raw hm hn => exact .raw hm hn
  | opening hm hr ho hk =>
    rw [lexeme, Token.opens?_opens] at hl
    cases hl
  | closing hm | word hm => rw [inTag_of_mode hm] at hout; cases hout

theorem Refuses.outside [Letters] (h : lx.Refuses d diagnostic next) (hout : lx.inTag = false) :
    lx.RefusesOutside d diagnostic next := by
  cases h with
  | comment hm hr ho hk hc => exact .comment hm hr ho hk hc
  | raw hm hn => exact .raw hm hn
  | opening hm | word hm => rw [inTag_of_mode hm] at hout; cases hout

/-- A lexeme that opens a tag is the opening delimiter at the place. -/
theorem Emits.opening_of_opens [Letters] {kind : TagKind} (h : lx.Emits d l next)
    (hl : l.token.opens? = some kind) (hout : lx.inTag = false) :
    lx.mode = .template ∧ ∃ o, d.openingAt lx.rest = some o ∧ o.kind = .tag kind ∧
      l = lx.lexeme (Token.opens kind) o.size o.trim ∧ next = lx.advance o.size (.tag kind false) := by
  cases h with
  | @opening o kind' hm hr ho hk =>
    rw [lexeme, Token.opens?_opens] at hl
    cases hl
    exact ⟨hm, o, ho, hk, rfl, rfl⟩
  | content hm | comment hm | raw hm => cases hl
  | closing hm | word hm => rw [inTag_of_mode hm] at hout; cases hout

/-! ## From ways to steps -/

/-- Each of the ways of `Emits` is a step. -/
theorem step_of_emits [Letters] (h : lx.Emits d l next) : lx.step d = .token l next := by
  have exists_cons : lx.rest ≠ [] → ∃ c cs, lx.rest = c :: cs := List.exists_cons_of_ne_nil
  unfold step
  cases h with
  | content hm hr ho =>
    rw [hm, hr]
    dsimp only
    unfold templateStep
    rw [ho]
  | opening hm hne ho hk =>
    obtain ⟨c, cs, hr⟩ := exists_cons hne
    rw [hm, hr]
    dsimp only
    unfold templateStep
    simp only [ho, hk]
  | comment hm hne ho hk hc =>
    obtain ⟨c, cs, hr⟩ := exists_cons hne
    rw [hm, hr]
    dsimp only
    unfold templateStep
    simp only [ho, hk, hc]
  | raw hm hn =>
    rw [hm]
    dsimp only
    unfold rawStep
    rw [hn]
  | closing hm hne hc =>
    obtain ⟨c, cs, hr⟩ := exists_cons hne
    rw [hm, hr]
    dsimp only
    unfold tagStep
    rw [hc]
  | word hm hr hc ho hs =>
    rw [hm, hr]
    dsimp only
    unfold tagStep
    simp only [hc, ho, hs]

/-- Each of the ways of `Refuses` is a step. -/
theorem step_of_refuses [Letters] (h : lx.Refuses d diagnostic next) :
    lx.step d = .fault diagnostic next := by
  have exists_cons : lx.rest ≠ [] → ∃ c cs, lx.rest = c :: cs := List.exists_cons_of_ne_nil
  unfold step
  cases h with
  | comment hm hne ho hk hc =>
    obtain ⟨c, cs, hr⟩ := exists_cons hne
    rw [hm, hr]
    dsimp only
    unfold templateStep
    simp only [ho, hk, hc]
    rw [← hr]
  | raw hm hn =>
    rw [hm]
    dsimp only
    unfold rawStep
    rw [hn]
  | opening hm hne hc ho =>
    obtain ⟨c, cs, hr⟩ := exists_cons hne
    rw [hm, hr]
    dsimp only
    unfold tagStep
    simp only [hc, ho]
  | word hm hr hc ho hs =>
    rw [hm, hr]
    dsimp only
    unfold tagStep
    simp only [hc, ho, hs]
    rw [← hm]

/-- The source is used up only where no text is left, outside the body of a raw block. -/
theorem rest_eq_nil_of_step [Letters] (h : lx.step d = .done) : lx.rest = [] ∧ lx.mode ≠ .raw := by
  unfold step at h
  split at h
  · unfold rawStep at h
    split at h <;> cases h
  · next hr hraw => exact ⟨hr, hraw⟩
  · unfold templateStep at h
    split at h
    · cases h
    · split at h
      · cases h
      · split at h <;> cases h
  · unfold tagStep at h
    split at h
    · cases h
    · split at h
      · cases h
      · split at h <;> cases h

/-! ## Places -/

/-- Reading the characters `used` leads from the place `a` to the place `b`. -/
structure Reaches (a : Lexer) (used : List Char) (b : Lexer) : Prop where
  text : a.rest = used ++ b.rest
  pos : b.pos = a.pos + byteLen used

theorem Reaches.refl (a : Lexer) : a.Reaches [] a := ⟨rfl, rfl⟩

theorem Reaches.trans {a b c : Lexer} {u v : List Char} (hab : a.Reaches u b)
    (hbc : b.Reaches v c) : a.Reaches (u ++ v) c where
  text := by rw [hab.text, hbc.text, List.append_assoc]
  pos := by rw [hbc.pos, hab.pos, byteLen_append, Nat.add_assoc]

theorem Reaches.pos_le {a b : Lexer} {u : List Char} (h : a.Reaches u b) : a.pos ≤ b.pos := by
  have := h.pos
  omega

/-- Only the place counts, not what is read there. -/
theorem Reaches.with_mode {a b : Lexer} {u : List Char} (h : a.Reaches u b) (mode : Mode) :
    a.Reaches u { b with mode := mode } := ⟨h.text, h.pos⟩

theorem reaches_advance (lx : Lexer) (n : Nat) (mode : Mode) :
    lx.Reaches (lx.rest.take n) (lx.advance n mode) :=
  ⟨(List.take_append_drop n lx.rest).symm, rfl⟩

/-- A lexeme holds the characters that its step uses up, and its span is the way of that step. -/
theorem Emits.reaches [Letters] (h : lx.Emits d l next) :
    lx.Reaches l.text next ∧ l.span = ⟨lx.pos, next.pos⟩ := by
  cases h <;> exact ⟨reaches_advance lx _ _, rfl⟩

/-- A lexeme is empty only if it is the body of a raw block. -/
theorem Emits.text_ne_nil [Letters] (h : lx.Emits d l next) (hm : lx.mode ≠ .raw) : l.text ≠ [] := by
  have take_ne_nil : ∀ n, 0 < n → lx.rest ≠ [] → lx.rest.take n ≠ [] := by
    intro n hn hr htake
    rw [List.take_eq_nil_iff] at htake
    rcases htake with h0 | hnil
    · omega
    · exact hr hnil
  cases h with
  | content hm hr ho => exact take_ne_nil _ (Nat.succ_pos _) (by rw [hr]; exact List.cons_ne_nil _ _)
  | opening hm hr ho hk => exact take_ne_nil _ (Opening.size_pos _) hr
  | @comment o n hm hr ho hk hc =>
    have := o.size_pos
    exact take_ne_nil _ (by omega) hr
  | raw hraw hn => exact absurd hraw hm
  | closing hm hr hc => exact take_ne_nil _ (Closing.size_pos _) hr
  | word hm hr hc ho hs => exact take_ne_nil _ (Nat.succ_pos _) (by rw [hr]; exact List.cons_ne_nil _ _)

/-- A fault uses up characters from the front, too. -/
theorem Refuses.reaches [Letters] (h : lx.Refuses d diagnostic next) : ∃ used, lx.Reaches used next := by
  cases h <;> exact ⟨_, reaches_advance lx _ _⟩

end Lexer

end Stencil
