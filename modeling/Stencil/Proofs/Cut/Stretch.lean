/-
  Stretch — a stretch of a tag is scanned the same elsewhere.

  A walk follows the lexer through a stretch of a tag, up to the place where a lexeme ends
  (`Lexer.Walks`).  Every stretch of the lexemes of a tag is walked through (`Lexer.exists_walk`).  The
  text of a walk, put between blanks in a tag of its own at the same offset, is scanned as the same
  lexemes (`Lexer.Walks.inside`).

  Two things are asked of the stretch.  No dot comes before it, because after a dot numbers are read
  differently.  And if it is put into a tag of another kind, it has no closing brace, because two of them
  could close that tag.
-/
import Stencil.Proofs.Cut.Reader
import Stencil.Proofs.Lexer.Within

namespace Stencil

namespace Lexer

variable [Letters] {d : Delims} {lx next : Lexer} {l : Lexeme} {kind : TagKind} {afterDot : Bool}

/-! ## Walks -/

/-- Inside a tag the characters between the two places are read as the lexemes, blanks left out; the
    second place is where the last lexeme ends. -/
inductive Walks (d : Delims) : Lexer → List Char → List Lexeme → Lexer → Prop
  | last {lx next : Lexer} {l : Lexeme} (h : lx.step d = .token l next)
      (hclose : l.token.isClosing = false) (hblank : l.token ≠ .blank) : Walks d lx l.text [l] next
  | blank {lx mid next : Lexer} {l : Lexeme} {cs : List Char} {ls : List Lexeme}
      (h : lx.step d = .token l mid) (hblank : l.token = .blank) (hmore : Walks d mid cs ls next) :
      Walks d lx (l.text ++ cs) ls next
  | more {lx mid next : Lexer} {l : Lexeme} {cs : List Char} {ls : List Lexeme}
      (h : lx.step d = .token l mid) (hclose : l.token.isClosing = false) (hblank : l.token ≠ .blank)
      (hmore : Walks d mid cs ls next) : Walks d lx (l.text ++ cs) (l :: ls) next

/-- A step inside a tag that does not close it: where no delimiter stands, the characters `c :: cs` are
    read as the lexeme. -/
structure Words (d : Delims) (lx : Lexer) (kind : TagKind) (afterDot : Bool) (l : Lexeme) (c : Char)
    (cs : List Char) (next : Lexer) : Prop where
  rest : lx.rest = c :: (cs ++ next.rest)
  closing : d.closingAt kind (c :: (cs ++ next.rest)) = none
  opening : d.openingAt (c :: (cs ++ next.rest)) = none
  read : Scan.read d kind afterDot c (cs ++ next.rest) = .token l.token cs.length
  lexeme : l = ⟨l.token, ⟨lx.pos, next.pos⟩, c :: cs, none⟩
  pos : next.pos = lx.pos + byteLen (c :: cs)
  mode : next.mode = .tag kind (l.token == .dot || (afterDot && l.token == .blank))

theorem words_of_step (hm : lx.mode = .tag kind afterDot) (h : lx.step d = .token l next)
    (hclose : l.token.isClosing = false) : ∃ c cs, lx.Words d kind afterDot l c cs next := by
  cases (emits_of_step h).inTag hm with
  | closing hr hc =>
    have hclosing : (Token.closes kind).isClosing = false := hclose
    rw [Token.isClosing_closes] at hclosing
    cases hclosing
  | @word c rest token more hr hc ho hs =>
    have hle := Scan.read_le hs
    have hdrop : (lx.advance (more + 1) (.tag kind (token == .dot || (afterDot && token == .blank)))).rest
        = rest.drop more := by
      show lx.rest.drop (more + 1) = _
      rw [hr, List.drop_succ_cons]
    have htake : lx.rest.take (more + 1) = c :: rest.take more := by rw [hr, List.take_succ_cons]
    refine ⟨c, rest.take more, ?_⟩
    constructor
    · rw [hdrop, List.take_append_drop, hr]
    · rw [hdrop, List.take_append_drop, ← hr]
      exact hc
    · rw [hdrop, List.take_append_drop, ← hr]
      exact ho
    · rw [hdrop, List.take_append_drop, List.length_take_of_le hle]
      exact hs
    · rw [← htake]
      rfl
    · rw [← htake]
      rfl
    · rfl

namespace Words

variable {c w : Char} {cs b y : List Char} {kind' : TagKind}

theorem text (h : lx.Words d kind afterDot l c cs next) : l.text = c :: cs := by rw [h.lexeme]

/-- No closing brace is read. -/
theorem ne_brace (h : lx.Words d kind afterDot l c cs next) (hl : l.token ≠ .rbrace) : c ≠ '\x7d' := by
  rintro rfl
  exact hl (Scan.token.inj h.read).1.symm

/-- A modifier is a lexeme of its own. -/
theorem eq_nil_of_trim (h : lx.Words d kind afterDot l c cs next) (htrim : Trim.ofChar? c ≠ none) :
    cs = [] := by
  have hread := h.read
  unfold Trim.ofChar? at htrim
  split at htrim
  · exact List.length_eq_zero_iff.1 (Scan.token.inj hread).2.symm
  · exact List.length_eq_zero_iff.1 (Scan.token.inj hread).2.symm
  · exact List.length_eq_zero_iff.1 (Scan.token.inj hread).2.symm
  · exact absurd rfl htrim

/-- The text does not close a tag elsewhere. -/
theorem closing_elsewhere (hw : isBlank w = true) (h : lx.Words .standard kind afterDot l c cs next)
    (hrest : next.rest = b ++ y)
    (hkind : kind' = kind ∨ kind' = .expr ∧ l.token ≠ .rbrace ∧ b.head? ≠ some '\x7d')
    (z : List Char) : Delims.standard.closingAt kind' (c :: (cs ++ (b ++ w :: z))) = none := by
  rcases hkind with rfl | ⟨rfl, hl, hb⟩
  · have hclosing := h.closing
    rw [hrest, ← List.append_assoc] at hclosing
    rw [← List.append_assoc]
    exact Delims.closingAt_blank hw hclosing z
  · apply Delims.closingAt_standard
    · show (('\x7d' == c) && _) = false
      rw [beq_false_of_ne (h.ne_brace hl).symm, Bool.false_and]
    · intro htrim
      rw [h.eq_nil_of_trim htrim, List.nil_append]
      cases b with
      | nil =>
        have hbrace : '\x7d' ≠ w := (ne_of_isBlank hw (by decide)).symm
        show (('\x7d' == w) && _) = false
        rw [beq_false_of_ne hbrace, Bool.false_and]
      | cons x b =>
        have hx : '\x7d' ≠ x := by
          rintro rfl
          exact hb rfl
        show (('\x7d' == x) && _) = false
        rw [beq_false_of_ne hx, Bool.false_and]

/-- The text is read as the same lexeme elsewhere. -/
theorem elsewhere (hw : isBlank w = true) (h : lx.Words .standard kind afterDot l c cs next)
    (hrest : next.rest = b ++ y)
    (hblank : l.token = .blank → b ≠ []) (hmark : b = ['!'] → y.head? ≠ some '=')
    (hkind : kind' = kind ∨ kind' = .expr ∧ l.token ≠ .rbrace ∧ b.head? ≠ some '\x7d')
    (z : List Char) :
    step .standard ⟨lx.pos, l.text ++ (b ++ w :: z), .tag kind' afterDot⟩ =
      .token l ⟨next.pos, b ++ w :: z,
        .tag kind' (l.token == .dot || (afterDot && l.token == .blank))⟩ := by
  have hread := h.read
  have hopening := h.opening
  rw [hrest, ← List.append_assoc] at hread hopening
  have hread' : Scan.read .standard kind' afterDot c (cs ++ b ++ w :: z) =
      .token l.token cs.length := by
    apply Scan.read_blank hw hread
    · rw [List.length_append]
      omega
    · intro htoken
      have hpos := List.length_pos_iff.2 (hblank htoken)
      rw [List.length_append]
      omega
    · rw [List.drop_left]
      exact hmark
  have hopening' := Delims.openingAt_blank hw (a := c :: (cs ++ b)) hopening z
  rw [List.append_assoc] at hread'
  rw [List.cons_append, List.append_assoc] at hopening'
  rw [h.text, List.cons_append,
    step_of_read rfl rfl ⟨h.closing_elsewhere hw hrest hkind z, hopening'⟩ hread']
  have htake : (c :: (cs ++ (b ++ w :: z))).take (cs.length + 1) = c :: cs := by
    rw [List.take_succ_cons, List.take_left]
  have hdrop : (c :: (cs ++ (b ++ w :: z))).drop (cs.length + 1) = b ++ w :: z := by
    rw [List.drop_succ_cons, List.drop_left]
  unfold Lexer.lexeme Lexer.advance Lexer.spanOf
  dsimp only
  rw [htake, hdrop, ← h.pos, ← h.lexeme]

end Words

namespace Walks

variable {cs : List Char} {ls : List Lexeme}

theorem reaches (h : lx.Walks d cs ls next) : lx.Reaches cs next := by
  induction h with
  | last h => exact (emits_of_step h).reaches.1
  | blank h hblank hmore ih => exact (emits_of_step h).reaches.1.trans ih
  | more h hclose hblank hmore ih => exact (emits_of_step h).reaches.1.trans ih

theorem ls_ne_nil (h : lx.Walks d cs ls next) : ls ≠ [] := by
  induction h with
  | last h => exact List.cons_ne_nil _ _
  | blank h hblank hmore ih => exact ih
  | more h hclose hblank hmore ih => exact List.cons_ne_nil _ _

/-- The first step of a walk. -/
theorem first (h : lx.Walks d cs ls next) (hm : lx.mode = .tag kind afterDot) :
    ∃ l c more mid, lx.Words d kind afterDot l c more mid ∧ (c :: more) <+: cs ∧
      (l ∈ ls ∨ l.token = .blank) := by
  cases h with
  | last h hclose hblank =>
    obtain ⟨c, more, hwords⟩ := words_of_step hm h hclose
    exact ⟨_, c, more, _, hwords, hwords.text ▸ List.prefix_refl _,
      .inl List.mem_cons_self⟩
  | blank h hblank hmore =>
    obtain ⟨c, more, hwords⟩ := words_of_step hm h (by rw [hblank]; rfl)
    exact ⟨_, c, more, _, hwords, by rw [hwords.text]; exact List.prefix_append _ _, .inr hblank⟩
  | more h hclose hblank hmore =>
    obtain ⟨c, more, hwords⟩ := words_of_step hm h hclose
    exact ⟨_, c, more, _, hwords, by rw [hwords.text]; exact List.prefix_append _ _,
      .inl List.mem_cons_self⟩

theorem ne_nil (h : lx.Walks d cs ls next) (hm : lx.mode = .tag kind afterDot) : cs ≠ [] := by
  obtain ⟨l, c, more, mid, -, hprefix, -⟩ := h.first hm
  rintro rfl
  cases List.prefix_nil.1 hprefix

theorem head_ne_brace (h : lx.Walks d cs ls next) (hm : lx.mode = .tag kind afterDot)
    (hls : ∀ l ∈ ls, l.token ≠ .rbrace) : cs.head? ≠ some '\x7d' := by
  obtain ⟨l, c, more, mid, hwords, ⟨tail, rfl⟩, hl⟩ := h.first hm
  intro hhead
  have hc : c = '\x7d' := Option.some.inj hhead
  apply hwords.ne_brace _ hc
  rcases hl with hmem | hblank
  · exact hls l hmem
  · rw [hblank]
    decide

/-- An exclamation mark that is read alone does not stand before an equals sign. -/
theorem mark (h : lx.Walks d cs ls next) (hm : lx.mode = .tag kind afterDot) (hcs : cs = ['!']) :
    next.rest.head? ≠ some '=' := by
  subst hcs
  obtain ⟨l, c, more, mid, hwords, ⟨tail, htail⟩, -⟩ := h.first hm
  obtain ⟨rfl, hnil⟩ := List.cons.inj htail
  obtain ⟨rfl, rfl⟩ := List.append_eq_nil_iff.1 hnil
  have hsame : mid.rest = next.rest := by
    have htext := h.reaches.text
    rw [hwords.rest] at htext
    exact (List.cons.inj htext).2
  rw [← hsame]
  intro hhead
  have hread := hwords.read
  cases hrest : mid.rest with
  | nil => rw [hrest] at hhead; cases hhead
  | cons x rest =>
    rw [hrest] at hhead hread
    cases hhead
    -- The two would have been read together.
    cases (Scan.token.inj hread).2

/-- A stretch of a tag is read as the same lexemes elsewhere, before a blank. -/
theorem elsewhere {w : Char} (hw : isBlank w = true) (h : lx.Walks .standard cs ls next)
    (hm : lx.mode = .tag kind afterDot)
    {kind' : TagKind} (hkind : kind' = kind ∨ kind' = .expr ∧ ∀ l ∈ ls, l.token ≠ .rbrace)
    (z : List Char) :
    ∃ dot, next.mode = .tag kind dot ∧
      Walks .standard ⟨lx.pos, cs ++ w :: z, .tag kind' afterDot⟩ cs ls
        ⟨next.pos, w :: z, .tag kind' dot⟩ := by
  -- Along the walk: a step is told by its own characters and the first of the next step, and these stay.
  induction h generalizing afterDot with
  | @last lx next l h hclose hblank =>
    obtain ⟨c, more, hwords⟩ := words_of_step hm h hclose
    have hstep := hwords.elsewhere hw (b := []) rfl (fun hb => absurd hb hblank) nofun
      (hkind.imp_right fun hls => ⟨hls.1, hls.2 l List.mem_cons_self, nofun⟩) z
    exact ⟨_, hwords.mode, .last hstep hclose hblank⟩
  | @blank lx mid next l cs ls h hblank hmore ih =>
    obtain ⟨c, more, hwords⟩ := words_of_step hm h (by rw [hblank]; rfl)
    have hmid := hwords.mode
    have hstep := hwords.elsewhere hw hmore.reaches.text (fun _ => hmore.ne_nil hmid)
      (hmore.mark hmid)
      (hkind.imp_right fun hls => ⟨hls.1, by rw [hblank]; decide, hmore.head_ne_brace hmid hls.2⟩) z
    obtain ⟨dot, hdot, hwalks⟩ := ih hmid hkind
    rw [List.append_assoc]
    exact ⟨dot, hdot, .blank hstep hblank hwalks⟩
  | @more lx mid next l cs ls h hclose hblank hmore ih =>
    obtain ⟨c, more, hwords⟩ := words_of_step hm h hclose
    have hmid := hwords.mode
    have hkind' : kind' = kind ∨ kind' = .expr ∧ ∀ l ∈ ls, l.token ≠ .rbrace :=
      hkind.imp_right fun hls => ⟨hls.1, fun m hmem => hls.2 m (List.mem_cons_of_mem l hmem)⟩
    have hbrace : kind' = kind ∨ kind' = .expr ∧ l.token ≠ .rbrace ∧ cs.head? ≠ some '\x7d' := by
      rcases hkind with hsame | ⟨hexpr, hls⟩
      · exact .inl hsame
      · refine .inr ⟨hexpr, hls l List.mem_cons_self, hmore.head_ne_brace hmid ?_⟩
        exact fun m hmem => hls m (List.mem_cons_of_mem l hmem)
    have hstep :=
      hwords.elsewhere hw hmore.reaches.text (fun _ => hmore.ne_nil hmid) (hmore.mark hmid) hbrace z
    obtain ⟨dot, hdot, hwalks⟩ := ih hmid hkind'
    rw [List.append_assoc]
    exact ⟨dot, hdot, .more hstep hclose hblank hwalks⟩

/-! ## Walks and feeds -/

theorem feed_eq (h : lx.Walks d cs ls next) :
    lx.feed d = (ls ++ (next.feed d).1, (next.feed d).2) := by
  induction h with
  | last h hclose hblank =>
    rw [feed_of_token h, hclose, if_neg (by decide), if_neg hblank]
    rfl
  | blank h hblank hmore ih =>
    rw [feed_of_token h, if_neg (by rw [hblank]; decide), if_pos hblank, ih]
  | more h hclose hblank hmore ih =>
    rw [feed_of_token h, hclose, if_neg (by decide), if_neg hblank, ih]
    rfl

end Walks

/-- A walk ends where its last lexeme ends. -/
theorem Walks.stop_eq {cs : List Char} {ls : List Lexeme} (h : lx.Walks d cs ls next) {last : Lexeme}
    (hlast : ls.getLast? = some last) : last.span.stop = next.pos := by
  induction h with
  | last h hclose hblank =>
    rw [← Option.some.inj hlast]
    exact congrArg Span.stop (emits_of_step h).reaches.2
  | blank h hblank hmore ih => exact ih hlast
  | more h hclose hblank hmore ih =>
    apply ih
    rw [List.getLast?_cons, List.getLast?_eq_some_getLast hmore.ls_ne_nil] at hlast
    rw [List.getLast?_eq_some_getLast hmore.ls_ne_nil]
    exact hlast

/-- The lexemes at the front of a feed are those of a walk. -/
theorem walks_of_feed {part more : List Lexeme} (hm : lx.mode = .tag kind afterDot)
    (h : (lx.feed d).1 = part ++ more) (hne : part ≠ []) (hopen : ∀ l ∈ part, l.token.isClosing = false) :
    ∃ cs next, lx.Walks d cs part next := by
  -- A blank step is part of the walk but not of `part`; the walk ends with the last lexeme of `part`.
  fun_induction feed d lx generalizing part afterDot with
  | case1 lx hstep => exact absurd (List.append_eq_nil_iff.1 h.symm).1 hne
  | case2 lx diagnostic next hstep => exact absurd (List.append_eq_nil_iff.1 h.symm).1 hne
  | case3 lx l next hstep hclose =>
    cases part with
    | nil => exact absurd rfl hne
    | cons l' part =>
      obtain rfl : l = l' := (List.cons.inj h).1
      rw [hopen l List.mem_cons_self] at hclose
      cases hclose
  | case4 lx l next hstep hclose ls stop after heq ih =>
    rw [heq] at ih
    have hclose' : l.token.isClosing = false := Bool.eq_false_iff.2 hclose
    obtain ⟨c, cs, hwords⟩ := words_of_step hm hstep hclose'
    by_cases hblank : l.token = .blank
    · rw [if_pos hblank] at h
      obtain ⟨cs', last, hwalks⟩ := ih hwords.mode h hne hopen
      exact ⟨_, last, .blank hstep hblank hwalks⟩
    rw [if_neg hblank] at h
    cases part with
    | nil => exact absurd rfl hne
    | cons l' part =>
      obtain ⟨rfl, hrest⟩ := List.cons.inj h
      by_cases hpart : part = []
      · subst hpart
        exact ⟨_, next, .last hstep hclose' hblank⟩
      · obtain ⟨cs', last, hwalks⟩ :=
          ih hwords.mode hrest hpart fun m hm => hopen m (List.mem_cons_of_mem l hm)
        exact ⟨_, last, .more hstep hclose' hblank hwalks⟩

/-- Where a lexeme of a feed begins, a dot was read last only if the lexeme before is one. -/
theorem exists_place_of_feed {before more : List Lexeme} (hm : lx.mode = .tag kind afterDot)
    (h : (lx.feed d).1 = before ++ l :: more) (hopen : ∀ l ∈ before, l.token.isClosing = false)
    (hbefore : Settled before) (hdot : afterDot = true → before ≠ []) :
    ∃ used place next, lx.Reaches used place ∧ place.mode = .tag kind false ∧
      place.step d = .token l next ∧ (place.feed d).1 = l :: more := by
  fun_induction feed d lx generalizing before afterDot with
  | case1 lx hstep => exact absurd (List.append_eq_nil_iff.1 h.symm).2 (List.cons_ne_nil _ _)
  | case2 lx diagnostic next hstep =>
    exact absurd (List.append_eq_nil_iff.1 h.symm).2 (List.cons_ne_nil _ _)
  | case3 lx l' next hstep hclose =>
    cases before with
    | nil =>
      obtain ⟨rfl, rfl⟩ := List.cons.inj h
      have hfalse : afterDot = false := Bool.eq_false_iff.2 fun htrue => hdot htrue rfl
      subst hfalse
      exact ⟨[], lx, next, .refl lx, hm, hstep, by rw [feed_of_token hstep, if_pos hclose]⟩
    | cons b before =>
      obtain rfl : l' = b := (List.cons.inj h).1
      rw [hopen l' List.mem_cons_self] at hclose
      cases hclose
  | case4 lx l' next hstep hclose ls stop after heq ih =>
    rw [heq] at ih
    have hclose' : l'.token.isClosing = false := Bool.eq_false_iff.2 hclose
    obtain ⟨c, cs, hwords⟩ := words_of_step hm hstep hclose'
    have hreach := (emits_of_step hstep).reaches.1
    by_cases hblank : l'.token = .blank
    · rw [if_pos hblank] at h
      -- A blank changes nothing.
      have hdot' : (l'.token == .dot || (afterDot && l'.token == .blank)) = true → before ≠ [] := by
        intro htrue
        rw [hblank] at htrue
        apply hdot
        simpa using htrue
      obtain ⟨used, place, next', hused, hplace⟩ := ih hwords.mode h hopen hbefore hdot'
      exact ⟨_, place, next', hreach.trans hused, hplace⟩
    rw [if_neg hblank] at h
    cases before with
    | nil =>
      obtain ⟨rfl, rfl⟩ := List.cons.inj h
      have hfalse : afterDot = false := Bool.eq_false_iff.2 fun htrue => hdot htrue rfl
      subst hfalse
      refine ⟨[], lx, next, .refl lx, hm, hstep, ?_⟩
      rw [feed_of_token hstep, if_neg hclose, if_neg hblank, heq]
    | cons b before =>
      obtain ⟨rfl, hrest⟩ := List.cons.inj h
      have hsettled : Settled before := by
        intro m hlast
        apply hbefore m
        rw [List.getLast?_cons, Option.mem_def.1 hlast]
        rfl
      have hdot' : (l'.token == .dot || (afterDot && l'.token == .blank)) = true → before ≠ [] := by
        rintro htrue rfl
        rw [beq_false_of_ne hblank, Bool.and_false, Bool.or_false, beq_iff_eq] at htrue
        exact hbefore l' rfl htrue
      obtain ⟨used, place, next', hused, hplace⟩ :=
        ih hwords.mode hrest (fun m hm => hopen m (List.mem_cons_of_mem l' hm)) hsettled hdot'
      exact ⟨_, place, next', hreach.trans hused, hplace⟩

/-- A stretch of the lexemes of a tag, unless a dot stands before it, is walked through from a place
    where no dot was read last; and a span over it reaches from that place to the end of the walk. -/
theorem exists_walk {before part behind : List Lexeme} (hm : lx.mode = .tag kind false)
    (h : (lx.feed d).1 = before ++ (part ++ behind)) (hbefore : Settled before)
    (hopen : ∀ l ∈ before ++ part, l.token.isClosing = false) {s : Span} (hs : s.Over part) :
    ∃ used place cs next, lx.Reaches used place ∧ place.mode = .tag kind false ∧
      place.Walks d cs part next ∧ s = ⟨place.pos, next.pos⟩ := by
  obtain ⟨first, last, hfirst, hlast, rfl⟩ := hs
  cases part with
  | nil => cases hfirst
  | cons l part =>
    obtain rfl : l = first := Option.some.inj hfirst
    have hopenPart : ∀ m ∈ l :: part, m.token.isClosing = false :=
      fun m hmem => hopen m (List.mem_append_right before hmem)
    obtain ⟨used, place, next, hused, hmode, hstep, hfeed⟩ := exists_place_of_feed hm h
      (fun m hmem => hopen m (List.mem_append_left _ hmem)) hbefore nofun
    have hfront : (place.feed d).1 = (l :: part) ++ behind := hfeed
    obtain ⟨cs, place', hwalks⟩ := walks_of_feed hmode hfront (List.cons_ne_nil _ _) hopenPart
    refine ⟨used, place, cs, place', hused, hmode, hwalks, ?_⟩
    rw [hwalks.stop_eq hlast, (emits_of_step hstep).reaches.2]

/-! ## Another tag -/

/-- Blanks before something else are passed by. -/
theorem feed_blanks_before {bs cs : List Char} (hbs : ∀ c ∈ bs, isBlank c = true)
    (hcs : ∀ c ∈ cs.head?, isBlank c = false) (p : Nat) :
    Lexer.feed .standard ⟨p, bs ++ cs, .tag kind afterDot⟩ =
      Lexer.feed .standard ⟨p + byteLen bs, cs, .tag kind afterDot⟩ := by
  cases bs with
  | nil => rfl
  | cons b bs =>
    obtain ⟨hb, hbs⟩ := List.forall_mem_cons.1 hbs
    have hmark : b ∉ Delims.marks := by
      intro hmem
      have hall : (Delims.marks.all fun c => !isBlank c) = true := by decide
      have hno := List.all_eq_true.1 hall b hmem
      rw [hb] at hno
      cases hno
    have htake : (bs ++ cs).takeWhile isBlank = bs := by
      rw [List.takeWhile_append_of_pos hbs]
      cases cs with
      | nil => exact List.append_nil bs
      | cons c cs =>
        rw [List.takeWhile_cons_of_neg (by rw [hcs c rfl]; exact Bool.false_ne_true), List.append_nil]
    have hread : Scan.read .standard kind afterDot b (bs ++ cs) = .token .blank bs.length := by
      rw [Scan.read_of_isBlank hb, htake]
    let place : Lexer := ⟨p, b :: (bs ++ cs), .tag kind afterDot⟩
    have hmode : place.mode = .tag kind afterDot := rfl
    have hstep := step_of_read hmode rfl (Delims.standard_of_not_mem hmark) hread
    have hnext : place.advance (bs.length + 1)
          (.tag kind (Token.blank == .dot || (afterDot && Token.blank == .blank))) =
        ⟨p + byteLen (b :: bs), cs, .tag kind afterDot⟩ := by
      show Lexer.mk (p + byteLen ((b :: (bs ++ cs)).take (bs.length + 1)))
        ((b :: (bs ++ cs)).drop (bs.length + 1)) (.tag kind (false || (afterDot && true))) = _
      rw [List.take_succ_cons, List.take_left, List.drop_succ_cons, List.drop_left, Bool.false_or,
        Bool.and_true]
    rw [hnext] at hstep
    exact (feed_of_token hstep).trans rfl

/-- Blanks are passed by. -/
theorem feed_blanks {bs : List Char} (hbs : ∀ c ∈ bs, isBlank c = true) (cs : List Char) (p : Nat) :
    Lexer.feed .standard ⟨p, bs ++ cs, .tag kind afterDot⟩ =
      Lexer.feed .standard ⟨p + byteLen bs, cs, .tag kind afterDot⟩ := by
  -- Those that follow are passed by together with them.
  obtain ⟨more, rest, rfl, hmore, hrest⟩ : ∃ more rest, cs = more ++ rest ∧
      (∀ c ∈ more, isBlank c = true) ∧ ∀ c ∈ rest.head?, isBlank c = false := by
    refine ⟨cs.takeWhile isBlank, cs.dropWhile isBlank, List.takeWhile_append_dropWhile.symm,
      List.all_eq_true.1 List.all_takeWhile, fun c hc => ?_⟩
    have hhead := List.head?_dropWhile_not isBlank cs
    rw [Option.mem_def.1 hc] at hhead
    exact hhead
  have hboth : ∀ c ∈ bs ++ more, isBlank c = true :=
    List.forall_mem_append.2 ⟨hbs, hmore⟩
  rw [← List.append_assoc, feed_blanks_before hboth hrest, feed_blanks_before hmore hrest,
    byteLen_append, Nat.add_assoc]

theorem feed_of_blank (cs : List Char) (p : Nat) :
    Lexer.feed .standard ⟨p, ' ' :: cs, .tag kind afterDot⟩ =
      Lexer.feed .standard ⟨p + 1, cs, .tag kind afterDot⟩ := by
  have hspace : ∀ c ∈ [' '], isBlank c = true := List.forall_mem_singleton.2 (by decide)
  exact feed_blanks hspace cs p

/-- From the place on, the source is the lexemes, the closing delimiter of their tag, and nothing else. -/
structure Inside (lx : Lexer) (kind : TagKind) (ls : List Lexeme) (close : Lexeme) : Prop where
  lexemes : (lx.feed .standard).1 = ls ++ [close]
  closes : close.token = Token.closes kind
  rest : (lx.feed .standard).2.2.rest = []
  mode : (lx.feed .standard).2.2.mode = .template

/-- The text of a walk, alone in a tag, is read as the same lexemes. -/
theorem Walks.inside {cs : List Char} {ls : List Lexeme} (h : lx.Walks .standard cs ls next)
    (hm : lx.mode = .tag kind false) {kind' : TagKind}
    (hkind : kind' = kind ∨ kind' = .expr ∧ ∀ l ∈ ls, l.token ≠ .rbrace) {p : Nat}
    (hp : p + 1 = lx.pos) :
    ∃ close, Inside ⟨p, ' ' :: (cs ++ ' ' :: Delims.closeText kind'), .tag kind' false⟩ kind' ls close := by
  obtain ⟨dot, -, hwalks⟩ := h.elsewhere (w := ' ') (by decide) hm hkind (Delims.closeText kind')
  obtain ⟨close, hclose, hfeed, hrest, hmode⟩ :=
    @feed_closing _ ⟨next.pos + 1, Delims.closeText kind', .tag kind' dot⟩ kind' dot rfl rfl
  have hwhole :
      Lexer.feed .standard ⟨p, ' ' :: (cs ++ ' ' :: Delims.closeText kind'), .tag kind' false⟩ =
        (ls ++ [close],
          (Lexer.feed .standard ⟨next.pos + 1, Delims.closeText kind', .tag kind' dot⟩).2) := by
    rw [feed_of_blank, hp, hwalks.feed_eq, feed_of_blank, hfeed]
  refine ⟨close, ?_⟩
  constructor
  · rw [hwhole]
  · exact hclose
  · rw [hwhole]
    exact hrest
  · rw [hwhole]
    exact hmode

end Lexer

end Stencil
