/-
  Whitespace — blanks between the lexemes of a tag mean nothing.

  Let a source be one tag, read without a fault, and put blanks between two of its lexemes.  The longer
  source is one tag again, with the same tree in it; only the places behind the blanks are further on.

  The lexemes in front stay where they are and those behind move (`Lexer.Passes.feed_gap`).  So the
  lexemes of the short source come from those of the long one by taking the gap out of all offsets
  (`narrow`), which keeps the order of offsets, and readers commute with such a move
  (`Region.body_moves`).  This gives the short tree from the long one.  For the way back it has to be
  known that `narrow` has lost nothing.  It makes the ends of the gap one, so an offset there could come
  from either; but no part of a tree begins or ends with a blank (`Span.Marks`), and therefore what ends
  at the gap ended in front of it, and what starts there started behind it (`Span.widen`).
-/
import Stencil.Proofs.Cut.Gap
import Stencil.Proofs.Respan
import Stencil.Proofs.Template.Parts

namespace Stencil

/-! ## Offsets around a gap -/

/-- The span after `k` bytes have been put in at offset `q`.  A start at that offset moves with what
    comes after it, an end stays with what comes before. -/
def Span.widen (q k : Nat) (s : Span) : Span :=
  ⟨if s.start < q then s.start else s.start + k, if s.stop ≤ q then s.stop else s.stop + k⟩

/-- The offset after the `k` bytes from `q` on have been taken out. -/
def narrow (q k p : Nat) : Nat := max (min p q) (p - k)

section

variable {q k p : Nat} {s : Span}

theorem monotone_narrow (q k : Nat) : Monotone (narrow q k) := by
  intro p p' h
  unfold narrow
  omega

theorem narrow_of_le (h : p ≤ q) : narrow q k p = p := by
  unfold narrow
  omega

theorem narrow_add (h : q ≤ p) : narrow q k (p + k) = p := by
  unfold narrow
  omega

theorem Span.narrow_of_le (hle : s.start ≤ s.stop) (h : s.stop ≤ q) : move (narrow q k) s = s :=
  congrArg₂ Span.mk (Stencil.narrow_of_le (Nat.le_trans hle h)) (Stencil.narrow_of_le h)

theorem Span.narrow_shift (hle : s.start ≤ s.stop) (h : q ≤ s.start) :
    move (narrow q k) (move (· + k) s) = s :=
  congrArg₂ Span.mk (narrow_add h) (narrow_add (Nat.le_trans h hle))

/-- Only a start inside the gap or an end inside of it is lost. -/
theorem Span.widen_narrow (hstart : s.start < q ∨ q + k ≤ s.start) (hstop : s.stop ≤ q ∨ q + k < s.stop) :
    (move (narrow q k) s).widen q k = s := by
  obtain ⟨i, j⟩ := s
  dsimp only at hstart hstop
  have hi : (if narrow q k i < q then narrow q k i else narrow q k i + k) = i := by
    unfold narrow
    split <;> omega
  have hj : (if narrow q k j ≤ q then narrow q k j else narrow q k j + k) = j := by
    unfold narrow
    split <;> omega
  exact congrArg₂ Span.mk hi hj

end

/-! ## Places around a gap -/

section

variable {front blanks rest : List Char}

/-- Where a text is cut between the ends of `mid`, `mid` is cut. -/
theorem exists_cut_within {x y mid : List Char} (h : x ++ y = front ++ (mid ++ rest))
    (hfrom : byteLen front ≤ byteLen x) (hto : byteLen x ≤ byteLen front + byteLen mid) :
    ∃ m m', x = front ++ m ∧ mid = m ++ m' ∧ y = m' ++ rest := by
  obtain ⟨m, rfl, hmid⟩ := append_eq_append_of_byteLen h.symm hfrom
  rw [byteLen_append] at hto
  obtain ⟨m', hcut, hy⟩ := append_eq_append_of_byteLen hmid.symm (Nat.le_of_add_le_add_left hto)
  exact ⟨m, m', rfl, hcut, hy⟩

/-- Blanks put into a source can be taken out of a span without loss, if the span is over a text there. -/
theorem Span.Marks.widen_narrow {s : Span} (h : s.Marks .standard (front ++ (blanks ++ rest)))
    (hblanks : ∀ c ∈ blanks, isBlank c = true) :
    (move (narrow (byteLen front) (byteLen blanks)) s).widen (byteLen front) (byteLen blanks) = s := by
  obtain ⟨cs, hcs, hne, htight⟩ := h
  obtain ⟨a, b, hsource, hstart, hstop⟩ := slice?_eq_some hcs
  have hedges := htight Delims.standard_tight
  apply Span.widen_narrow
  · -- A text that starts inside the gap starts with a blank.
    by_contra hinside
    obtain ⟨m, m', ha, hm, hback⟩ := exists_cut_within hsource.symm (by omega) (by omega)
    obtain ⟨c, m', rfl⟩ : ∃ c m'', m' = c :: m'' := by
      refine List.exists_cons_of_ne_nil ?_
      rintro rfl
      rw [hm, List.append_nil] at hinside
      rw [ha, byteLen_append] at hstart
      omega
    have hhead := congrArg List.head? hback
    rw [List.head?_append_of_ne_nil cs hne] at hhead
    have hblank := hblanks c (by rw [hm]; exact List.mem_append_right _ List.mem_cons_self)
    rw [hedges.head c hhead] at hblank
    cases hblank
  · -- A text that ends inside the gap ends with a blank.
    by_contra hinside
    rw [← byteLen_append] at hstop
    rw [← List.append_assoc a] at hsource
    obtain ⟨m, m', ha, hm, hback⟩ := exists_cut_within hsource.symm (by omega) (by omega)
    have hmne : m ≠ [] := by
      rintro rfl
      rw [ha, List.append_nil] at hstop
      omega
    have hlast : cs.getLast? = some (m.getLast hmne) := by
      rw [← List.getLast?_append_of_ne_nil a hne, ha, List.getLast?_append_of_ne_nil _ hmne,
        List.getLast?_eq_some_getLast hmne]
    have hblank := hblanks _ (by rw [hm]; exact List.mem_append_left _ (List.getLast_mem hmne))
    rw [hedges.last _ hlast] at hblank
    cases hblank

end

/-! ## The opening delimiter -/

/-- Blanks put in behind a modifier, or behind what is none, make no other modifier. -/
theorem Trim.ofHead?_gap {t : Option Trim} {used blanks rest : List Char}
    (h : ofHead? (Trim.text t ++ (used ++ rest)) = t) (hne : blanks ≠ [])
    (hblanks : ∀ c ∈ blanks, isBlank c = true) :
    ofHead? (Trim.text t ++ (used ++ (blanks ++ rest))) = t := by
  cases t with
  | some t => exact ofChar?_toChar t
  | none =>
    cases used with
    | cons u used => exact h
    | nil =>
      obtain ⟨w, ws, rfl⟩ := List.exists_cons_of_ne_nil hne
      exact Delims.ofChar?_of_not_mem (Delims.not_mem_marks (hblanks w List.mem_cons_self) (by decide))

/-- An opening delimiter is read again if blanks are put in somewhere behind it. -/
theorem Lexer.step_opening_gap [Letters] {lx inside : Lexer} {l : Lexeme} {kind : TagKind}
    (h : lx.step .standard = .token l inside) (hl : l.token.opens? = some kind)
    (hout : lx.inTag = false) {used blanks rest : List Char} (hused : inside.rest = used ++ rest)
    (hne : blanks ≠ []) (hblanks : ∀ c ∈ blanks, isBlank c = true) :
    step .standard ⟨lx.pos, l.text ++ (used ++ (blanks ++ rest)), .template⟩ =
      .token l ⟨inside.pos, used ++ (blanks ++ rest), .tag kind false⟩ := by
  obtain ⟨-, o, ho, hk, rfl, rfl⟩ := (emits_of_step h).opening_of_opens hl hout
  obtain ⟨pair, hpair, hdelim, htext⟩ := Delims.opening_text ho hk
  -- Which delimiter it is does not depend on what follows; only the modifier does.
  have hagain : ∀ cs, Delims.standard.openingAt (pair.opening.text ++ cs) =
      some ⟨.tag kind, pair.opening, Trim.ofHead? cs⟩ := by
    intro cs
    cases kind <;> cases hpair <;> rfl
  have hsize : (pair.opening.text ++ Trim.text o.trim).length = o.size := by
    rw [List.length_append, Trim.length_text, Opening.size, hdelim, Delim.length_text]
  have htrim : Trim.ofHead? (Trim.text o.trim ++ (used ++ rest)) = o.trim := by
    have hrest : lx.rest = pair.opening.text ++ (Trim.text o.trim ++ (used ++ rest)) := by
      rw [← List.append_assoc, ← htext, ← hused]
      exact (List.take_append_drop o.size lx.rest).symm
    rw [hrest, hagain] at ho
    exact congrArg Opening.trim (Option.some.inj ho)
  have ho' : Delims.standard.openingAt
      ((pair.opening.text ++ Trim.text o.trim) ++ (used ++ (blanks ++ rest))) = some o := by
    rw [List.append_assoc, hagain, Trim.ofHead?_gap htrim hne hblanks, ← hdelim, ← hk]
  have hpos : lx.pos + byteLen (pair.opening.text ++ Trim.text o.trim) =
      (lx.advance o.size (.tag kind false)).pos := by
    rw [← htext]
    rfl
  have hemits : Emits .standard
      ⟨lx.pos, (pair.opening.text ++ Trim.text o.trim) ++ (used ++ (blanks ++ rest)), .template⟩ _ _ :=
    .opening rfl (List.cons_ne_nil _ _) ho' hk
  have hstep := step_of_emits hemits
  rw [lexeme, spanOf, advance, ← hsize, List.take_left, List.drop_left] at hstep
  rw [lexeme, spanOf, htext]
  rw [hstep, advance, hpos]
  rfl

/-! ## The inside of the tag -/

theorem Lexeme.move_eq {g : Nat → Nat} {l : Lexeme} (h : move g l.span = l.span) : move g l = l := by
  show { l with span := move g l.span } = l
  rw [h]

namespace Lexer

variable {d : Delims} {behind : Lexer} {ls : List Lexeme} {k : Nat}
  (hls : ∀ l ∈ ls, l.span.start ≤ l.span.stop ∧ l.span.stop ≤ behind.pos) (hraw : behind.mode ≠ .raw)
include hls hraw

/-- Taking out the gap leaves the lexemes in front of it and moves those behind it back. -/
theorem narrow_feed [Letters] : move (narrow behind.pos k) (ls ++ move (· + k) (behind.feed d).1) =
    ls ++ (behind.feed d).1 := by
  have hrow := inRow_feed (d := d) hraw
  have hfront : move (narrow behind.pos k) ls = ls := by
    refine (List.map_congr_left fun l hl => ?_).trans (List.map_id ls)
    exact Lexeme.move_eq (Span.narrow_of_le (hls l hl).1 (hls l hl).2)
  have hback : move (narrow behind.pos k) (move (· + k) (behind.feed d).1) = (behind.feed d).1 := by
    refine List.map_map.trans ((List.map_congr_left fun l hl => ?_).trans (List.map_id _))
    have hspan := Span.narrow_shift (k := k) (Nat.le_of_lt (hrow.start_lt_stop hl)) (hrow.start_le hl)
    show { l with span := move (narrow behind.pos k) (move (· + k) l.span) } = l
    rw [hspan]
  refine List.map_append.trans ?_
  exact congrArg₂ (· ++ ·) hfront hback

/-- No lexeme begins or ends inside the gap, so taking it out commutes with stepping back by one. -/
theorem narrow_mark [Letters] {l : Lexeme} (hl : l ∈ ls ++ move (· + k) (behind.feed d).1) :
    narrow behind.pos k (l.span.stop - 1) = narrow behind.pos k l.span.stop - 1 := by
  rcases List.mem_append.1 hl with hfront | hback
  · have hstop := (hls l hfront).2
    rw [narrow_of_le hstop, narrow_of_le (Nat.le_trans (Nat.sub_le _ 1) hstop)]
  · obtain ⟨l, hmem, rfl⟩ := List.mem_map.1 hback
    have hstop := (inRow_feed (d := d) hraw).stop_pos hmem
    show narrow behind.pos k (l.span.stop + k - 1) = narrow behind.pos k (l.span.stop + k) - 1
    unfold narrow
    omega

end Lexer

namespace Region

section

variable [Letters] {limit : Nat} {kind : TagKind} {opening : Lexeme} {inside place : Lexer}
  (hmode : inside.mode = .tag kind false) (hpass : inside.Passes .standard place)
  (hin : place.inTag = true) {gap rest blanks : List Char} (hrest : place.rest = gap ++ rest)
  (hgap : ∀ c ∈ gap, isBlank c = true) (hne : blanks ≠ []) (hblanks : ∀ c ∈ blanks, isBlank c = true)
  (hopening : opening.span.start ≤ opening.span.stop ∧ opening.span.stop ≤ inside.pos)
include hmode hpass hin hrest hgap hne hblanks hopening

variable (limit) in
/-- The lexemes of a closed tag are those of the tag with blanks between two of its lexemes, the gap taken
    out; and what follows the tag follows it so much later. -/
theorem feedOf_gap (hclose : ∃ l ∈ (inside.feed .standard).1, l.token.isClosing = true) :
    ∃ used, inside.rest = used ++ rest ∧
      let longer : Lexer := ⟨inside.pos, used ++ (blanks ++ rest), .tag kind false⟩
      let g := narrow (inside.pos + byteLen used) (byteLen blanks)
      opening.span = move g opening.span ∧ (feedOf ⟨.standard, limit⟩ opening longer).Regular g ∧
      feedOf ⟨.standard, limit⟩ opening inside = move g (feedOf ⟨.standard, limit⟩ opening longer) ∧
      (longer.feed .standard).2.2 = move (· + byteLen blanks) (inside.feed .standard).2.2 := by
  obtain ⟨used, ls, dot, htext, hls, hshort, hlong⟩ :=
    hpass.feed_gap hmode hin hclose hrest hgap hne hblanks
  let behind : Lexer := ⟨inside.pos + byteLen used, rest, .tag kind dot⟩
  let longer : Lexer := ⟨inside.pos, used ++ (blanks ++ rest), .tag kind false⟩
  have hraw : behind.mode ≠ .raw := Mode.noConfusion
  have hlexemes : (longer.feed .standard).1 = ls ++ move (· + byteLen blanks) (behind.feed .standard).1 :=
    congrArg Prod.fst hlong
  have hopens : opening.span = move (narrow behind.pos (byteLen blanks)) opening.span :=
    (Span.narrow_of_le hopening.1 (Nat.le_trans hopening.2 (Nat.le_add_right _ _))).symm
  refine ⟨used, htext, hopens, ?_, ?_, ?_⟩
  · intro l hl
    refine ⟨fun _ => ?_, ?_⟩
    · apply Lexer.narrow_mark hls hraw (d := .standard)
      rw [← hlexemes]
      exact hl
    · -- Whether a literal can be decoded has nothing to do with its place.
      exact (Lexer.regular_feed (g := id) (fun _ _ => rfl) rfl (Lexer.Stop.atEnd 0) opening.span l hl).text
  · have hfeed : (inside.feed .standard).1 =
        move (narrow behind.pos (byteLen blanks)) (longer.feed .standard).1 := by
      rw [hlexemes, hshort]
      exact (Lexer.narrow_feed hls hraw).symm
    have hstop : (inside.feed .standard).2.1 =
        move (narrow behind.pos (byteLen blanks)) (longer.feed .standard).2.1 := by
      -- The lexemes stop at the end of the tag, which is behind the gap.
      obtain ⟨l, hl, hclosing⟩ := hclose
      have hend := Lexer.stop_of_closing hl hclosing
      obtain ⟨more, hmore⟩ := Lexer.reaches_feed .standard behind
      have hlater : (longer.feed .standard).2.1 =
          move (· + byteLen blanks) (inside.feed .standard).2.1 := by
        rw [hshort]
        exact congrArg (·.2.1) hlong
      have hle : behind.pos ≤ (inside.feed .standard).2.2.pos := by
        rw [hshort]
        exact hmore.pos_le
      rw [hlater, hend]
      exact congrArg Lexer.Stop.atEnd (narrow_add hle).symm
    exact congr (congrArg₂ Feed.mk hfeed hstop) hopens
  · rw [hshort]
    exact congrArg (·.2.2) hlong

/-- With blanks between two of its lexemes a tag is read as before, if it could be read: the gap taken
    out, it is the same node, and reading goes on so much later. -/
theorem readTag_gap {b : Body} {closing : Lexeme} {left : Feed}
    (hread : body limit kind (feedOf ⟨.standard, limit⟩ opening inside) = .ok ((b, closing), left)) :
    ∃ (used : List Char) (b' : Body) (trims : Trims) (span : Span), inside.rest = used ++ rest ∧
      let longer : Lexer := ⟨inside.pos, used ++ (blanks ++ rest), .tag kind false⟩
      readTag ⟨.standard, limit⟩ kind opening longer = (⟨some (b'.toNode trims span), none⟩,
        move (· + byteLen blanks) (readTag ⟨.standard, limit⟩ kind opening inside).2) ∧
      (readTag ⟨.standard, limit⟩ kind opening inside).1 =
        ⟨some (move (narrow (inside.pos + byteLen used) (byteLen blanks)) (b'.toNode trims span)), none⟩ := by
  obtain ⟨hmem, htoken⟩ := closing_mem_of_body (Lexer.regular_feed (fun _ _ => rfl) hmode _ _) hread
  have hclosing : closing.token.isClosing = true := by rw [htoken]; exact Token.isClosing_closes kind
  obtain ⟨used, htext, hopens, hregular, hmoved, hafter⟩ :=
    feedOf_gap limit hmode hpass hin hrest hgap hne hblanks hopening ⟨closing, hmem, hclosing⟩
  have hmono := monotone_narrow (inside.pos + byteLen used) (byteLen blanks)
  -- A fault in the longer tag would be one in the shorter tag, too.
  have hread' := hread
  rw [hmoved] at hread'
  obtain ⟨⟨b', closing'⟩, left', hlonger, hb⟩ := (body_moves hmono limit kind).of_ok_move hregular hread'
  obtain ⟨rfl, rfl⟩ := Prod.mk.inj hb
  refine ⟨used, b', ⟨opening.trim, closing'.trim⟩, opening.span.join closing'.span, htext, ?_, ?_⟩
  · rw [readTag_of_ok hlonger, readTag_of_ok hread, isRaw_move, hafter]
    split <;> rfl
  · rw [readTag_of_ok hread, toNode_move, Span.move_join hmono, ← hopens]
    rfl

end

end Region

/-! ## Nodes -/

namespace Node

variable {d : Delims} {source : List Char}

/-- A node stands for a text that begins with its opening delimiter and ends with its closing one. -/
theorem StandsAround.marks {n : Node} {kind : TagKind} {trims : Trims} {p : Part}
    (h : n.StandsAround d source kind trims p) (hp : p.Sits d source) : n.span.Marks d source := by
  obtain ⟨pair, opening, closing, hpair, hopening, hclosing, hspan, hstart, hstop⟩ := h
  have hopens : opening.Marks d source := by
    refine ⟨_, hopening, List.append_ne_nil_of_left_ne_nil (List.cons_ne_nil _ _) _, fun hd => ?_⟩
    exact (hd kind pair hpair).1.append (Trim.tight_text trims.opening)
  have hcloses : closing.Marks d source := by
    refine ⟨_, hclosing, List.append_ne_nil_of_right_ne_nil _ (List.cons_ne_nil _ _), fun hd => ?_⟩
    exact (Trim.tight_text trims.closing).append (hd kind pair hpair).2
  have := hopens.lt
  have := hp.marks.lt
  have := hcloses.lt
  rw [hspan]
  exact hopens.between hcloses (by omega)

/-- The node of a tag that could be read is restored if every span is that marks a text of its source. -/
theorem restores {f : Span → Span} {g : Nat → Nat} {b : Region.Body} {trims : Trims} {span : Span}
    (h : (b.toNode trims span).StandsAround d source b.kind trims b.part) (hsits : b.part.Sits d source)
    (hspans : ∀ s : Span, s.Marks d source → f (move g s) = s) : Restores f g (b.toNode trims span) := by
  have hpart := hsits.restores hspans
  have hspan := hspans _ (h.marks hsits)
  rw [Region.span_toNode] at hspan
  cases b with
  | expr e =>
    show Node.expr (respan f (move g e)) trims (f (move g span)) = _
    rw [Expr.restores hpart, hspan]
    rfl
  | stmt s =>
    show Node.tag (respan f (move g s)) trims (f (move g span)) = _
    rw [Part.stmt.inj hpart, hspan]
    rfl

end Node

/-! ## Sources that consist of one tag -/

/-- The source `front ++ rest` begins with a tag, and the two texts meet between two of its lexemes, the
    delimiters with their modifiers among them: at a place that the lexer comes by inside the tag, or in
    the blanks that follow such a place. -/
def Lexer.BetweenLexemes [Letters] (front rest : List Char) : Prop :=
  ∃ opening inside place gap, (start (front ++ rest)).step .standard = .token opening inside ∧
    inside.Passes .standard place ∧ place.inTag = true ∧ place.rest = gap ++ rest ∧
    ∀ c ∈ gap, isBlank c = true

/-- The lexer is inside a tag when it comes by a place there, and an opening delimiter led into it. -/
theorem Lexer.BetweenLexemes.opens [Letters] {front rest : List Char} (h : BetweenLexemes front rest) :
    ∃ kind opening inside place gap, (start (front ++ rest)).step .standard = .token opening inside ∧
      opening.token.opens? = some kind ∧ inside.Passes .standard place ∧ place.inTag = true ∧
      place.rest = gap ++ rest ∧ ∀ c ∈ gap, isBlank c = true := by
  obtain ⟨opening, inside, place, gap, hstep, hpass, hin, hrest, hgap⟩ := h
  have hinside : inside.inTag = true := by
    cases hpass with
    | here => exact hin
    | token hin' => exact hin'
    | fault hin' => exact hin'
  cases emits_of_step hstep with
  | @opening o kind hm hr ho hk =>
    exact ⟨kind, _, _, place, gap, hstep, Token.opens?_opens kind, hpass, hin, hrest, hgap⟩
  | content hm => cases hinside
  | comment hm => cases hinside
  | raw hm => cases hinside
  | closing hm => cases hm
  | word hm => cases hm

/-- If a source is read as one node without a fault, and is cut between two lexemes of that node, then
    with blanks in between it is read as the node with its spans widened. -/
theorem Lexer.BetweenLexemes.regions_gap [Letters] {front blanks rest : List Char} (h : BetweenLexemes front rest)
    (hne : blanks ≠ []) (hblanks : ∀ c ∈ blanks, isBlank c = true) {limit : Nat} {n : Node}
    (hnodes : (regions ⟨.standard, limit⟩ (start (front ++ rest))).filterMap (·.node) = [n])
    (hfaults : (regions ⟨.standard, limit⟩ (start (front ++ rest))).filterMap (·.diagnostic) = []) :
    let wider := regions ⟨.standard, limit⟩ (start (front ++ (blanks ++ rest)))
    wider.filterMap (·.node) = [respan (Span.widen (byteLen front) (byteLen blanks)) n] ∧
      wider.filterMap (·.diagnostic) = [] := by
  obtain ⟨kind, opening, inside, place, gap, hstep, hopens, hpass, hin, hrest, hgap⟩ := h.opens
  obtain ⟨hreach, hspan⟩ := (emits_of_step hstep).reaches
  have hmode := (Region.mode_of_opening (s := ⟨.standard, limit⟩) rfl (emits_of_step hstep) hopens).2
  have hturn : Region.Turn ⟨.standard, limit⟩ (start (front ++ rest)) _ _ := .tag hstep hopens
  rw [hturn.regions_eq] at hnodes hfaults
  cases hbody : Region.body limit kind (Region.feedOf ⟨.standard, limit⟩ opening inside) with
  | error diagnostic =>
    rw [Region.readTag_of_error hbody] at hfaults
    cases hfaults
  | ok result =>
    obtain ⟨⟨b, closing⟩, left⟩ := result
    have hopening : opening.span.start ≤ opening.span.stop ∧ opening.span.stop ≤ inside.pos := by
      rw [hspan]
      exact ⟨hreach.pos_le, Nat.le_refl _⟩
    obtain ⟨used, b', trims, span, htext, hlonger, hread⟩ :=
      Region.readTag_gap hmode hpass hin hrest hgap hne hblanks hopening hbody
    have hfront : front = opening.text ++ used := by
      have hsource : front ++ rest = opening.text ++ inside.rest := hreach.text
      rw [htext, ← List.append_assoc] at hsource
      exact List.append_cancel_right hsource
    have hpos : inside.pos + byteLen used = byteLen front := by
      rw [hreach.pos, hfront, byteLen_append]
      exact congrArg (· + _) (Nat.zero_add _)
    rw [hpos] at hread
    -- The tag is the first turn of the longer source, too.
    have hstep' := step_opening_gap hstep hopens rfl htext hne hblanks
    rw [← List.append_assoc, ← hfront] at hstep'
    have hturn' : Region.Turn ⟨.standard, limit⟩ (start (front ++ (blanks ++ rest))) _ _ :=
      .tag hstep' hopens
    rw [hlonger] at hturn'
    obtain ⟨text, hcovers⟩ := hturn.covers rfl
    have hafter := regions_shift (byteLen blanks) ⟨.standard, limit⟩ _ hcovers.outside
    rw [hread] at hnodes hfaults
    obtain ⟨rfl, hover⟩ := List.cons.inj hnodes
    obtain ⟨hstands, hsits⟩ := hturn'.part_of_node rfl (.refl _) rfl
    have hnode := Node.restores hstands hsits fun s hs => hs.widen_narrow hblanks
    dsimp only
    rw [hturn'.regions_eq, hafter]
    constructor
    · refine congrArg₂ List.cons hnode.symm (List.filterMap_map.trans ?_)
      exact List.map_filterMap.symm.trans (congrArg (List.map _) hover)
    · refine List.filterMap_map.trans ?_
      exact List.map_filterMap.symm.trans (congrArg (List.map _) hfaults)

namespace Template

/-- Whitespace between lexemes means nothing.  Let a source be read as one node without a fault, for any
    limit, and cut it between two lexemes of that node.  The source with blanks in between, one or more,
    is read as one node without a fault again: the same node, with every span widened by the blanks.

    The node is an expression or a statement then, since lexemes stand in no others, and no statement
    that begins a raw block, since the block would be a node of its own or a fault. -/
theorem blanks_between_lexemes [Letters] (limit : Nat) (front blanks rest : String) (n : Node)
    (hnodes : (Settings.parse ⟨.standard, limit⟩ (front ++ rest)).template.nodes = [n])
    (hfaults : (Settings.parse ⟨.standard, limit⟩ (front ++ rest)).diagnostics = [])
    (hplace : Lexer.BetweenLexemes front.toList rest.toList) (hne : blanks ≠ "")
    (hblanks : ∀ c ∈ blanks.toList, isBlank c = true) :
    let wider := Settings.parse ⟨.standard, limit⟩ (front ++ blanks ++ rest)
    wider.template.nodes = [respan (Span.widen front.utf8ByteSize blanks.utf8ByteSize) n] ∧
      wider.diagnostics = [] := by
  unfold Settings.parse at hnodes hfaults ⊢
  dsimp only at hnodes hfaults ⊢
  rw [String.toList_append] at hnodes hfaults
  rw [String.toList_append, String.toList_append, List.append_assoc, utf8ByteSize_eq, utf8ByteSize_eq]
  refine hplace.regions_gap (fun hnil => hne ?_) hblanks hnodes hfaults
  exact String.toList_eq_nil_iff.1 hnil

/-- A no-break space and a line break between the dot and the number of a tuple access, which the lexer
    reads after a dot as it does with no blanks in between. -/
theorem blanks_behind_dot :
    let front := "\x7b\x7bx."
    let rest := "0!=1-\x7d\x7d"
    let blanks := "\u00a0\n"
    ∃ n, (parse (front ++ rest)).template.nodes = [n] ∧ (parse (front ++ rest)).diagnostics = [] ∧
      Lexer.BetweenLexemes front.toList rest.toList ∧ blanks ≠ "" ∧
      (∀ c ∈ blanks.toList, isBlank c = true) ∧
      (parse (front ++ blanks ++ rest)).template.nodes = [respan (Span.widen 4 3) n] ∧
      (parse (front ++ blanks ++ rest)).diagnostics = [] := by
  intro front rest blanks
  have hone : (parse (front ++ rest)).template.nodes.length = 1 := by decide +kernel
  have hnone : (parse (front ++ rest)).diagnostics.isEmpty = true := by decide +kernel
  -- The lexer comes by the place behind the name and the dot.
  have hplace : Lexer.BetweenLexemes "\x7b\x7bx.".toList "0!=1-\x7d\x7d".toList :=
    ⟨_, _, _, [], rfl, .token rfl rfl (.token rfl rfl (.here _)), rfl, rfl, List.forall_mem_nil _⟩
  have hne : blanks ≠ "" := by decide
  have hblanks : (blanks.toList.all isBlank) = true := by decide
  have hall : ∀ c ∈ blanks.toList, isBlank c = true := List.all_eq_true.1 hblanks
  have hfaults := List.isEmpty_iff.1 hnone
  obtain ⟨n, hnodes⟩ := List.length_eq_one_iff.1 hone
  exact ⟨n, hnodes, hfaults, hplace, hne, hall,
    blanks_between_lexemes 64 front blanks rest n hnodes hfaults hplace hne hall⟩

end Template

end Stencil
