/-
  CommentTrims — the modifiers that are recorded for a comment, and those that the scanner found.

  The scanner knows the end of a comment and the modifier on its closing delimiter, but only the end is
  kept: the modifiers are read off once more from the text of the comment (`Delims.commentTrims`).  The
  opening delimiter is found again in that text, since no longer one can stand there
  (`openingAt_take`), and so is its modifier.  The modifier of the closing delimiter is looked for in the
  character before it, and this is where the two can disagree: that character may belong to a nested
  comment that ends there (`commentTrims_of_end`).
-/
import Stencil.Proofs.Lexer.Nesting
import Stencil.Proofs.Template.Extent

namespace Stencil

namespace Delims

variable {d : Delims} {cs rest : List Char} {o : Opening} {p : DelimPair} {n : Nat} {t : Option Trim}

/-! ## The opening delimiter in the text of a comment -/

/-- No other opening delimiter that begins the text is longer than the longest. -/
theorem length_le_of_longestAt {o : DelimKind × Delim} (h : d.longestAt cs = some o) :
    ∀ o' ∈ d.openings, o'.2.startsAt cs = true → o'.2.length ≤ o.2.length := by
  intro o' ho' hstarts
  have hlongest := (longest_of_foldl (R := fun _ _ => True) _ none
    (List.pairwise_iff_forall_sublist.2 fun _ => trivial) h).2
  exact (hlongest o' (List.mem_filter.2 ⟨ho', hstarts⟩)).1

/-- The longest opening delimiter is found in every text that goes on long enough for it. -/
theorem longestAt_take {o : DelimKind × Delim} (h : d.longestAt cs = some o) (hn : o.2.length ≤ n) :
    d.longestAt (cs.take n) = some o := by
  have hsame : d.openings.filter (fun o' => o'.2.startsAt (cs.take n)) =
      d.openings.filter fun o' => o'.2.startsAt cs := by
    refine List.filter_congr fun o' ho' => ?_
    rw [Bool.eq_iff_iff, Delim.startsAt_iff, Delim.startsAt_iff]
    constructor
    · exact fun hbegins => hbegins.trans (List.take_prefix n cs)
    · intro hbegins
      have hle := length_le_of_longestAt h o' ho' (Delim.startsAt_iff.2 hbegins)
      exact List.prefix_take_iff.2 ⟨hbegins, Nat.le_trans hle hn⟩
  unfold longestAt at h ⊢
  rw [hsame, h]

/-- The opening delimiter is found, with its modifier, in every text that goes on long enough for it. -/
theorem openingAt_take (h : d.openingAt cs = some o) (hn : o.size ≤ n) :
    d.openingAt (cs.take n) = some o := by
  obtain ⟨⟨kind, delim⟩, hlongest, rfl⟩ := Option.map_eq_some_iff.1 h
  have hle : delim.length ≤ n := Nat.le_trans (Nat.le_add_right _ _) hn
  have htrim : Trim.ofHead? ((cs.take n).drop delim.length) = Trim.ofHead? (cs.drop delim.length) := by
    rw [List.drop_take]
    cases hmore : n - delim.length with
    | succ m => cases cs.drop delim.length <;> rfl
    | zero =>
      -- Nothing follows the delimiter in the text, so it has no modifier.
      cases hfound : Trim.ofHead? (cs.drop delim.length) with
      | none => rfl
      | some t =>
        dsimp only [Opening.size] at hn
        rw [hfound] at hn
        dsimp only [Trim.width] at hn
        omega
  unfold openingAt
  rw [longestAt_take hlongest hle, Option.map_some]
  exact congrArg (fun trim => some (Opening.mk kind delim trim)) htrim

theorem length_take_of_openingAt (h : d.openingAt cs = some o) : (cs.take o.size).length = o.size := by
  obtain ⟨pair, -, hdelim, htext⟩ := opening_text h rfl
  rw [htext, List.length_append, Trim.length_text, Delim.length_text, ← hdelim]
  rfl

/-! ## The modifiers in the text of a comment -/

/-- The text of a comment that ends after `n` characters of its inside records the modifier after its
    opening delimiter, and the one that stands before its closing delimiter. -/
theorem commentTrims_of_end (hp : d.comment = some p) (ho : d.openingAt rest = some o)
    (hend : p.commentEnd 0 (rest.drop o.size) = some (n, t)) :
    let inside := rest.drop o.size
    let before := inside.take (n - p.closing.length)
    d.commentTrims (rest.take (o.size + n)) true =
        ⟨o.trim, before.getLast?.bind Trim.ofChar?⟩ ∧
      (t ≠ none → before.getLast?.bind Trim.ofChar? = t) ∧
      (t = none → before.getLast?.bind Trim.ofChar? = none ∨ p.EndsNested inside before) := by
  intro inside before
  obtain ⟨used, more, close, hgets, -, hclose, hlength, rfl⟩ :=
    DelimPair.Gets.start.exists_end hend
  obtain ⟨htext, hdelim⟩ := DelimPair.closing_text hclose
  have hsize : close.size = p.closing.length + Trim.width close.trim := by
    unfold Closing.size
    rw [hdelim]
  rw [List.length_nil, Nat.zero_add] at hlength
  -- The inside up to the closing delimiter is what the scanner passed and the modifier.
  have hinside : inside.take n = used ++ Trim.text close.trim ++ p.closing.text := by
    show (rest.drop o.size).take n = _
    rw [hgets.text, ← hlength, List.take_length_add_append, htext, List.append_assoc]
  have hbefore : before = used ++ Trim.text close.trim := by
    have hmin : n - p.closing.length = min (n - p.closing.length) n := by omega
    show inside.take (n - p.closing.length) = _
    rw [hmin, ← List.take_take, hinside]
    refine List.take_left' ?_
    rw [List.length_append, Trim.length_text]
    omega
  have hopening : d.openingAt (rest.take (o.size + n)) = some o :=
    openingAt_take ho (Nat.le_add_right _ _)
  refine ⟨?_, fun hsome => ?_, fun hnone => ?_⟩
  · have hinner : ((rest.take (o.size + n)).take
        ((rest.take (o.size + n)).length - p.closing.length)).drop o.size = before := by
      have hall : rest.take (o.size + n) = rest.take o.size ++ (before ++ p.closing.text) := by
        rw [List.take_add, hbefore, ← hinside]
      rw [hall, ← List.append_assoc, List.length_append, Delim.length_text, Nat.add_sub_cancel,
        List.take_left]
      exact List.drop_left' (length_take_of_openingAt ho)
    unfold commentTrims commentClosing
    rw [hopening, hp]
    show Trims.mk o.trim _ = _
    rw [if_pos rfl]
    exact congrArg (fun inner => Trims.mk o.trim (inner.getLast?.bind Trim.ofChar?)) hinner
  · rw [hbefore]
    cases htrim : close.trim with
    | none => exact absurd htrim hsome
    | some w =>
      rw [show Trim.text (some w) = [w.toChar] from rfl, List.getLast?_concat]
      exact Trim.ofChar?_toChar w
  · rw [hbefore, hnone]
    rw [show used ++ Trim.text none = used from List.append_nil used]
    exact hgets.cases_before hclose hnone

end Delims

/-- The modifiers and the place of a comment. -/
def Node.comment? : Node → Option (Trims × Span)
  | comment trims span => some (trims, span)
  | _ => none

theorem Node.eq_comment {n : Node} {trims : Trims} {span : Span}
    (h : n.comment? = some (trims, span)) : n = .comment trims span := by
  cases n with
  | comment trims' span' => cases h; rfl
  | _ => cases h

namespace Region

variable {s : Settings} {lx next : Lexer} {r : Region} {trims : Trims} {span : Span}

/-- A comment is read behind its opening delimiter: up to its end, or up to the end of the source with a
    complaint. -/
theorem Turn.of_comment [Letters] (h : Turn s lx r next) (hout : lx.inTag = false)
    (hn : r.node = some (.comment trims span)) :
    ∃ o, s.delims.openingAt lx.rest = some o ∧ o.kind = .comment ∧
      ((∃ n, s.delims.commentMore (lx.rest.drop o.size) = some n ∧
          trims = s.delims.commentTrims (lx.rest.take (o.size + n)) true ∧
          span = lx.spanOf (o.size + n)) ∨
        s.delims.commentMore (lx.rest.drop o.size) = none ∧
          trims = s.delims.commentTrims lx.rest false ∧ span = lx.spanOf lx.rest.length ∧
          r.diagnostic = some ⟨.unclosedComment, lx.spanOf o.size⟩) := by
  cases h with
  | @fault diagnostic next h =>
    cases (Lexer.refuses_of_step h).outside hout with
    | @comment o hm hr ho hk hc =>
      refine ⟨o, ho, hk, .inr ⟨hc, ?_⟩⟩
      simp only [ofFault] at hn
      split at hn <;> cases hn
      exact ⟨rfl, rfl, rfl⟩
    | raw hm =>
      simp only [ofFault] at hn
      split at hn <;> cases hn
  | @tag l kind inside h hl =>
    cases hbody : body s.limit kind (feedOf s l inside) with
    | ok result =>
      obtain ⟨⟨b, closing⟩, rest⟩ := result
      rw [readTag_of_ok hbody] at hn
      cases b <;> cases hn
    | error e =>
      rw [readTag_of_error hbody] at hn
      cases hn
  | @lexeme l next h hl =>
    cases (Lexer.emits_of_step h).outside hout hl with
    | @comment o n hm hr ho hk hc =>
      cases hn
      exact ⟨o, ho, hk, .inl ⟨n, hc, rfl, rfl⟩⟩
    | content hm => cases hn
    | raw hm => cases hn

end Region

namespace Template

/-- The place and the opening modifier of a comment are those that the scanner finds, for all
    delimiters.  So is its closing modifier, with one exception: where a nested comment ends directly
    before a closing delimiter without a modifier, and closing delimiters end in the character of a
    modifier, that modifier is recorded.  A comment that the scanner finds no end of is reported. -/
theorem comment_modifiers [Letters] (s : Settings) (source : String) (n : Node) (trims : Trims) (span : Span)
    (hn : n ∈ (s.parse source).template.nodes) (hcomment : n.comment? = some (trims, span)) :
    ∃ front rest o p, source.toList = front ++ rest ∧ byteLen front = span.start ∧
      s.delims.openingAt rest = some o ∧ o.kind = .comment ∧ s.delims.comment = some p ∧
      trims.opening = o.trim ∧
      let inside := rest.drop o.size
      (∀ k t, p.commentEnd 0 inside = some (k, t) →
        span.stop = span.start + byteLen (rest.take (o.size + k)) ∧
        let before := inside.take (k - p.closing.length)
        trims.closing = before.getLast?.bind Trim.ofChar? ∧
        (trims.closing ≠ t ↔ t = none ∧ p.EndsNested inside before ∧
          p.closing.text.getLast?.bind Trim.ofChar? ≠ none)) ∧
      (p.commentEnd 0 inside = none → trims.closing = none ∧ span.stop = source.utf8ByteSize ∧
        ⟨.unclosedComment, ⟨span.start, span.start + byteLen (rest.take o.size)⟩⟩ ∈
          (s.parse source).diagnostics) := by
  obtain rfl := Node.eq_comment hcomment
  obtain ⟨r, hr, hnode⟩ := List.mem_filterMap.1 hn
  obtain ⟨before, after, hsplit⟩ := List.append_of_mem hr
  obtain ⟨used, lx, next, hreach, hout, hturn⟩ := exists_turn_of_split hsplit
  obtain ⟨o, ho, hk, hread⟩ := hturn.of_comment hout hnode
  obtain ⟨p, hp, hdelim, -⟩ := Delims.opening_text ho hk
  have hsource : source.toList = used ++ lx.rest := hreach.text
  have hpos : lx.pos = byteLen used := by
    rw [hreach.pos]
    exact Nat.zero_add _
  have hmore : s.delims.commentMore (lx.rest.drop o.size) =
      (p.commentEnd 0 (lx.rest.drop o.size)).map (·.1) := by
    unfold Delims.commentMore
    rw [show s.delims.comment = some p from hp]
    rfl
  rw [hmore] at hread
  rcases hread with ⟨k, hk', rfl, rfl⟩ | ⟨hnone, rfl, rfl, hreport⟩
  · -- The scanner finds the end of the comment.
    obtain ⟨⟨k', t⟩, hend, rfl⟩ := Option.map_eq_some_iff.1 hk'
    obtain ⟨htrims, hsome, hnone⟩ := Delims.commentTrims_of_end hp ho hend
    refine ⟨used, lx.rest, o, p, hsource, hpos.symm, ho, hk, hp, by rw [htrims], ?_, ?_⟩
    · intro k t' hend'
      rw [hend] at hend'
      cases hend'
      refine ⟨rfl, by rw [htrims], ?_⟩
      rw [htrims]
      constructor
      · intro hne
        cases t with
        | some w => exact absurd (hsome (Option.some_ne_none w)) hne
        | none =>
          have hnested := (hnone rfl).resolve_left hne
          exact ⟨rfl, hnested, by rw [← hnested.getLast?]; exact hne⟩
      · rintro ⟨rfl, hnested, hlast⟩
        rw [← hnested.getLast?] at hlast
        exact hlast
    · intro hnone'
      rw [hend] at hnone'
      cases hnone'
  · -- The comment goes on to the end of the source.
    have hend : p.commentEnd 0 (lx.rest.drop o.size) = none := Option.map_eq_none_iff.1 hnone
    refine ⟨used, lx.rest, o, p, hsource, hpos.symm, ho, hk, hp, ?_, ?_, fun _ => ⟨rfl, ?_, ?_⟩⟩
    · unfold Delims.commentTrims
      rw [ho]
      rfl
    · intro k t hend'
      rw [hend] at hend'
      cases hend'
    · show lx.pos + byteLen (lx.rest.take lx.rest.length) = _
      rw [List.take_length, hpos, utf8ByteSize_eq, hsource, byteLen_append]
    · exact List.mem_filterMap.2 ⟨r, hr, hreport⟩

/-- The comment in a comment has its modifiers where the scanner finds them. -/
theorem nested_comment_modifiers :
    let source := "\x7b#- a \x7b# b -#\x7d c ~#\x7d"
    ∃ n ∈ (parse source).template.nodes,
      n.comment? = some (⟨some .suppress, some .minimize⟩, ⟨0, 20⟩) ∧
      ∃ front rest o p, source.toList = front ++ rest ∧ byteLen front = 0 ∧
        Delims.standard.openingAt rest = some o ∧ o.kind = .comment ∧
        Delims.standard.comment = some p ∧ some .suppress = o.trim ∧
        let inside := rest.drop o.size
        (∀ k t, p.commentEnd 0 inside = some (k, t) →
          20 = 0 + byteLen (rest.take (o.size + k)) ∧
          let before := inside.take (k - p.closing.length)
          some .minimize = before.getLast?.bind Trim.ofChar? ∧
          (some .minimize ≠ t ↔ t = none ∧ p.EndsNested inside before ∧
            p.closing.text.getLast?.bind Trim.ofChar? ≠ none)) ∧
        (p.commentEnd 0 inside = none → (some Trim.minimize = none) ∧ 20 = source.utf8ByteSize ∧
          ⟨.unclosedComment, ⟨0, 0 + byteLen (rest.take o.size)⟩⟩ ∈ (parse source).diagnostics) := by
  intro source
  have hfound : (parse source).template.nodes.any (fun n =>
      n.comment? == some (⟨some .suppress, some .minimize⟩, ⟨0, 20⟩)) = true := by
    decide +kernel
  obtain ⟨n, hn, hcomment⟩ := List.any_eq_true.1 hfound
  rw [beq_iff_eq] at hcomment
  exact ⟨n, hn, hcomment, comment_modifiers Settings.standard source n _ _ hn hcomment⟩

/-- With closing delimiters that end in a minus sign, the end of a nested comment is taken for the
    modifier of the comment around it, though the scanner finds none there. -/
theorem nested_end_taken_for_modifier :
    let pair : DelimPair := ⟨⟨'\x7b', ['#']⟩, ⟨'#', ['-']⟩⟩
    let parsed := Settings.parse ⟨⟨none, none, some pair⟩, 64⟩ "\x7b#\x7b##-#-"
    (∃ n ∈ parsed.template.nodes, n.comment? = some (⟨none, some .suppress⟩, ⟨0, 8⟩)) ∧
      parsed.diagnostics = [] ∧ pair.commentEnd 0 "\x7b##-#-".toList = some (6, none) := by
  decide +kernel

end Template

end Stencil
