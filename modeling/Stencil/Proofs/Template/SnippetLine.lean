/-
  SnippetLine — what a snippet shows of a source.

  A snippet cuts the source at offsets that it computes from a span: where the line begins, where the
  shown line ends, where the underline ends.  A span may be empty, stand on a line break or among the
  carriage returns before it, go over several lines, or lie at the end of the source.  Whatever it is,
  if it is the span of a piece of the source, each of the offsets falls between characters
  (`Excerpt.of?_of_isPiece`): the underline ends where the piece does or where the shown line does, and
  both are ends of pieces that begin at the fault.

  `LineAround` tells the line of an offset by the source alone: the longest text around it without a
  line break.  The shown line is that line without the carriage returns at its end.  The part before
  the fault is taken from the whole line, so among these returns it goes on behind the shown one.

  What is printed of an excerpt is three lines behind an empty one (`render?_eq`).  How
  many columns a text takes is left open throughout.  There is one thing that a snippet depends on
  besides the cuts: the columns up to the end of the underline have to fit in a field.
-/
import Stencil.Diagnostic.Snippet
import Stencil.Proofs.Balance.Report
import Stencil.Proofs.Template.Diagnostics
import Stencil.Proofs.Template.RawBlock

namespace Stencil

/-! ## Lines -/

section

variable (cs : List Char)

/-- The first line of a text ends with the text or before a line break. -/
theorem dropWhile_line :
    cs.dropWhile (· ≠ '\n') = [] ∨ (cs.dropWhile (· ≠ '\n')).head? = some '\n' := by
  induction cs with
  | nil => exact .inl rfl
  | cons c cs ih =>
    by_cases hc : c = '\n'
    · exact .inr (by simp [hc])
    · rw [List.dropWhile_cons_of_pos (by simpa using hc)]
      exact ih

theorem not_mem_takeWhile_line : '\n' ∉ cs.takeWhile (· ≠ '\n') := by
  intro hmem
  have hne := List.mem_takeWhile_imp hmem
  simp at hne

/-- The last line of a text begins with the text or behind a line break. -/
theorem exists_lastLine : ∃ above, cs = above ++ lastLine cs ∧ '\n' ∉ lastLine cs ∧
    (above = [] ∨ above.getLast? = some '\n') := by
  refine ⟨(cs.reverse.dropWhile (· ≠ '\n')).reverse, ?_, ?_, ?_⟩
  · rw [lastLine, ← List.reverse_append, List.takeWhile_append_dropWhile, List.reverse_reverse]
  · rw [lastLine, List.mem_reverse]
    exact not_mem_takeWhile_line cs.reverse
  · rw [List.reverse_eq_nil_iff, List.getLast?_reverse]
    exact dropWhile_line cs.reverse

/-- Only carriage returns are dropped from the end of a line. -/
theorem exists_dropReturns : ∃ n, cs = dropReturns cs ++ List.replicate n '\r' := by
  have hreturns : cs.reverse.takeWhile (· = '\r') =
      List.replicate (cs.reverse.takeWhile (· = '\r')).length '\r' :=
    List.eq_replicate_of_mem fun c hc => by simpa using List.mem_takeWhile_imp hc
  refine ⟨(cs.reverse.takeWhile (· = '\r')).length, ?_⟩
  rw [dropReturns, ← List.reverse_replicate, ← hreturns, ← List.reverse_append,
    List.takeWhile_append_dropWhile, List.reverse_reverse]

/-- No carriage return is left at the end of a line. -/
theorem getLast?_dropReturns : (dropReturns cs).getLast? ≠ some '\r' := by
  rw [dropReturns, List.getLast?_reverse]
  intro hhead
  have hnot := List.head?_dropWhile_not (fun c => decide (c = '\r')) cs.reverse
  rw [hhead] at hnot
  simp at hnot

end

/-- The line of the source at the offset `p`: `before` and `after` together are the longest text around
    the offset without a line break, with `above` in front of it and `below` behind it. -/
structure LineAround (source : List Char) (p : Nat) (above before after below : List Char) :
    Prop where
  text : source = above ++ (before ++ after) ++ below
  place : byteLen (above ++ before) = p
  noBreak : '\n' ∉ before ++ after
  begins : above = [] ∨ above.getLast? = some '\n'
  ends : below = [] ∨ below.head? = some '\n'

theorem lineAround_append (front back : List Char) :
    ∃ above, front = above ++ lastLine front ∧
      LineAround (front ++ back) (byteLen front) above (lastLine front)
        (back.takeWhile (· ≠ '\n')) (back.dropWhile (· ≠ '\n')) := by
  obtain ⟨above, hfront, hnot, hbegins⟩ := exists_lastLine front
  refine ⟨above, hfront, ?_, by rw [← hfront], ?_, hbegins, dropWhile_line back⟩
  · rw [← List.append_assoc above, ← hfront, List.append_assoc, List.takeWhile_append_dropWhile]
  · rw [List.mem_append]
    exact not_or.2 ⟨hnot, not_mem_takeWhile_line back⟩

/-! ## Excerpts -/

/-- The excerpt shows the line of the source where the span starts, with `above`, `after` and `below`
    the texts around what it shows. -/
structure Excerpt.Shows (x : Excerpt) (source : List Char) (span : Span)
    (above after below : List Char) : Prop
    extends LineAround source span.start above x.before after below where
  number : x.number = 1 + (above ++ x.before).count '\n'
  /-- The line is shown without the carriage returns at its end. -/
  line : ∃ n, x.before ++ after = x.line ++ List.replicate n '\r'
  noReturn : x.line.getLast? ≠ some '\r'
  /-- The part before the fault is the front of the shown line, unless the fault starts among these
      returns; then it is the shown line and some of them. -/
  lead : x.before <+: x.line ∨ ∃ n, x.before = x.line ++ List.replicate n '\r'
  /-- The underlined text is what the span covers up to the end of the shown line. -/
  marked : slice? ⟨span.start, max span.start (min span.stop (byteLen (above ++ x.line)))⟩ source =
    some x.marked
  /-- Behind the shown line nothing is underlined, but there is one caret all the same. -/
  nothing : byteLen (above ++ x.line) ≤ span.start →
    x.marked = [] ∧ ∀ columns : Columns, max 1 (columns.of x.marked) = 1

namespace Excerpt

variable {front piece rest line before after cs : List Char}

/-- A text that goes on within carriage returns. -/
theorem lead_of_append {n : Nat} (h : before ++ after = line ++ List.replicate n '\r') :
    before <+: line ∨ ∃ m, before = line ++ List.replicate m '\r' := by
  rcases List.append_eq_append_iff.1 h with ⟨m, hline, -⟩ | ⟨m, hbefore, hreturns⟩
  · exact .inl ⟨m, hline.symm⟩
  · refine .inr ⟨m.length, ?_⟩
    rw [hbefore]
    congr 1
    refine List.eq_replicate_of_mem fun c hc => ?_
    exact List.eq_of_mem_replicate (by rw [hreturns]; exact List.mem_append_left after hc)

/-- Of two pieces with the same start the shorter one ends where both lengths allow. -/
theorem exists_cut {a b : List Char} (ha : a <+: cs) (hb : b <+: cs) :
    ∃ m, m <+: cs ∧ byteLen m = min (byteLen a) (byteLen b) := by
  rcases Nat.le_total (byteLen a) (byteLen b) with hle | hle
  · exact ⟨a, ha, (Nat.min_eq_left hle).symm⟩
  · exact ⟨b, hb, (Nat.min_eq_right hle).symm⟩

/-- The shown line ends at a place of the text behind the fault, or before the fault. -/
theorem exists_lineEnd {n : Nat} (h : before ++ after = line ++ List.replicate n '\r') :
    ∃ m, m <+: after ∧ byteLen m = byteLen line - byteLen before := by
  rcases List.append_eq_append_iff.1 h with ⟨m, rfl, rfl⟩ | ⟨m, rfl, hreturns⟩
  · exact ⟨m, List.prefix_append _ _, by rw [byteLen_append, Nat.add_sub_cancel_left]⟩
  · exact ⟨[], List.nil_prefix, by rw [byteLen_append]; simp⟩

/-- The span of a piece of a source has an excerpt, which shows the line where the piece begins. -/
theorem of?_of_isPiece {source : List Char} {span : Span} (h : span.IsPiece 0 source) :
    ∃ x above after below, of? source span = some x ∧ x.Shows source span above after below := by
  obtain ⟨front, piece, rest, rfl, rfl⟩ := h
  rw [Nat.zero_add, Nat.zero_add, List.append_assoc]
  obtain ⟨above, hfront, hline⟩ := lineAround_append front (piece ++ rest)
  generalize hbefore : lastLine front = before at hfront hline
  generalize hafter : (piece ++ rest).takeWhile (· ≠ '\n') = after at hline
  obtain ⟨n, hreturns⟩ := exists_dropReturns (before ++ after)
  have hnoReturn := getLast?_dropReturns (before ++ after)
  generalize hshown : dropReturns (before ++ after) = line at hreturns hnoReturn
  obtain ⟨m, hm, hmlen⟩ := exists_lineEnd hreturns
  have hwithin : m <+: piece ++ rest := hm.trans (hafter ▸ List.takeWhile_prefix _)
  obtain ⟨marked, ⟨tail, hmarked⟩, hlen⟩ := exists_cut (List.prefix_append piece rest) hwithin
  have hstart : byteLen front = byteLen above + byteLen before := by rw [hfront, byteLen_append]
  have hend : byteLen front - byteLen before + byteLen line = byteLen (above ++ line) := by
    rw [byteLen_append]
    omega
  have hcut : min (byteLen (front ++ piece)) (byteLen (above ++ line)) - byteLen front =
      byteLen marked := by
    rw [byteLen_append, byteLen_append]
    omega
  refine ⟨⟨front.count '\n' + 1, line, before, marked⟩, above, after, _, ?_,
    hline, ?_, ⟨n, hreturns⟩, hnoReturn, lead_of_append hreturns, ?_, ?_⟩
  · have hsplit := splitAtByte?_append marked tail
    rw [hmarked] at hsplit
    simp only [of?, splitAtByte?_append, hbefore, hafter, hshown, hend, hcut, hsplit,
      Option.bind_eq_bind, Option.bind_some]
  · rw [← hfront]
    exact Nat.add_comm _ _
  · rw [← hmarked]
    have hstop : max (byteLen front) (min (byteLen (front ++ piece)) (byteLen (above ++ line))) =
        byteLen front + byteLen marked := by omega
    rw [hstop]
    exact slice?_append front marked tail
  · intro hle
    obtain rfl : marked = [] := by
      by_contra hne
      have hpos := byteLen_pos hne
      change byteLen (above ++ line) ≤ byteLen front at hle
      omega
    exact ⟨rfl, fun columns => by rw [columns.nil]; rfl⟩

/-! ## What is printed -/

/-- A text that fits in its field has blanks in front, as many as the field is wider. -/
theorem flushRight?_rowOf (indent carets : Nat) :
    flushRight? (indent + carets) (rowOf '^' carets) =
      if indent + carets ≤ widestField then some (rowOf ' ' indent ++ rowOf '^' carets) else none := by
  have hlength : (rowOf '^' carets).length = carets := by
    rw [rowOf, String.length_ofList, List.length_replicate]
  rw [flushRight?, hlength, Nat.add_sub_cancel]

/-- An excerpt is printed on three lines behind an empty one, a bar on each: a line that holds the bar
    alone, the numbered line of the source, and the underline with the wording. -/
theorem render?_eq (columns : Columns) (x : Excerpt) (message : String) :
    x.render? columns message =
      let gutter := " " ++ rowOf ' ' x.number.repr.length ++ " |"
      let carets := max 1 (columns.of x.marked)
      if columns.of x.before + carets ≤ widestField then
        some ("\n" ++ gutter ++ "\n" ++
          (" " ++ x.number.repr ++ " | " ++ String.ofList x.line) ++ "\n" ++
          (gutter ++ " " ++ rowOf ' ' (columns.of x.before) ++ rowOf '^' carets ++ " " ++ message) ++ "\n")
      else none := by
  unfold render?
  dsimp only
  rw [flushRight?_rowOf]
  split
  · have hnewline : "\n " = "\n" ++ " " := rfl
    have hbar : " |\n " = " |" ++ "\n" ++ " " := rfl
    have hbar' : " | " = " |" ++ " " := rfl
    simp only [hnewline, hbar, hbar', Option.bind_eq_bind, Option.bind_some, Option.pure_def, String.append_assoc]
  · rfl

end Excerpt

namespace Template

/-! ## A line that is too long -/

/-- Blanks do not begin a delimiter, so the next one is found behind them. -/
theorem findOpening_blanks (n : Nat) {rest : List Char} {o : Opening}
    (h : Delims.standard.findOpening rest = some (0, o)) :
    Delims.standard.findOpening (List.replicate n ' ' ++ rest) = some (n, o) := by
  induction n with
  | zero => exact h
  | succ n ih =>
    have hblank : Delims.standard.mayOpen ' ' = false := by decide
    rw [List.replicate_succ, List.cons_append, Delims.findOpening, hblank]
    simp only [Bool.false_eq_true, if_false, ih, Option.map_some]

/-- A row of blanks takes as many columns as it has characters. -/
theorem columns_blanks (n : Nat) : Columns.standard.of (List.replicate n ' ') = n := by
  have hmeasure : ∀ n : Nat, Width.measure (List.replicate n ' ') = ((n : Int), .other) := by
    intro n
    induction n with
    | zero => rfl
    | succ n ih =>
      rw [List.replicate_succ, Width.measure, ih]
      rfl
  show (Width.measure _).1.toNat = n
  rw [hmeasure]
  exact Int.toNat_natCast n

/-- A control tag that has to be closed. -/
def branchTag : List Char := ['{', '%', ' ', 'i', 'f', ' ', 'a', ' ', '%', '}']

/-- The source in which a control tag is left open behind a row of blanks. -/
def openBehind (n : Nat) : String := String.ofList (List.replicate n ' ' ++ branchTag)

theorem byteLen_blanks (n : Nat) : byteLen (List.replicate n ' ') = n := by
  rw [byteLen_eq_length fun c hc => by rw [List.eq_of_mem_replicate hc]; rfl, List.length_replicate]

/-- Behind the blanks the source is read as if it began there. -/
theorem regions_blanks [Letters] (n : Nat) {rest : List Char} {o : Opening}
    (h : Delims.standard.findOpening rest = some (0, o)) :
    ∃ text span, regions .standard (Lexer.start (List.replicate (n + 1) ' ' ++ rest)) =
      ⟨some (.content text span), none⟩ :: move (· + (n + 1)) (regions .standard (Lexer.start rest)) := by
  obtain ⟨lx, hlx⟩ : ∃ lx, lx = Lexer.start (List.replicate (n + 1) ' ' ++ rest) := ⟨_, rfl⟩
  have hrest : lx.rest = ' ' :: (List.replicate n ' ' ++ rest) := by rw [hlx]; rfl
  have hopen : Delims.standard.openingAt lx.rest = none := by
    rw [hrest]
    exact Delims.openingAt_eq_none_of_mayOpen (by decide)
  have hlength : Delims.standard.contentLength (List.replicate n ' ' ++ rest) = n := by
    rw [Delims.contentLength, findOpening_blanks n h]
  have hstep := Lexer.step_of_emits (.content (by rw [hlx]; rfl) hrest hopen)
  have hturn : Region.Turn .standard lx _ _ := .lexeme hstep rfl
  have hplace : lx.advance (Delims.standard.contentLength (List.replicate n ' ' ++ rest) + 1) .template =
      move (· + (n + 1)) (Lexer.start rest) := by
    have htake : lx.rest.take (n + 1) = List.replicate (n + 1) ' ' := by
      rw [hlx]
      exact List.take_left' (List.length_replicate ..)
    have hdrop : lx.rest.drop (n + 1) = rest := by
      rw [hlx]
      exact List.drop_left' (List.length_replicate ..)
    rw [hlength, Lexer.advance, htake, hdrop, byteLen_blanks, hlx]
    rfl
  refine ⟨String.ofList (lx.rest.take (n + 1)), lx.spanOf (n + 1), ?_⟩
  rw [← hlx, hturn.regions_eq, hplace, regions_shift _ _ _ rfl, hlength]
  rfl

/-- The place of a tag that opens a conditional. -/
def branchAt? : Node → Option Span
  | .tag ⟨.ifCond _, _⟩ _ place => some place
  | _ => none

theorem exists_branch {n : Node} {place : Span} (h : branchAt? n = some place) :
    ∃ c inner trims, n = .tag ⟨.ifCond c, inner⟩ trims place := by
  unfold branchAt? at h
  split at h
  · cases h
    exact ⟨_, _, _, rfl⟩
  · cases h

/-- The tag is left open, and it begins behind the blanks. -/
theorem validate_openBehind (n : Nat) :
    (parse (openBehind (n + 1))).validate = [⟨.unbalanced (.unclosed .ifCond), ⟨n + 1, n + 11⟩⟩] := by
  obtain ⟨o, ho⟩ : ∃ o, Delims.standard.findOpening branchTag = some (0, o) := ⟨_, rfl⟩
  obtain ⟨text, span, hregions⟩ := regions_blanks n ho
  -- Read alone, the tag is one statement over ten bytes.
  have halone : (regions .standard (Lexer.start branchTag)).map (·.node.bind branchAt?) = [some ⟨0, 10⟩] := by
    decide +kernel
  obtain ⟨r, hr, hplace⟩ := List.map_eq_singleton_iff.1 halone
  obtain ⟨node, hnode, hbranch⟩ := Option.bind_eq_some_iff.1 hplace
  obtain ⟨c, place, trims, rfl⟩ := exists_branch hbranch
  have hnodes : (parse (openBehind (n + 1))).template.nodes =
      [.content text span, move (· + (n + 1)) (.tag ⟨.ifCond c, place⟩ trims ⟨0, 10⟩)] := by
    show (regions .standard (Lexer.start (openBehind (n + 1)).toList)).filterMap (·.node) = _
    rw [openBehind, String.toList_ofList, hregions, hr]
    show (_ :: (move (· + (n + 1)) r.node).toList) = _
    rw [hnode]
    rfl
  rw [Parsed.validate, validate_eq, hnodes]
  show [Diagnostic.mk (.unbalanced (.unclosed .ifCond)) ⟨0 + (n + 1), 10 + (n + 1)⟩] = _
  rw [Nat.zero_add, Nat.add_comm 10, Nat.add_assoc]

/-- The excerpt for the tag is the whole source, which is one line. -/
theorem excerpt_openBehind (n : Nat) :
    Excerpt.of? (openBehind n).toList ⟨n, n + 10⟩ =
      some ⟨1, (openBehind n).toList, List.replicate n ' ', branchTag⟩ := by
  have hsource : (openBehind n).toList = List.replicate n ' ' ++ branchTag := String.toList_ofList
  have hsplit := splitAtByte?_append (List.replicate n ' ') branchTag
  rw [byteLen_blanks] at hsplit
  have hline : lastLine (List.replicate n ' ') = List.replicate n ' ' := by
    have hall : ∀ c ∈ List.replicate n ' ', decide (c ≠ '\n') = true := fun c hc => by
      rw [List.eq_of_mem_replicate hc]
      rfl
    rw [lastLine, List.reverse_replicate, List.takeWhile_eq_self_iff.2 hall, List.reverse_replicate]
  have hback : branchTag.takeWhile (· ≠ '\n') = branchTag := rfl
  have hreturns : dropReturns (List.replicate n ' ' ++ branchTag) = List.replicate n ' ' ++ branchTag := by
    have hlast : ∀ cs : List Char, (branchTag.reverse ++ cs).dropWhile (· = '\r') = branchTag.reverse ++ cs :=
      fun _ => rfl
    rw [dropReturns, List.reverse_append, hlast, ← List.reverse_append, List.reverse_reverse]
  have hcount : (List.replicate n ' ').count '\n' = 0 :=
    List.count_eq_zero.2 fun hmem => absurd (List.eq_of_mem_replicate hmem) (by decide)
  have hend : min (n + 10) (n - n + byteLen (List.replicate n ' ' ++ branchTag)) - n = 10 := by
    have hten : byteLen branchTag = 10 := rfl
    rw [byteLen_append, byteLen_blanks, hten]
    omega
  have hmarked : splitAtByte? 10 branchTag = some (branchTag, []) := rfl
  rw [hsource, Excerpt.of?, hsplit]
  simp only [Option.bind_eq_bind, Option.bind_some, hline, byteLen_blanks, hback, hreturns, hend, hmarked, hcount]

/-- The underline goes from column `n + 1` to column `n + 11`. -/
theorem pretty?_openBehind {n : Nat} {fault : Fault} (hn : 65525 ≤ n) :
    (Diagnostic.mk fault ⟨n + 1, n + 11⟩).pretty? (openBehind (n + 1)) = none := by
  have hexcerpt : Excerpt.of? (openBehind (n + 1)).toList ⟨n + 1, n + 11⟩ = some _ := excerpt_openBehind (n + 1)
  have hne : ¬(openBehind (n + 1)).isEmpty = true := by
    rw [String.isEmpty_iff, ← String.toList_inj, openBehind, String.toList_ofList]
    exact List.cons_ne_nil _ _
  have hmarked : Columns.standard.of branchTag = 10 := by decide
  rw [Diagnostic.pretty?, Diagnostic.prettyIn?, if_neg hne, Diagnostic.snippetIn?, hexcerpt]
  simp only [Option.bind_eq_bind, Option.bind_some, Excerpt.render?_eq, columns_blanks, hmarked]
  exact if_neg (by unfold widestField; omega)

/-! ## The diagnostics of a source -/

/-- What is wrong with a source or with the nesting of its control tags is about a piece of it. -/
theorem isPiece_of_mem [Letters] {s : Settings} {source : String} {e : Diagnostic}
    (he : e ∈ (s.parse source).diagnostics ++ (s.parse source).validate) :
    e.span.IsPiece 0 source.toList := by
  rcases List.mem_append.1 he with hmem | hmem
  · exact (account_regions s source (Lexer.start source.toList) rfl [] rfl rfl).pieces e hmem
  · rw [Parsed.validate, validate_eq] at hmem
    rcases Balance.span_of_mem_check hmem with hplace | ⟨o, ho, -⟩
    · obtain ⟨⟨k, span⟩, hrow, rfl⟩ := List.mem_map.1 hplace
      obtain ⟨n, hn, hstmt⟩ := List.mem_filterMap.1 hrow
      obtain ⟨before, piece, after, hsource, hspan, -⟩ := (covering_parse s source).piece_of_mem hn
      refine ⟨before, piece, after, hsource, ?_⟩
      rw [← hspan]
      cases n with
      | tag t trims place =>
        cases hstmt
        rfl
      | _ => cases hstmt
    · cases ho

/-- Every diagnostic of a source that is not empty, be it about the source or about the nesting of its
    control tags, can be shown against it, under all settings and however many columns texts take.  The
    line shown has the number of the line where the fault starts and is that line, the longest text
    around the start of the fault without a line break, less the carriage returns at its end.  The
    underline begins behind what stands in that line before the fault, and covers the text under the span
    up to the end of the shown line.  Nothing is printed exactly if it would end beyond the widest field. -/
theorem snippets_show_line [Letters] (columns : Columns) (s : Settings) (source : String) (hne : source ≠ "")
    (e : Diagnostic) (he : e ∈ (s.parse source).diagnostics ++ (s.parse source).validate) :
    ∃ (x : Excerpt) (above after below : List Char),
      Excerpt.of? source.toList e.span = some x ∧
      x.Shows source.toList e.span above after below ∧
      let number := (1 + (above ++ x.before).count '\n').repr
      let gutter := " " ++ rowOf ' ' number.length ++ " |"
      let indent := columns.of x.before
      let carets := max 1 (columns.of x.marked)
      e.prettyIn? columns source =
        if indent + carets ≤ 65535 then
          some ("\n" ++ gutter ++ "\n" ++
            (" " ++ number ++ " | " ++ String.ofList x.line) ++ "\n" ++
            (gutter ++ " " ++ rowOf ' ' indent ++ rowOf '^' carets ++ " " ++ e.message) ++ "\n")
        else none := by
  obtain ⟨x, above, after, below, hx, hshows⟩ := Excerpt.of?_of_isPiece (isPiece_of_mem he)
  refine ⟨x, above, after, below, hx, hshows, ?_⟩
  have hnot : ¬source.isEmpty = true := by rwa [String.isEmpty_iff]
  have hprinted := x.render?_eq columns e.message
  rw [hshows.number] at hprinted
  rw [Diagnostic.prettyIn?, if_neg hnot, Diagnostic.snippetIn?, hx]
  exact hprinted

/-- A tag that the source ends in, behind a carriage return of the second line. -/
theorem snippet_behind_return :
    let source := "a\n\x7b\x7b b\r"
    source ≠ "" ∧ ∃ e ∈ (parse source).diagnostics ++ (parse source).validate, e.span = ⟨7, 7⟩ ∧
      ∃ (x : Excerpt) (above after below : List Char),
        Excerpt.of? source.toList e.span = some x ∧
        x.Shows source.toList e.span above after below ∧
        let number := (1 + (above ++ x.before).count '\n').repr
        let gutter := " " ++ rowOf ' ' number.length ++ " |"
        let indent := Columns.standard.of x.before
        let carets := max 1 (Columns.standard.of x.marked)
        e.prettyIn? .standard source =
          if indent + carets ≤ 65535 then
            some ("\n" ++ gutter ++ "\n" ++
              (" " ++ number ++ " | " ++ String.ofList x.line) ++ "\n" ++
              (gutter ++ " " ++ rowOf ' ' indent ++ rowOf '^' carets ++ " " ++ e.message) ++ "\n")
          else none := by
  intro source
  have hsource : source ≠ "" := by decide
  have hplace : ((parse source).diagnostics ++ (parse source).validate).any
      (fun e => e.span == ⟨7, 7⟩) = true := by
    decide +kernel
  obtain ⟨e, he, hspan⟩ := List.any_eq_true.1 hplace
  exact ⟨hsource, e, he, eq_of_beq hspan,
    snippets_show_line .standard Settings.standard source hsource e he⟩

/-- A control tag that is left open so far to the right that its underline would end behind column 65535: the
    complaint about it cannot be shown. -/
theorem far_fault_not_shown :
    let source := openBehind 65526
    source ≠ "" ∧ ∃ e ∈ (parse source).diagnostics ++ (parse source).validate,
      e.span = ⟨65526, 65536⟩ ∧ e.pretty? source = none := by
  have hvalidate := validate_openBehind 65525
  refine ⟨fun hempty => ?_, _, List.mem_append_right _ (hvalidate ▸ List.mem_singleton_self _), rfl,
    pretty?_openBehind (Nat.le_refl 65525)⟩
  have htext := congrArg String.toList hempty
  rw [openBehind, String.toList_ofList] at htext
  cases htext

end Template

end Stencil
