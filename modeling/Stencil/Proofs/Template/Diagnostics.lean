/-
  Diagnostics — what is reported about a source, and the nodes it is reported about.

  A node fails if it is an error, or if it is a comment or the body of a raw block that never ends
  (`Node.isOpen`, which asks the text from the node on).  The failing nodes and the diagnostics go
  together one to one, in order.  There is one diagnostic without a node: a raw block whose body is
  empty because the source ends with its tag.

  `Told` says what one turn reports: nothing about a node that does not fail, one diagnostic about a
  node that does, and in that one case a diagnostic without a node.  The invariant of the run
  (`Account`) adds up the turns.  A diagnostic starts inside its node or where it ends, so the order of
  the nodes is the order of the diagnostics.  For the tags this is what `Reader.Blames` and
  `Lexer.piece_of_explains` are for: the end of an error node is only known when the rest of the tag
  has been skipped, long after the complaint was made.
-/
import Mathlib.Data.List.Forall2
import Stencil.Proofs.Lexer.Refusal
import Stencil.Proofs.Template.Cover
import Stencil.Proofs.Template.Exprs

namespace Stencil

/-! ## Failing nodes -/

namespace Node

/-- Whether the node, with `rest` the text from its start on, is a comment or the body of a raw block
    that never ends. -/
def isOpenAt (d : Delims) (rest : List Char) : Node → Bool
  | comment .. =>
    match d.openingAt rest with
    | some o => (d.commentMore (rest.drop o.size)).isNone
    | none => false
  | raw .. => (d.rawLength rest).isNone
  | _ => false

/-- Whether the node of the source is a comment or the body of a raw block that never ends. -/
def isOpen (d : Delims) (source : String) (n : Node) : Bool :=
  match splitAtByte? n.span.start source.toList with
  | some (_, rest) => n.isOpenAt d rest
  | none => false

/-- Whether something is wrong with the node of the source. -/
def fails (d : Delims) (source : String) (n : Node) : Bool := n.isError || n.isOpen d source

/-- Whether a raw block begins after the node. -/
def isRawTag : Node → Bool
  | tag stmt .. => stmt.isRaw
  | _ => false

/-- The diagnostic is one that the node can have: it starts in the node or where the node ends, and its
    fault is one of a comment, of a raw block or of a tag, as the node is. -/
structure Owns (n : Node) (e : Diagnostic) : Prop where
  start_le : n.span.start ≤ e.span.start
  le_stop : e.span.start ≤ n.span.stop
  fault : match n with
    | comment .. => e.fault = .unclosedComment
    | raw .. => e.fault = .unclosedRaw
    | _ => e.fault.isOfTag = true

end Node

/-- Whether a raw block begins after the last of the nodes; if there are none, whether it does where
    they would begin. -/
def Template.endsInRaw (begun : Bool) : List Node → Bool
  | [] => begun
  | n :: nodes => endsInRaw n.isRawTag nodes

/-- The report of a raw block whose body is empty because the source ends there. -/
def Diagnostic.emptyRaw (pos : Nat) : Diagnostic := ⟨.unclosedRaw, Span.point pos⟩

/-! ## One turn -/

namespace Region

/-- Reading the inside of a tag fails for a reason that the lexemes of the tag explain. -/
theorem body_blames [Letters] {whole : Feed} (hord : Orderly whole.lexemes) (limit : Nat) (kind : TagKind) :
    Reader.Blames whole (body limit kind) := by
  cases kind with
  | expr =>
    exact ((Reader.expr_blames hord limit).map Body.expr).bind fun b _ =>
      (Reader.expect_blames _).bind fun _ _ => .pure trivial
  | block =>
    exact ((Reader.stmt_blames hord limit).map Body.stmt).bind fun b _ =>
      (Reader.expect_blames _).bind fun _ _ => .pure trivial

/-- What a turn reports: a node that is fine, a node that fails with its diagnostic, or an empty raw
    block at the end of the source. -/
inductive Told (d : Delims) (lx next : Lexer) : Region → Prop
  | fine {n : Node} (herror : n.isError = false) (hopen : n.isOpenAt d lx.rest = false)
      (hmode : next.mode = .raw ↔ n.isRawTag = true) : Told d lx next ⟨some n, none⟩
  | failing {n : Node} {e : Diagnostic} (hfails : n.isError = true ∨ n.isOpenAt d lx.rest = true)
      (hlast : n.isOpenAt d lx.rest = true → next.rest = [])
      (hmode : next.mode = .template) (hraw : n.isRawTag = false)
      (howns : n.Owns e) (hpiece : e.span.IsPiece lx.pos lx.rest) :
      Told d lx next ⟨some n, some e⟩
  | emptyRaw (hm : lx.mode = .raw) (hr : lx.rest = []) (hmode : next.mode = .template) :
      Told d lx next ⟨none, some (.emptyRaw lx.pos)⟩

variable {s : Settings} {lx next : Lexer} {l : Lexeme} {r : Region}

theorem ofLexeme_told [Letters] (hout : lx.inTag = false) (h : lx.Emits s.delims l next)
    (hl : l.token.opens? = none) : Told s.delims lx next (ofLexeme s.delims l) := by
  cases h.outside hout hl with
  | content hm => exact .fine rfl rfl (iff_of_false Mode.noConfusion Bool.noConfusion)
  | comment hm hr ho hk hc =>
    refine .fine rfl ?_ (iff_of_false Mode.noConfusion Bool.noConfusion)
    simp only [Node.isOpenAt, ho, hc, Option.isNone_some]
  | raw hm hn =>
    refine .fine rfl ?_ (iff_of_false Mode.noConfusion Bool.noConfusion)
    simp only [Node.isOpenAt, hn, Option.isNone_some]

/-- Where text is left, going to the end of the source gets on. -/
theorem isEmpty_toEnd {mode : Mode} (hr : lx.rest ≠ []) :
    (Span.mk lx.pos (lx.advance lx.rest.length mode).pos).isEmpty = false := by
  have hpos := byteLen_pos hr
  have hnext : (lx.advance lx.rest.length mode).pos = lx.pos + byteLen lx.rest := by
    rw [Lexer.advance, List.take_length]
  have hne : lx.pos ≠ (lx.advance lx.rest.length mode).pos := by omega
  exact beq_false_of_ne hne

theorem ofFault_told [Letters] {e : Diagnostic} (hout : lx.inTag = false)
    (h : lx.Refuses s.delims e next) : Told s.delims lx next (ofFault s.delims lx next e) := by
  obtain ⟨hpiece, hle⟩ := h.piece
  cases h.outside hout with
  | comment hm hr ho hk hc =>
    have hopen : ∀ trims span, (Node.comment trims span).isOpenAt s.delims lx.rest = true := by
      intro trims span
      simp only [Node.isOpenAt, ho, hc, Option.isNone_none]
    simp only [ofFault, isEmpty_toEnd hr, Bool.false_eq_true, if_false]
    refine .failing (.inr (hopen _ _)) (fun _ => ?_) rfl rfl ⟨hpiece.le_start, hle, rfl⟩ hpiece
    exact List.drop_length
  | raw hm hn =>
    have hopen : ∀ text span, (Node.raw text span).isOpenAt s.delims lx.rest = true := by
      intro text span
      simp only [Node.isOpenAt, hn, Option.isNone_none]
    by_cases hr : lx.rest = []
    · have hpoint : lx.spanOf lx.rest.length = Span.point lx.pos := by
        rw [hr]
        rfl
      have hempty : (Span.mk lx.pos (lx.advance lx.rest.length .template).pos).isEmpty = true := by
        rw [Lexer.advance, hr]
        exact beq_self_eq_true _
      simp only [ofFault, hempty, if_true, hpoint]
      exact .emptyRaw hm hr rfl
    · simp only [ofFault, isEmpty_toEnd hr, Bool.false_eq_true, if_false]
      refine .failing (.inr (hopen _ _)) (fun _ => ?_) rfl rfl ⟨hpiece.le_start, hle, rfl⟩ hpiece
      exact List.drop_length

theorem isRawTag_toNode (b : Body) (trims : Trims) (span : Span) :
    (b.toNode trims span).isRawTag = b.isRaw := by
  cases b <;> rfl

theorem readTag_told [Letters] {kind : TagKind} (hout : lx.inTag = false) (h : lx.Emits s.delims l next)
    (hl : l.token.opens? = some kind) :
    Told s.delims lx (readTag s kind l next).2 (readTag s kind l next).1 := by
  obtain ⟨hm, hnext⟩ := mode_of_opening hout h hl
  obtain ⟨hreach, hspan⟩ := h.reaches
  have hraw : next.mode ≠ .raw := by rw [hnext]; exact Mode.noConfusion
  cases hbody : body s.limit kind (feedOf s l next) with
  | ok result =>
    obtain ⟨⟨b, closing⟩, rest⟩ := result
    have hfeed := Lexer.mode_feed_ne_raw (d := s.delims) hraw
    rw [readTag_of_ok hbody]
    refine .fine (by cases b <;> rfl) (by cases b <;> rfl) ?_
    rw [isRawTag_toNode]
    cases b.isRaw with
    | true => exact ⟨fun _ => rfl, fun _ => rfl⟩
    | false => exact ⟨fun hmode => absurd hmode hfeed, nofun⟩
  | error e =>
    have hord : Orderly (feedOf s l next).lexemes := orderly_feed hnext
    have hexplains := ((body_blames hord s.limit kind) _ (.refl _)).1 e hbody
    obtain ⟨hpiece, hle, htag⟩ := Lexer.piece_of_explains hnext hexplains
    obtain ⟨skipped, hskipped⟩ := Lexer.reaches_skipTag s.delims (next.feed s.delims).2.2
    have hpiece := hreach.piece hpiece
    rw [readTag_of_error hbody]
    refine .failing (.inl rfl) nofun (Lexer.mode_skipTag (Lexer.mode_feed_ne_raw hraw)) rfl
      ⟨?_, Nat.le_trans hle hskipped.pos_le, htag⟩ hpiece
    show l.span.start ≤ e.span.start
    rw [hspan]
    exact hpiece.le_start

theorem Turn.told [Letters] (h : Turn s lx r next) (hout : lx.inTag = false) : Told s.delims lx next r := by
  cases h with
  | fault h => exact ofFault_told hout (Lexer.refuses_of_step h)
  | tag h hl => exact readTag_told hout (Lexer.emits_of_step h) hl
  | lexeme h hl => exact ofLexeme_told hout (Lexer.emits_of_step h) hl

end Region

/-! ## Runs -/

namespace Template

/-- What is reported about the text `cs` of the source, which begins at the offset `p` and in the body
    of a raw block if `begun` says so. -/
structure Account (d : Delims) (source : String) (p : Nat) (begun : Bool) (cs : List Char)
    (nodes : List Node) (reports : List Diagnostic) : Prop where
  /-- One diagnostic for each failing node, and one more for an empty raw block at the end. -/
  owned : ∃ owned, List.Forall₂ Node.Owns (nodes.filter (Node.fails d source)) owned ∧
    reports = owned ++ if endsInRaw begun nodes then [.emptyRaw (p + byteLen cs)] else []
  /-- What never ends is followed by nothing. -/
  last : ∀ front n back, nodes = front ++ n :: back → n.isOpen d source = true → back = []
  pieces : ∀ e ∈ reports, e.span.IsPiece p cs
  sorted : reports.Pairwise fun a b => a.span.start ≤ b.span.start

theorem account_nil (d : Delims) (source : String) (p : Nat) :
    Account d source p false [] [] [] where
  owned := ⟨[], .nil, rfl⟩
  last := fun front n back h => by
    have := congrArg List.length h
    simp at this
  pieces := nofun
  sorted := .nil

/-- One node more in front, with its diagnostic if it fails. -/
theorem Account.cons {d : Delims} {source : String} {p : Nat} {used rest : List Char} {n : Node}
    {nodes : List Node} {reports : List Diagnostic}
    (h : Account d source (p + byteLen used) n.isRawTag rest nodes reports)
    (found : Option Diagnostic) (begun : Bool)
    (hspan : n.span = ⟨p, p + byteLen used⟩) (hfails : n.fails d source = found.isSome)
    (hlast : n.isOpen d source = true → nodes = [])
    (hfound : ∀ e ∈ found, n.Owns e ∧ e.span.IsPiece p (used ++ rest)) :
    Account d source p begun (used ++ rest) (n :: nodes) (found.toList ++ reports) where
  owned := by
    obtain ⟨owned, howned, hreports⟩ := h.owned
    have hend : p + byteLen (used ++ rest) = p + byteLen used + byteLen rest := by
      rw [byteLen_append, Nat.add_assoc]
    refine ⟨found.toList ++ owned, ?_, by rw [hreports, hend, List.append_assoc]; rfl⟩
    rw [List.filter_cons, hfails]
    cases found with
    | none => exact howned
    | some e => exact .cons (hfound e rfl).1 howned
  last := by
    intro front m back hnodes hopen
    cases front with
    | nil =>
      cases hnodes
      exact hlast hopen
    | cons first front =>
      cases hnodes
      exact h.last front m back rfl hopen
  pieces := by
    intro e he
    rcases List.mem_append.1 he with hmem | hmem
    · exact (hfound e (Option.mem_toList.1 hmem)).2
    · exact (h.pieces e hmem).behind used
  sorted := by
    rw [List.pairwise_append]
    refine ⟨by cases found <;> simp, h.sorted, fun a ha b hb => ?_⟩
    -- The diagnostic of the node starts before the node ends, every other one after that.
    have hle := (hfound a (Option.mem_toList.1 ha)).1.le_stop
    have hge := (h.pieces b hb).le_start
    rw [hspan] at hle
    exact Nat.le_trans hle hge

theorem isOpen_of_split {d : Delims} {source : String} {front rest : List Char} {n : Node}
    (hsource : source.toList = front ++ rest) (hstart : n.span.start = byteLen front) :
    n.isOpen d source = n.isOpenAt d rest := by
  unfold Node.isOpen
  rw [hsource, hstart, splitAtByte?_append]

/-- A run gives an account of the text that is left to read. -/
theorem account_regions [Letters] (s : Settings) (source : String) (lx : Lexer) (hout : lx.inTag = false)
    (front : List Char) (hsource : source.toList = front ++ lx.rest) (hpos : lx.pos = byteLen front) :
    Account s.delims source lx.pos (lx.mode == .raw) lx.rest
      ((regions s lx).filterMap (·.node)) ((regions s lx).filterMap (·.diagnostic)) := by
  -- Along the run, with the text in front of the place and its length.
  refine regions_induction (P := fun lx rs => ∀ front, source.toList = front ++ lx.rest →
    lx.pos = byteLen front → Account s.delims source lx.pos (lx.mode == .raw) lx.rest
      (rs.filterMap (·.node)) (rs.filterMap (·.diagnostic))) ?_ ?_ lx hout front hsource hpos
  · intro lx hdone front hsource hpos
    obtain ⟨hr, hraw⟩ := Lexer.rest_eq_nil_of_step hdone
    rw [hr, beq_false_of_ne hraw]
    exact account_nil s.delims source lx.pos
  · intro lx next r used hlx hturn hcovers ih front hsource hpos
    have htext := hcovers.reaches.text
    have hnextPos := hcovers.reaches.pos
    have haccount := ih (front ++ used) (by rw [hsource, htext, List.append_assoc])
      (by rw [hnextPos, hpos, byteLen_append])
    have hover : next.rest = [] → next.mode = .template → regions s next = [] := by
      intro hr hmode
      have hnext : next = ⟨next.pos, [], .template⟩ := by rw [← hr, ← hmode]
      rw [hnext]
      exact regions_nil s next.pos
    have hopenAt : ∀ n, r.node = some n →
        n.span = ⟨lx.pos, next.pos⟩ ∧ n.isOpen s.delims source = n.isOpenAt s.delims lx.rest := by
      intro n hn
      have hspan := (hcovers.node n hn).1
      exact ⟨hspan, isOpen_of_split hsource (by rw [hspan, hpos])⟩
    cases hturn.told hlx with
    | @fine n herror hopen hmode =>
      obtain ⟨hspan, hisOpen⟩ := hopenAt n rfl
      have hbegun : (next.mode == .raw) = n.isRawTag := by
        rw [Bool.eq_iff_iff, beq_iff_eq]
        exact hmode
      rw [hbegun, hnextPos] at haccount
      rw [hnextPos] at hspan
      rw [hopen] at hisOpen
      rw [htext]
      refine haccount.cons none _ hspan ?_ (fun h => ?_) nofun
      · rw [Node.fails, herror, hisOpen]
        rfl
      · rw [hisOpen] at h
        cases h
    | @failing n e hfails hlast hmode hraw howns hpiece =>
      obtain ⟨hspan, hisOpen⟩ := hopenAt n rfl
      have hbegun : (next.mode == .raw) = n.isRawTag := by
        rw [hmode, hraw]
        rfl
      rw [hbegun, hnextPos] at haccount
      rw [hnextPos] at hspan
      rw [htext] at hpiece ⊢
      refine haccount.cons (some e) _ hspan ?_ (fun h => ?_) ?_
      · rw [Node.fails, hisOpen, Bool.or_eq_true_iff.2 hfails]
        rfl
      · rw [hisOpen] at h
        rw [hover (hlast h) hmode]
        rfl
      · intro e' he'
        cases he'
        exact ⟨howns, hpiece⟩
    | emptyRaw hm hr hmode =>
      have hnext : next.rest = [] := by
        rw [hr] at htext
        exact (List.append_eq_nil_iff.1 htext.symm).2
      rw [hover hnext hmode, hm, hr]
      refine ⟨⟨[], .nil, rfl⟩, ?_, ?_, List.pairwise_singleton _ _⟩
      · exact (account_nil s.delims source lx.pos).last
      · intro e he
        rw [List.mem_singleton.1 he]
        exact Span.IsPiece.point_end lx.pos []

/-! ## The diagnostics of a source -/

/-- The diagnostics of a source are those of its failing nodes, one each and in their order, and one
    more if the source ends with the tag of a raw block.  Of the nodes that are no errors only the last
    one can fail.  Nothing is reported exactly if no node fails and the source does not end with such a
    tag.  Each diagnostic is about a range of bytes in order, inside the source and between
    characters, and they are sorted by the start of that range. -/
theorem diagnostics_of_failing_nodes [Letters] (s : Settings) (source : String) :
    let parsed := s.parse source
    let nodes := parsed.template.nodes
    let failing := nodes.filter (Node.fails s.delims source)
    (∃ owned, List.Forall₂ Node.Owns failing owned ∧
      parsed.diagnostics =
        owned ++ if endsInRaw false nodes then [.emptyRaw source.utf8ByteSize] else []) ∧
      (∀ front n back, nodes = front ++ n :: back → n.isOpen s.delims source = true → back = []) ∧
      (parsed.isOk = true ↔ failing = [] ∧ endsInRaw false nodes = false) ∧
      (∀ e ∈ parsed.diagnostics, e.span.start ≤ e.span.stop ∧
        e.span.stop ≤ source.utf8ByteSize ∧
        (String.Pos.Raw.mk e.span.start).IsValid source ∧
        (String.Pos.Raw.mk e.span.stop).IsValid source) ∧
      parsed.diagnostics.Pairwise fun a b => a.span.start ≤ b.span.start := by
  intro parsed nodes failing
  have haccount : Account s.delims source 0 false source.toList nodes parsed.diagnostics :=
    account_regions s source (Lexer.start source.toList) rfl [] rfl rfl
  obtain ⟨owned, howned, hreports⟩ := haccount.owned
  rw [Nat.zero_add, ← utf8ByteSize_eq] at hreports
  refine ⟨⟨owned, howned, hreports⟩, haccount.last, ?_, ?_, haccount.sorted⟩
  · have howned' : owned = [] ↔ failing = [] := by
      rw [← List.length_eq_zero_iff, ← List.length_eq_zero_iff, howned.length_eq]
    rw [Parsed.isOk, List.isEmpty_iff, hreports, List.append_eq_nil_iff, howned']
    cases endsInRaw false nodes <;> simp
  · intro e he
    have hpiece := haccount.pieces e he
    have hstop := hpiece.stop_le
    rw [Nat.zero_add, ← utf8ByteSize_eq] at hstop
    refine ⟨hpiece.start_le_stop, hstop, ?_⟩
    obtain ⟨before, piece, after, hsource, hspan⟩ := hpiece
    rw [Nat.zero_add, Nat.zero_add] at hspan
    rw [hspan]
    constructor
    · rw [List.append_assoc] at hsource
      exact isValid_byteLen hsource
    · exact isValid_byteLen hsource

end Template

end Stencil
