/-
  Parentheses — patterns stand where they say, as far as parentheses allow it.

  As for expressions and statements, the place of a pattern is meant to be enough to read it again.  It is
  not always: `(a) | b` is given the place of `a) | b`.  The main result says exactly when it is.  The text
  under the place of a pattern, put into a match arm of its own, is read without complaint if and only if
  its parentheses are paired; and then it is read as the same pattern.
-/
import Stencil.Proofs.Cut.Pattern
import Stencil.Proofs.Template.Faithful

namespace Stencil

/-! ## Moved patterns -/

theorem FieldPattern.pattern?_move (g : Nat → Nat) (f : FieldPattern) :
    (move g f).pattern?.toList = f.pattern?.toList.map (move g) := by
  cases f with
  | rest s => rfl
  | field n p => cases p <;> rfl

theorem Pattern.children_move (g : Nat → Nat) (p : Pattern) :
    (move g p).children = p.children.map (move g) := by
  cases p with
  | tupleStruct path ps s => rw [move_tupleStruct]; rfl
  | tuple ps s => rw [move_tuple]; rfl
  | slice ps s => rw [move_slice]; rfl
  | alternatives ps s => rw [move_alternatives]; rfl
  | destructured p ps s => rw [move_destructured]; rfl
  | struct path fs s =>
    rw [move_struct]
    show (fs.map (move g)).flatMap (·.pattern?.toList) = (fs.flatMap (·.pattern?.toList)).map (move g)
    rw [List.flatMap_map, List.map_flatMap]
    exact List.flatMap_congr fun f _ => f.pattern?_move g
  | _ => rfl

theorem Pattern.HasPart.move {p q : Pattern} (h : p.HasPart q) (g : Nat → Nat) :
    (Stencil.move g p).HasPart (Stencil.move g q) := by
  induction h with
  | self p => exact .self _
  | child hc _ ih =>
    refine .child ?_ ih
    rw [Pattern.children_move]
    exact List.mem_map_of_mem hc

theorem StmtKind.patterns_move (g : Nat → Nat) (k : StmtKind) :
    (move g k).patterns = k.patterns.map (move g) := by
  cases k with
  | ifCond c => cases c <;> rfl
  | elseIf c => cases c <;> rfl
  | _ => rfl

/-! ## Texts in tags of their own -/

/-- The lexemes of a text that stands alone in a control tag. -/
def Lexer.lexemesOf [Letters] (text : String) : List Lexeme :=
  (Lexer.feed .standard
    ⟨2, ' ' :: (text.toList ++ ' ' :: Delims.closeText .block), .tag .block false⟩).1

theorem Lexeme.nesting_move (g : Nat → Nat) (n : Nat) (ls : List Lexeme) :
    nesting n (move g ls) = nesting n ls := by
  induction ls generalizing n with
  | nil => rfl
  | cons l ls ih =>
    show nesting n (move g l :: move g ls) = _
    rw [nesting_cons, nesting_cons]
    exact Option.bind_congr fun m _ => ih m

namespace Lexer.Inside

variable {p : Nat} {cs : List Char} {ls : List Lexeme} {close : Lexeme}

/-- Parentheses may be counted where the text stands at the front of a source. -/
theorem paired_iff [Letters] (h : Inside ⟨p + 2, ' ' :: (cs ++ ' ' :: Delims.closeText .block), .tag .block false⟩
    .block ls close) : Lexeme.Paired (lexemesOf (String.ofList cs)) ↔ Lexeme.Paired ls := by
  have hmove : (⟨p + 2, ' ' :: (cs ++ ' ' :: Delims.closeText .block), .tag .block false⟩ : Lexer) =
      move (· + p) ⟨2, ' ' :: (cs ++ ' ' :: Delims.closeText .block), .tag .block false⟩ :=
    congrArg (Lexer.mk · _ _) (Nat.add_comm p 2)
  have hlexemes : move (· + p) (lexemesOf (String.ofList cs)) = ls ++ [close] := by
    unfold lexemesOf
    rw [String.toList_ofList, ← h.lexemes, hmove, feed_shift]
    rfl
  have hclose : close.Plain := .of_token h.closes (by decide)
  have hnone : ∀ n, Lexeme.nesting n [close] = some n := fun n => by
    rw [Lexeme.nesting_cons, hclose.nest]
    rfl
  unfold Lexeme.Paired
  rw [← Lexeme.nesting_move (· + p), hlexemes, Lexeme.nesting_append]
  cases Lexeme.nesting 0 ls with
  | none => exact Iff.rfl
  | some n => rw [Option.bind_some, hnone]

/-- The word that begins a match arm may be put before a text. -/
theorem arm [Letters]
    (h : Inside ⟨p + 5, ' ' :: (cs ++ ' ' :: Delims.closeText .block), .tag .block false⟩ .block ls close) :
    ∃ l, l.token = .keyword .whenKw ∧
      Inside ⟨p, ' ' :: ("when ".toList ++ cs ++ ' ' :: Delims.closeText .block), .tag .block false⟩ .block
        (l :: ls) close := by
  let rest := ' ' :: (cs ++ ' ' :: Delims.closeText .block)
  let word : Lexer := ⟨p + 1, 'w' :: (['h', 'e', 'n'] ++ rest), .tag .block false⟩
  have hread : Scan.read .standard .block false 'w' (['h', 'e', 'n'] ++ rest) =
      .token (.keyword .whenKw) 3 := by
    have hword : Scan.read .standard .block false 'w' (['h', 'e', 'n'] ++ rest) =
        .token (wordToken (String.ofList ['w', 'h', 'e', 'n'])) 3 :=
      Scan.word_stops (isWord_of_isAlpha (by decide)) (Token.stops_blank (.keyword .whenKw) false [] _)
    rw [hword]
    rfl
  have hstep : word.step .standard = .token (word.lexeme (.keyword .whenKw) 4 none)
      ⟨p + 5, rest, .tag .block false⟩ :=
    step_of_read rfl rfl (Delims.standard_of_not_mem (by decide)) hread
  have hfeed : feed .standard
      ⟨p, ' ' :: ("when ".toList ++ cs ++ ' ' :: Delims.closeText .block), .tag .block false⟩ =
      (word.lexeme (.keyword .whenKw) 4 none :: (feed .standard ⟨p + 5, rest, .tag .block false⟩).1,
        (feed .standard ⟨p + 5, rest, .tag .block false⟩).2) := by
    rw [feed_of_blank]
    exact feed_of_token hstep
  refine ⟨word.lexeme (.keyword .whenKw) 4 none, rfl, ?_⟩
  constructor
  · rw [hfeed, h.lexemes]
    rfl
  · exact h.closes
  · rw [hfeed]
    exact h.rest
  · rw [hfeed]
    exact h.mode

end Lexer.Inside

/-! ## Match arms -/

/-- A source of one tag is read without complaint only if the body of the tag is. -/
theorem body_of_inside [Letters] {kind : TagKind} {p limit : Nat} {cs : List Char} {ls : List Lexeme}
    {close : Lexeme}
    (h : Lexer.Inside ⟨p + 2, ' ' :: (cs ++ ' ' :: Delims.closeText kind), .tag kind false⟩ kind ls close)
    {source : String} (hsource : source.toList = tagText kind cs)
    (hnone : (Settings.parse ⟨.standard, limit⟩ source).diagnostics = []) :
    ∃ stop last r, Region.body limit kind (⟨ls ++ [close], stop, last⟩ : Feed) = .ok r := by
  let start : Lexer := ⟨p, tagText kind cs, .template⟩
  let opening : Lexeme := start.lexeme (Token.opens kind) 2 none
  let inside : Lexer := ⟨p + 2, ' ' :: (cs ++ ' ' :: Delims.closeText kind), .tag kind false⟩
  have hstep : start.step .standard = .token opening inside := by cases kind <;> rfl
  have hturn : Region.Turn ⟨.standard, limit⟩ start _ _ := .tag hstep (Token.opens?_opens kind)
  have hregions := hturn.regions_eq
  refine ⟨(inside.feed .standard).2.1, opening.span, ?_⟩
  cases hbody : Region.body limit kind
      (⟨ls ++ [close], (inside.feed .standard).2.1, opening.span⟩ : Feed) with
  | ok r => exact ⟨r, rfl⟩
  | error diagnostic =>
    exfalso
    rw [← h.lexemes] at hbody
    rw [Region.readTag_of_error hbody] at hregions
    obtain ⟨⟨node, found⟩, rs, hwhole, hr, -⟩ := shift_of_regions hregions
    obtain ⟨-, hfound⟩ := Region.mk.inj hr
    obtain ⟨d, rfl, -⟩ := Option.map_eq_some_iff.1 hfound
    unfold Settings.parse at hnone
    dsimp only at hnone
    rw [hsource, hwhole] at hnone
    cases hnone

namespace Reader

variable {limit : Nat} {p : Pattern} {l close : Lexeme} {part : List Lexeme}

/-- A match arm is read from its word and what its pattern is read from. -/
theorem Closes.arm_stmt (h : Closes (armPattern limit) part p) (hl : l.token = .keyword .whenKw) :
    Closes (stmt limit) (l :: part) ⟨.whenArm p, l.span.join (l.span.after part)⟩ := by
  intro c stop last hc
  exact stmt_run hl rfl (map_of_ok (h c stop l.span hc)) last

/-- Only paired parentheses can be read as a match arm. -/
theorem paired_of_body [Letters] {stop : Lexer.Stop} {last : Span} {r : (Region.Body × Lexeme) × Feed}
    (hl : l.token = .keyword .whenKw) (hord : Orderly (part ++ [close]))
    (hopen : ∀ m ∈ part, m.token.isClosing = false)
    (h : Region.body limit .block (⟨l :: (part ++ [close]), stop, last⟩ : Feed) = .ok r) : Lexeme.Paired part := by
  obtain ⟨b, mid, hb, hclose⟩ := bind_eq_ok_iff.1 h
  obtain ⟨t, mid', ht, hpure⟩ := bind_eq_ok_iff.1 hb
  cases hpure
  obtain ⟨closing, after, hexpect, -⟩ := bind_eq_ok_iff.1 hclose
  obtain ⟨htoken, hmid⟩ := expect_eq_ok hexpect
  rcases next_bind_eq_ok ht with ⟨-, hnone⟩ | ⟨l', start, hls, -, hmatch⟩
  · exact (unexpected_ne_ok hnone).elim
  obtain ⟨rfl, hstart⟩ := List.cons.inj hls
  dsimp only at hmatch
  rw [hl] at hmatch
  obtain ⟨k, mid'', hkind, hspan⟩ := bind_eq_ok_iff.1 hmatch
  obtain ⟨q, rest, hq, hpure⟩ := bind_eq_ok_iff.1 hkind
  cases hpure
  obtain ⟨_, _, hlast, hpure⟩ := bind_eq_ok_iff.1 hspan
  cases hlast
  cases hpure
  rw [hstart] at hord
  obtain ⟨used, hused, hparted⟩ := armPattern_parted limit start q _ hord hq
  -- All of the part is taken, since it does not close the tag.
  have hsame : used = part := by
    rw [← hstart, hmid] at hused
    rcases List.append_eq_append_iff.1 hused with ⟨more, hmore, htail⟩ | ⟨more, hmore, htail⟩
    · cases more with
      | nil => rw [hmore, List.append_nil]
      | cons m more => cases more <;> cases htail
    · cases more with
      | nil => rw [hmore, List.append_nil]
      | cons m more =>
        obtain ⟨rfl, -⟩ := List.cons.inj htail
        have hclosed := hopen closing (by rw [hmore]; simp)
        rw [htoken] at hclosed
        cases hclosed
  rw [← hsame]
  exact hparted.paired

end Reader

namespace Template

open Reader

variable {limit : Nat} {source : String}

/-- Every pattern stands on a stretch from which it can be read alone, if parentheses allow it. -/
theorem stretch_of_pattern [Letters] {n : Node}
    (hn : n ∈ (Settings.parse ⟨.standard, limit⟩ source).template.nodes)
    {root p : Pattern} (hroot : root ∈ n.patterns) (hp : root.HasPart p) (k : Nat) :
    ∃ part, HasStretch source.toList k .block part ∧ Pattern.Rereads limit part (move (· + k) p) := by
  cases n with
  | tag t trims span =>
    refine (stretches_of_stmt hn k (patterns_cuts limit)).2 _ (.inr ⟨move (· + k) root, ?_, hp.move _⟩)
    show _ ∈ (move (· + k) t.kind).patterns
    rw [StmtKind.patterns_move]
    exact List.mem_map_of_mem hroot
  | _ => cases hroot

/-- Patterns stand where they say, as far as parentheses allow it.  Put the text under the place of a
    pattern, however deep inside of a tag, into a match arm of its own: under the same limit that is read
    without diagnostics if and only if the parentheses of the text are paired, and then it is one tag
    with the same pattern.  All places are those of the text in the new source. -/
theorem pattern_reread_iff_paired [Letters] (limit : Nat) (source : String) (n : Node)
    (hn : n ∈ (Settings.parse ⟨.standard, limit⟩ source).template.nodes) (root : Pattern)
    (hroot : root ∈ n.patterns) (p : Pattern) (hp : root.HasPart p) :
    ∃ cs, slice? p.span source.toList = some cs ∧
      let text := String.ofList cs
      let read := Settings.parse ⟨.standard, limit⟩ (stmtSource ("when " ++ text))
      (read.diagnostics = [] ↔ Lexeme.Paired (Lexer.lexemesOf text)) ∧
      (read.diagnostics = [] → ∃ p' place trims span,
        read.template.nodes = [.tag ⟨.whenArm p', place⟩ trims span] ∧
          move (· + p.span.start) p' = move (· + 8) p) := by
  obtain ⟨part, hstretch, hreads⟩ := stretch_of_pattern hn hroot hp 8
  have hspan : (move (· + 8) p.span).Over part := by
    rw [← Pattern.span_move]
    exact hreads.place
  obtain ⟨cs, hslice, close, hinside⟩ :=
    hstretch.exists_text hspan (.inl rfl) (show p.span.start + 7 + 1 = p.span.start + 8 from rfl)
  obtain ⟨l, hl, harm⟩ := Lexer.Inside.arm (p := p.span.start + 2) hinside
  have hsource : (stmtSource ("when " ++ String.ofList cs)).toList = tagText .block ("when ".toList ++ cs) := by
    rw [toList_stmtSource, String.toList_append, String.toList_ofList (l := cs)]
  have hpaired : Lexeme.Paired (Lexer.lexemesOf (String.ofList cs)) ↔ Lexeme.Paired part :=
    Lexer.Inside.paired_iff (p := p.span.start + 5) hinside
  have hopen : ∀ m ∈ part, m.token.isClosing = false := by
    have hclosing : close.token.isClosing = true := by rw [hinside.closes]; rfl
    exact Lexer.open_of_feed rfl hinside.lexemes hclosing
  have hord : Orderly (part ++ [close]) := by
    rw [← hinside.lexemes]
    exact Region.orderly_feed rfl
  have hread := fun h : Lexeme.Paired part =>
    parse_of_inside (b := .stmt ⟨.whenArm (move (· + 8) p), l.span.join (l.span.after part)⟩) harm
      (fun stop last => ⟨_, _, Region.tag_of_closes ((hreads.reads h).arm_stmt hl) .stmt harm.closes stop last⟩)
      hsource
  have honly : (Settings.parse ⟨.standard, limit⟩ (stmtSource ("when " ++ String.ofList cs))).diagnostics = [] →
      Lexeme.Paired part := by
    intro hnone
    obtain ⟨stop, last, r, hbody⟩ := body_of_inside harm hsource hnone
    exact paired_of_body hl hord hopen hbody
  refine ⟨cs, hslice, ⟨fun hnone => hpaired.2 (honly hnone), fun h => ?_⟩, fun hnone => ?_⟩
  · obtain ⟨b, trims, span, more, -, -, hend⟩ := hread (hpaired.1 h)
    exact (hend rfl).2
  · obtain ⟨b, trims, span, more, hnodes, hmoved, hend⟩ := hread (honly hnone)
    obtain ⟨rfl, -⟩ := hend rfl
    cases b with
    | expr x => cases hmoved
    | stmt t =>
      obtain ⟨kind, place⟩ := t
      have hkind : move (· + p.span.start) kind = .whenArm (move (· + 8) p) :=
        congrArg Stmt.kind (Region.Body.stmt.inj hmoved)
      cases kind with
      | whenArm p' => exact ⟨p', place, trims, span, hnodes, StmtKind.whenArm.inj hkind⟩
      | _ => cases hkind

/-- Alternatives in parentheses are read again from the text inside of the parentheses. -/
theorem inner_alternatives_reread :
    let source := "\x7b% when [(-1 | P(b)) | c] %\x7d"
    ∃ n ∈ (parse source).template.nodes, ∃ root ∈ n.patterns, ∃ p, root.HasPart p ∧
      p.span = ⟨10, 19⟩ ∧ Lexeme.Paired (Lexer.lexemesOf "-1 | P(b)") ∧
      ∃ cs, slice? p.span source.toList = some cs ∧
        let text := String.ofList cs
        let read := parse (stmtSource ("when " ++ text))
        (read.diagnostics = [] ↔ Lexeme.Paired (Lexer.lexemesOf text)) ∧
        (read.diagnostics = [] → ∃ p' place trims span,
          read.template.nodes = [.tag ⟨.whenArm p', place⟩ trims span] ∧
            move (· + p.span.start) p' = move (· + 8) p) := by
  intro source
  have hfound : (parse source).template.nodes.any (fun n => n.patterns.any fun root =>
      root.children.any fun q => q.children.any fun p => p.span == ⟨10, 19⟩) = true := by
    decide +kernel
  obtain ⟨n, hn, hroots⟩ := List.any_eq_true.1 hfound
  obtain ⟨root, hroot, hqs⟩ := List.any_eq_true.1 hroots
  obtain ⟨q, hq, hps⟩ := List.any_eq_true.1 hqs
  obtain ⟨p, hp, hspan⟩ := List.any_eq_true.1 hps
  have hpart : root.HasPart p := .child hq (.child hp (.self p))
  exact ⟨n, hn, root, hroot, p, hpart, eq_of_beq hspan, by decide +kernel,
    pattern_reread_iff_paired 64 source n hn root hroot p hpart⟩

/-- The text under the place of alternatives that begin with a parenthesis is read as no pattern. -/
theorem opened_alternatives_not_reread :
    let source := "\x7b% when (a) | b %\x7d"
    let read := parse (stmtSource "when a) | b")
    ∃ n ∈ (parse source).template.nodes, ∃ p ∈ n.patterns,
      slice? p.span source.toList = some "a) | b".toList ∧ read.diagnostics ≠ [] ∧
        ∀ n ∈ read.template.nodes, n.patterns = [] := by
  decide +kernel

end Template

end Stencil
