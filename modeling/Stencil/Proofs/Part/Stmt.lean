/-
  Stmt — patterns and statements sit in their source.

  As for expressions, one lemma for each reader.  A pattern in parentheses is the pattern itself, so
  its span is smaller than what was taken; a row of parts may always be stretched.  The place of a
  statement ends with the lexeme taken last, whatever that was; so it is not joined from its parts.
-/
import Stencil.Proofs.Part.Expr

namespace Stencil

variable {d : Delims} {source : List Char}

namespace Reader

variable {feed rest : Feed}

/-! ## Patterns -/

/-- What a pattern reader gives is laid out as one part. -/
def LaysPattern [Letters] (d : Delims) (source : List Char) (p : Reader Pattern) : Prop :=
  Lays d source p fun q => [.pattern q]

theorem pathSegment?_lays [Letters] :
    Lays d source pathSegment? (Option.elim · [] fun i => [.ident i]) :=
  after?_lays ident_lays .pathSep

theorem negativePattern_laysOn [Letters] {m : Lexeme} (hm : m.Between d source feed rest)
    (ht : m.token = .minus) :
    LaysOn d source rest (negativePattern m) fun p after =>
      Part.Row d source feed.last.stop [.pattern p] after.last.stop := by
  refine .next (fun _ => .unexpected) fun l mid hl => .ite (fun _ => ?_) fun _ => .unexpected
  refine (literalOf_laysOn l true mid).bind fun v after hv => .pure ?_
  obtain ⟨rfl, hnum⟩ := hv
  exact hm.negative_row ht hl hnum rfl rfl fun _ => Part.records_pattern_lit

/-- The text under a name is that name. -/
theorem ident_records {i : Ident} {cs : List Char} (h : (Part.ident i).Sits d source)
    (hcs : slice? i.span source = some cs) : cs = i.name.toList := by
  cases h with
  | mk text some records inOrder below =>
    obtain rfl := Option.some.inj (hcs.symm.trans text)
    exact records

/-- A path that nothing is taken apart of; a lone name stands for itself. -/
theorem pathPattern_row {global : Bool} {first : Ident} {more : List Ident} {start : Span} {a b : Nat}
    (hp : Part.Row d source a
      [.path ⟨global, first :: more, start.join ((first :: more).getLastD first).span⟩] b)
    (hfirst : (Part.ident first).Sits d source) (hlocal : global = false → start = first.span) :
    Part.Row d source a
      [.pattern (pathPattern
        ⟨global, first :: more, start.join ((first :: more).getLastD first).span⟩)] b := by
  have hplain : Part.Row d source a
      [.pattern (.path ⟨global, first :: more, start.join ((first :: more).getLastD first).span⟩
        (start.join ((first :: more).getLastD first).span))] b := by
    refine hp.enclose (p := .pattern (.path _ _)) rfl rfl ?_ fun _ _ => trivial
    exact (Span.join_self _).symm
  cases global with
  | true => exact hplain
  | false =>
    cases more with
    | cons second more => exact hplain
    | nil =>
      have hspan : start.join first.span = first.span := by
        rw [hlocal rfl]
        exact Span.join_self _
      have hends := hp.ends (s := first.span) hspan
      show Part.Row d source a [.pattern (.ident first.name (start.join first.span))] b
      rw [hspan]
      refine (Part.Row.leaf (p := .pattern (.ident first.name first.span)) hfirst.marks rfl rfl
        fun cs hcs => ?_).weaken hends.1 hends.2.2
      exact ident_records hfirst hcs

section

variable [Letters] {inner : Reader Pattern} (hinner : LaysPattern d source inner)

include hinner

theorem fieldPattern_lays : Lays d source (fieldPattern inner) FieldPattern.parts := by
  refine fun feed => (eat_laysOn .dotDot feed).bind fun found mid hfound => ?_
  cases found with
  | some l =>
    obtain ⟨-, hl⟩ := hfound.2 l rfl
    exact .pure (hl.row (p := .rest l.span) rfl rfl trivial)
  | none =>
    obtain rfl := hfound.1 rfl
    refine (ident_lays _).bind fun i mid hi => .ifEats (fun c after _ hc => ?_) (.pure hi)
    refine (hinner after).bind fun p rest hp => .pure ?_
    have hends := hc.ends
    exact hi.cons (hp.weaken (by omega) (Nat.le_refl _))

/-- Reads what follows the first name of a path.  A path without a leading double colon starts with
    that name. -/
theorem structPattern_laysOn {global : Bool} {first : Ident} {start : Span}
    (hstart : start.Marks d source)
    (hfirst : Part.Row d source start.start [.ident first] feed.last.stop)
    (hstop : start.stop ≤ first.span.stop) (hlocal : global = false → start = first.span) :
    LaysOn d source feed (structPattern inner global first start) fun p after =>
      Part.Row d source start.start [.pattern p] after.last.stop := by
  refine (many_lays_map pathSegment?_lays feed).bind fun more mid hmore => ?_
  have hpath := Part.path_row global hstart (hfirst.cons hmore) hstop
  -- Both kinds of brackets: the path, the items, and the closing bracket last.
  have hbracket : ∀ {α : Type} {f : α → List Part} {s : Seq α} {o : Lexeme} {after rest : Feed}
      {p : Part}, o.Between d source mid after → Listed d source f after s rest →
      p.children = .path ⟨global, first :: more, start.join ((first :: more).getLastD first).span⟩ ::
        s.items.flatMap f →
      p.span = (start.join ((first :: more).getLastD first).span).join s.close →
      (∀ cs, p.Records cs) → Part.Row d source start.start [p] rest.last.stop := by
    intro α f s o after rest p ho hs hchildren hspan hrecords
    have hends := ho.ends
    have hbegin := hpath.ends (s := start.join ((first :: more).getLastD first).span) rfl
    have hitems := hs.items.le
    have hclose := hs.close.lt
    have hrow := hpath.cons (hs.items.weaken (i := mid.last.stop) (j := s.close.stop)
      (by omega) (by omega))
    rw [← hchildren] at hrow
    rw [hs.last]
    refine hrow.wrapTo (x := .path ⟨global, first :: more, _⟩) (by rw [hchildren]; rfl) hs.close ?_
      hspan fun cs _ => hrecords cs
    show (start.join ((first :: more).getLastD first).span).start ≤ s.close.start
    omega
  refine .ifEats (fun o after _ ho => ?_) (.ifEats (fun o after _ ho => ?_) (.pure ?_))
  · refine (seq_laysOn hinner .rparen after).bind fun s rest hs => .pure ?_
    exact hbracket (p := .pattern (.tupleStruct _ s.items _)) ho hs
      (congrArg _ List.map_eq_flatMap) rfl fun _ => trivial
  · refine (seq_laysOn (fieldPattern_lays hinner) .rbrace after).bind fun s rest hs => .pure ?_
    exact hbracket (p := .pattern (.struct _ s.items _)) ho hs rfl rfl fun _ => trivial
  · exact pathPattern_row hpath (hfirst.sits _ List.mem_cons_self) hlocal

theorem tuplePattern_laysOn {o : Lexeme} (ho : o.Between d source feed rest) :
    LaysOn d source rest (tuplePattern inner o) fun p after =>
      Part.Row d source feed.last.stop [.pattern p] after.last.stop := by
  refine (seq_laysOn hinner .rparen rest).bind fun s after hs => ?_
  split
  · next p hitems _ =>
    -- The parentheses leave no trace.
    have hopen := ho.ends
    have hclose := hs.close.lt
    have hrow := hs.items
    rw [hitems] at hrow
    refine .pure (hrow.weaken (by omega) ?_)
    rw [hs.last]
    omega
  · exact .pure (hs.wrap ho (p := .pattern (.tuple s.items _)) rfl List.map_eq_flatMap
      fun _ => trivial)

theorem slicePattern_laysOn {o : Lexeme} (ho : o.Between d source feed rest) :
    LaysOn d source rest (slicePattern inner o) fun p after =>
      Part.Row d source feed.last.stop [.pattern p] after.last.stop := by
  refine (seq_laysOn hinner .rbracket rest).bind fun s after hs => .pure ?_
  exact hs.wrap ho (p := .pattern (.slice s.items _)) rfl List.map_eq_flatMap fun _ => trivial

theorem patternAtom_lays : LaysPattern d source (patternAtom inner) := by
  refine fun feed => .next (fun _ => .unexpected) fun l mid hl => ?_
  have hends := hl.ends
  dsimp only
  split
  · exact .pure (hl.row (p := .pattern (.rest l.span)) rfl rfl trivial)
  · next ht => exact negativePattern_laysOn hl ht
  · refine (ident_lays mid).bind fun first after hfirst => ?_
    have hname := hfirst.ends (s := first.span) rfl
    have hpath : LaysOn d source after (structPattern inner true first l.span) fun p rest =>
        Part.Row d source l.span.start [.pattern p] rest.last.stop :=
      structPattern_laysOn hinner hl.marks (hfirst.weaken (by omega) (Nat.le_refl _)) (by omega) nofun
    exact hpath.mono fun p rest hp => hp.weaken hl.le (Nat.le_refl _)
  · exact tuplePattern_laysOn hinner hl
  · exact slicePattern_laysOn hinner hl
  · rw [isUnderscore_bind_feed]
    refine .ite (fun _ => .pure ?_) fun _ => .ite (fun _ => ?_) fun _ =>
      .ite (fun _ => ?_) fun _ => .unexpected
    · exact hl.row (p := .pattern (.placeholder l.span)) rfl rfl trivial
    · refine (literalOf_laysOn l false mid).bind fun v after hv => .pure ?_
      obtain ⟨rfl, hnum⟩ := hv
      exact hl.literal_row hnum rfl rfl fun _ => Part.records_pattern_lit
    · have hname : Part.Row d source l.span.start [.ident (identOf l)] mid.last.stop :=
        (hl.row rfl rfl (records_identOf l)).from_head
      refine (structPattern_laysOn hinner hl.marks hname (Nat.le_refl _) fun _ => rfl).mono ?_
      exact fun p rest hp => hp.weaken hl.le (Nat.le_refl _)

end

theorem alternatives_lays [Letters] {atom : Reader Pattern} (hatom : LaysPattern d source atom) :
    LaysPattern d source (alternatives atom) := by
  have halternative : Lays d source (alternative? atom)
      (Option.elim · [] fun p => [.pattern p]) := by
    have hsome : ∀ {feed mid : Feed} {l : Lexeme}, l.Between d source feed mid →
        LaysOn d source mid (some <$> atom) fun x rest =>
          Part.Row d source feed.last.stop (x.elim [] fun p => [.pattern p]) rest.last.stop := by
      intro feed mid l hl
      have hends := hl.ends
      exact (hatom.option mid).mono fun x rest hx => hx.weaken (by omega) (Nat.le_refl _)
    exact fun feed => .ifEats (fun _ _ _ hl => hsome hl) (.ifEats (fun _ _ _ hl => hsome hl)
      (none_lays feed))
  refine fun feed => (hatom feed).bind fun first mid hfirst => ?_
  refine (many_lays_map halternative mid).bind fun more rest hmore => ?_
  dsimp only
  split
  · exact .pure (hfirst.weaken (Nat.le_refl _) hmore.le)
  · next final hfinal =>
    have hlast : ((first :: more).map Part.pattern).getLast? = some (.pattern final) := by
      rw [List.getLast?_map, List.getLast?_cons, hfinal]
      rfl
    refine .pure ?_
    exact (hfirst.cons hmore).enclose (p := .pattern (.alternatives (first :: more) _)) rfl hlast rfl
      fun _ _ => trivial

theorem patternWithin_lays [Letters] (limit budget : Nat) : LaysPattern d source (patternWithin limit budget) := by
  induction budget with
  | zero => exact fun _ => .tooDeep
  | succ budget ih => exact alternatives_lays (patternAtom_lays ih)

theorem pattern_lays [Letters] (limit : Nat) : LaysPattern d source (pattern limit) :=
  patternWithin_lays limit limit

theorem armPattern_lays [Letters] (limit : Nat) : LaysPattern d source (armPattern limit) := by
  refine fun feed => (pattern_lays limit feed).bind fun base mid hbase => ?_
  refine .ifEats (fun w after _ hw => ?_) (.pure hbase)
  refine .next (fun _ => .unexpected) fun o after' ho => ?_
  dsimp only
  split
  · exact .unexpected
  · next close _ =>
    refine (seq_laysOn (pattern_lays limit) close after').bind fun s rest hs => .pure ?_
    have hends := hbase.ends (s := base.span) rfl
    have hword := hw.ends
    have hopen := ho.ends
    have hitems := hs.items.le
    have hclose := hs.close.lt
    have hparts : Part.Row d source after'.last.stop (s.items.map .pattern) s.close.start := by
      rw [List.map_eq_flatMap]
      exact hs.items
    have hrow := hbase.cons (hparts.weaken (i := mid.last.stop) (j := s.close.stop)
      (by omega) (by omega))
    have hspan : (base.span.join o.span).join s.close = base.span.join s.close := by
      rw [Span.join_eq (s := base.span) (t := o.span) (by omega) (by omega),
        Span.join_eq (s := base.span) (t := s.close) (by omega) (by omega),
        Span.join_eq (by show base.span.start ≤ s.close.start; omega)
          (by show o.span.stop ≤ s.close.stop; omega)]
    rw [hs.last]
    refine hrow.wrapTo (p := .pattern (.destructured base s.items _)) rfl hs.close ?_ hspan
      fun _ _ => trivial
    show base.span.start ≤ s.close.start
    omega

/-! ## Statements -/

/-- A condition, with what stands between its pattern and its value. -/
theorem cond_lays [Letters] (limit : Nat) : Lays d source (cond limit) Cond.parts := by
  refine fun feed => .ifEats (fun w mid _ hw => ?_) ((expr_lays limit feed).map fun _ _ hx => hx)
  refine (pattern_lays limit mid).bind fun p after hp => ?_
  refine (expect_laysOn .eq after).bind fun o after' ho => ?_
  refine (expr_lays limit after').bind fun x rest hx => .pure ?_
  have hword := hw.ends
  have hopen := ho.2.ends
  exact (hp.weaken (by omega) (Nat.le_refl _)).cons (hx.weaken (by omega) (Nat.le_refl _))

theorem elseBranch_lays [Letters] (limit : Nat) : Lays d source (elseBranch limit) StmtKind.parts := by
  refine fun feed => (after?_lays (cond_lays limit) (.keyword .ifKw) feed).bind fun found mid hc => ?_
  cases found with
  | none => exact .pure hc
  | some c => exact .pure hc

/-- What an optional part of a statement is laid out as. -/
theorem elim_eq_map {α : Type} (g : α → Part) (x : Option α) :
    (x.elim [] fun a => [g a]) = x.toList.map g := by
  cases x <;> rfl

/-- An expression after its word, if it is there. -/
theorem exprAfter_laysOn [Letters] (limit : Nat) (t : Token) (feed : Feed) :
    LaysOn d source feed (after? t (expr limit)) fun x rest =>
      Part.Row d source feed.last.stop (x.toList.map .expr) rest.last.stop := by
  refine (after?_lays (expr_lays limit) t feed).mono fun x rest hx => ?_
  rw [← elim_eq_map]
  exact hx

theorem param_lays [Letters] (limit : Nat) : Lays d source (param limit) Param.parts := by
  refine fun feed => (ident_lays feed).bind fun i mid hi => ?_
  exact (exprAfter_laysOn limit .eq mid).bind fun x rest hx => .pure (hi.cons hx)

theorem assign_lays [Letters] (limit : Nat) (word : LetWord) :
    Lays d source (assign limit word) StmtKind.parts := by
  refine fun feed => (skips_laysOn (.keyword .mutKw) feed).bind fun mutable mid hle => ?_
  refine (pattern_lays limit mid).bind fun p after hp => ?_
  refine (exprAfter_laysOn limit .eq after).bind fun x rest hx => .pure ?_
  exact (hp.weaken hle (Nat.le_refl _)).cons hx

theorem forLoop_lays [Letters] (limit : Nat) : Lays d source (forLoop limit) StmtKind.parts := by
  refine fun feed => (pattern_lays limit feed).bind fun p mid hp => ?_
  refine (expect_laysOn (.keyword .inKw) mid).bind fun w after hw => ?_
  refine (expr_lays limit after).bind fun iterable after' hiterable => ?_
  refine (exprAfter_laysOn limit (.keyword .ifKw) after').bind fun x rest hx => .pure ?_
  have hword := hw.2.ends
  exact hp.cons ((hiterable.weaken (by omega) (Nat.le_refl _)).cons hx)

theorem importAs_lays [Letters] : Lays d source importAs StmtKind.parts := by
  refine fun feed => (textLit_lays feed).bind fun path mid hpath => ?_
  refine (expect_laysOn (.keyword .asKw) mid).bind fun w after hw => ?_
  refine (ident_lays after).bind fun i rest hi => .pure ?_
  have hword := hw.2.ends
  exact hpath.cons (hi.weaken (by omega) (Nat.le_refl _))

/-- The items of a list, stretched over its closing bracket. -/
theorem Listed.row {α : Type} {f : α → List Part} {s : Seq α} (hs : Listed d source f feed s rest) :
    Part.Row d source feed.last.stop (s.items.flatMap f) rest.last.stop := by
  have hclose := hs.close.lt
  rw [hs.last]
  exact hs.items.weaken (Nat.le_refl _) (by omega)

theorem macroDef_lays [Letters] (limit : Nat) : Lays d source (macroDef limit) StmtKind.parts := by
  refine fun feed => (ident_lays feed).bind fun i mid hi => ?_
  refine (expect_laysOn .lparen mid).bind fun o after ho => ?_
  refine (seq_laysOn (param_lays limit) .rparen after).bind fun s rest hs => .pure ?_
  have hopen := ho.2.ends
  exact hi.cons (hs.row.weaken (by omega) (Nat.le_refl _))

theorem callBlock_lays [Letters] (limit : Nat) : Lays d source (callBlock limit) StmtKind.parts := by
  -- The bindings are laid out in front of the call, if there are any.
  have hbindings : ∀ feed, LaysOn d source feed (after? .lparen (seq .rparen ident)) fun found rest =>
      Part.Row d source feed.last.stop ((found.elim [] (·.items)).map .ident) rest.last.stop := by
    refine fun feed => .ifEats (fun o mid _ ho => ?_) (.pure (.nil (Nat.le_refl _)))
    refine (seq_laysOn ident_lays .rparen mid).map fun s rest hs => ?_
    have hopen := ho.ends
    show Part.Row d source _ (s.items.map .ident) _
    rw [List.map_eq_flatMap]
    exact hs.row.weaken (by omega) (Nat.le_refl _)
  refine fun feed => (hbindings feed).bind fun found mid hfound => ?_
  refine (expr_lays limit mid).bind fun call after hcall => ?_
  refine .ite (fun _ => .pure (hfound.append hcall)) fun _ => ?_
  exact (peek_laysOn after).bind fun _ _ _ => .unexpected

theorem filterBlock_lays [Letters] (limit : Nat) : Lays d source (filterBlock limit) StmtKind.parts := by
  refine fun feed => (filter_lays (expr_lays limit) feed).bind fun first mid hfirst => ?_
  refine (many_lays_map (filter?_lays (expr_lays limit)) mid).bind fun more rest hmore => .pure ?_
  exact hfirst.cons hmore

theorem stmtKind?_lays [Letters] (limit : Nat) {k : Keyword} {body : Reader StmtKind}
    (h : stmtKind? limit k = some body) : Lays d source body StmtKind.parts := by
  have hpure : ∀ kind : StmtKind, kind.parts = [] →
      Lays d source (pure kind) StmtKind.parts := by
    intro kind hkind feed
    refine .pure ?_
    rw [hkind]
    exact .nil (Nat.le_refl _)
  have hname : ∀ make : Option Ident → StmtKind, (∀ i, (make i).parts = i.toList.map .ident) →
      Lays d source (make <$> ident?) StmtKind.parts := by
    intro make hmake feed
    refine (ident?_lays feed).map fun i rest hi => ?_
    rw [hmake, ← elim_eq_map]
    exact hi
  unfold stmtKind? at h
  split at h <;> cases h
  · exact fun feed => (ident_lays feed).map fun _ _ hi => hi
  · exact hname _ fun _ => rfl
  · exact fun feed => (textLit_lays feed).map fun _ _ ht => ht
  · exact fun feed => (textLit_lays feed).map fun _ _ ht => ht
  · exact importAs_lays
  · exact assign_lays limit .letWord
  · exact assign_lays limit .setWord
  · exact forLoop_lays limit
  · exact hpure _ rfl
  · exact hpure _ rfl
  · exact hpure _ rfl
  · exact fun feed => (cond_lays limit feed).map fun _ _ hc => hc
  · exact elseBranch_lays limit
  · exact fun feed => (cond_lays limit feed).map fun _ _ hc => hc
  · exact hpure _ rfl
  · exact fun feed => (expr_lays limit feed).map fun _ _ hx => hx
  · exact hpure _ rfl
  · exact fun feed => (armPattern_lays limit feed).map fun _ _ hp => hp
  · exact hpure _ rfl
  · exact macroDef_lays limit
  · exact hname _ fun _ => rfl
  · exact callBlock_lays limit
  · exact hpure _ rfl
  · exact filterBlock_lays limit
  · exact hpure _ rfl
  · exact hpure _ rfl
  · exact hpure _ rfl

theorem stmt_lays [Letters] (limit : Nat) : Lays d source (stmt limit) fun s => [.stmt s] := by
  refine fun feed => .next (fun _ => .unexpected) fun l mid hl => ?_
  dsimp only
  split
  · next k _ =>
    cases hbody : (stmtKind? limit k : Option (Reader StmtKind)) with
    | none => exact .unexpected
    | some body =>
      refine (stmtKind?_lays limit hbody mid).withLast.bind fun kind rest hkind => ?_
      obtain ⟨hparts, hstart, hmarks⟩ := hkind
      have hlast : LaysOn d source rest last fun s after => after = rest ∧ s = rest.last := by
        refine .looking fun s after h => ?_
        cases h
        exact ⟨rfl, rfl, rfl⟩
      refine hlast.bind fun s after hs => .pure ?_
      obtain ⟨rfl, rfl⟩ := hs
      have hends := hl.ends
      have hle := hparts.le
      rw [hl.last] at hstart hparts
      have hrow := hparts.weaken (i := l.span.start) (by omega) (Nat.le_refl _)
      exact (hrow.wrap (p := .stmt ⟨kind, _⟩) hl.marks hmarks hstart (by omega) rfl
        fun _ _ => trivial).weaken hl.le (Nat.le_refl _)
  · exact .unexpected

end Reader

end Stencil
