/-
  Expr — expressions sit in their source.

  For every reader of expressions, and for the parts it is made of, one lemma says that what it gives
  is laid out where it was read (`Lays`).  The loops over suffixes and operators are given what has
  been read so far; they extend the row of that one part to a row of one larger part.

  Four kinds of spans are not just joins of what is inside.  A macro name ends before its mark; the
  path of a lone macro name does not; a range without an end stops with its operator; and the place
  of a row of filters is joined filter by filter.
-/
import Stencil.Proofs.Part.Scan
import Stencil.Proofs.Reader.Path
import Mathlib.Data.List.Induction

namespace Stencil

variable {d : Delims} {source : List Char}

namespace Reader

variable {feed rest : Feed} {value : Reader Expr}

/-- What an expression reader gives is laid out as one part. -/
def LaysExpr [Letters] (d : Delims) (source : List Char) (p : Reader Expr) : Prop :=
  Lays d source p fun e => [.expr e]

/-! ## Brackets -/

/-- A part that consists of brackets and the items between them. -/
theorem Listed.wrap [Letters] {α : Type} {f : α → List Part} {s : Seq α} {mid : Feed} {o : Lexeme}
    (hs : Listed d source f mid s rest) (ho : o.Between d source feed mid) {p : Part}
    (hspan : p.span = o.span.join s.close) (hchildren : p.children = s.items.flatMap f)
    (hrecords : ∀ cs, p.Records cs) : Part.Row d source feed.last.stop [p] rest.last.stop := by
  have hopen := ho.ends
  have hitems := hs.items.le
  have hclose := hs.close.lt
  have hrow : Part.Row d source o.span.start p.children s.close.stop := by
    rw [hchildren]
    exact hs.items.weaken (by omega) (by omega)
  have hwhole := hrow.wrap ho.marks hs.close (by omega) (by omega) hspan fun cs _ => hrecords cs
  rw [hs.last]
  exact hwhole.weaken (by omega) (Nat.le_refl _)

section

variable [Letters] (hv : LaysExpr d source value)

include hv

theorem arg_lays : Lays d source (arg value) Arg.parts := by
  have hnamed : ∀ feed, LaysOn d source feed startsNamed fun _ rest => rest = feed := by
    refine fun feed => (peek_laysOn feed).bind fun found mid hmid => ?_
    obtain ⟨rfl, -⟩ := hmid
    exact .ite (fun _ => secondIs_laysOn .eq _) fun _ => .pure rfl
  refine fun feed => (hnamed feed).bind fun b mid hmid => ?_
  subst hmid
  refine .ite (fun _ => ?_) fun _ => (hv _).map fun x rest hx => hx
  refine (ident_lays _).bind fun i mid hi => ?_
  refine (expect_laysOn .eq mid).bind fun c mid' hc => ?_
  refine (hv mid').bind fun x rest hx => .pure ?_
  have hends := hc.2.ends
  exact hi.cons (hx.weaken (by omega) (Nat.le_refl _))

theorem args_lays : Lays d source (args value) fun xs => [.args xs] := by
  refine fun feed => (expect_laysOn .lparen feed).bind fun o mid ho => ?_
  refine (seq_laysOn (arg_lays hv) .rparen mid).bind fun s rest hs => .pure ?_
  exact hs.wrap ho.2 (p := .args (.mk s.items _)) rfl rfl fun _ => trivial

/-! ## Filters -/

theorem filter_lays : Lays d source (filter value) fun f => [.filter f] := by
  refine fun feed => (ident_lays feed).bind fun i mid hi => .ifNextIs ?_ ?_
  · refine fun _ _ _ => (args_lays hv mid).bind fun xs rest hxs => .pure ?_
    exact (hi.cons hxs).enclose (p := .filter (.mk i (some xs) _)) rfl rfl rfl fun _ _ => trivial
  · refine .pure (hi.enclose (p := .filter (.mk i none _)) rfl rfl ?_ fun _ _ => trivial)
    exact (Span.join_self _).symm

theorem filter?_lays : Lays d source (filter? value) (Option.elim · [] fun f => [.filter f]) :=
  after?_lays (filter_lays hv) .pipe

/-! ## Paths and macro calls -/

omit hv in
/-- A macro name is the text before the mark of its lexeme. -/
theorem macroName_row {l : Lexeme} (hl : l.Between d source feed rest) (ht : l.token = .macroName) :
    l.span.start < l.span.stop - 1 ∧
      Part.Row d source l.span.start
        [.ident ⟨String.ofList l.text.dropLast, ⟨l.span.start, l.span.stop - 1⟩⟩]
        (l.span.stop - 1) := by
  have hspells := hl.sits.spells (by rw [ht]; rfl)
  rw [ht] at hspells
  obtain ⟨name, htext, hplain⟩ := hspells
  have hne : name ≠ [] := by
    rintro rfl
    cases hplain
  obtain ⟨front, back, hsource, hstart, hstop⟩ := slice?_eq_some hl.sits.text
  have hmark : byteLen ['!'] = 1 := rfl
  rw [htext, byteLen_append, hmark] at hstop
  have hslice : slice? ⟨l.span.start, l.span.stop - 1⟩ source = some name := by
    refine slice?_of_append front ('!' :: back) ?_ hstart ?_
    · rw [hsource, htext, List.append_assoc]
      rfl
    · show l.span.stop - 1 = _
      omega
  have hpos := byteLen_pos hne
  have htight : Tight name := .of_forall (isBlank_of_isPlainWord hplain)
  refine ⟨by omega, Part.Row.leaf ⟨name, hslice, hne, fun _ => htight⟩ rfl rfl fun cs hcs => ?_⟩
  show cs = (String.ofList l.text.dropLast).toList
  rw [htext, List.dropLast_concat, String.toList_ofList]
  exact Option.some.inj (hcs.symm.trans hslice)

/-- Reads a macro call from its arguments on.  The path starts with the lexeme of the name, or with
    other names or a double colon before it. -/
theorem macroCall_laysOn {global : Bool} {segments : List Ident} {start : Span} {l : Lexeme}
    (hl : l.Between d source feed rest) (ht : l.token = .macroName) (hstart : start.Marks d source)
    (hsegments : Part.Row d source start.start (segments.map .ident) l.span.start)
    (hshape : start = l.span ∨ start.stop ≤ l.span.start) :
    LaysOn d source rest (macroCall value global segments start l) fun e after =>
      Part.Row d source start.start [.expr e] after.last.stop := by
  obtain ⟨hlt, hname⟩ := macroName_row hl ht
  have hends := hl.ends
  have hbegins := hsegments.le
  generalize hplace : (Span.mk l.span.start (l.span.stop - 1)) = place at hname
  generalize hident : (Ident.mk (String.ofList l.text.dropLast) place) = i at hname
  have hispan : i.span = place := by rw [← hident]
  have hplacestart : place.start = l.span.start := by rw [← hplace]
  have hplacestop : place.stop = l.span.stop - 1 := by rw [← hplace]
  have hrow : Part.Row d source start.start ((segments ++ [i]).map .ident) place.stop := by
    rw [List.map_append, hplacestop]
    exact hsegments.append hname
  have hpath : Part.Row d source start.start [.path ⟨global, segments ++ [i], start.join place⟩]
      rest.last.stop := by
    rcases hshape with hsame | hbefore
    · -- A lone name: its mark belongs to the path.
      have hspan : start.join place = start.join l.span := by
        rw [hsame, Span.join_self]
        show Span.mk (min _ _) (max _ _) = l.span
        rw [hplacestart, hplacestop, Nat.min_self, Nat.max_eq_left (Nat.sub_le _ _)]
      have hwhole := hrow.weaken (j := l.span.stop) (Nat.le_refl _) (by omega)
      exact (hwhole.wrap (p := .path ⟨global, segments ++ [i], _⟩) hstart hl.marks hbegins
        (by rw [hsame]) hspan fun _ _ => trivial).weaken (Nat.le_refl _) (by omega)
    · have hlast : ((segments ++ [i]).map Part.ident).getLast? = some (.ident i) := by
        rw [List.map_append]
        exact List.getLast?_concat
      refine (hrow.wrapFrom (p := .path ⟨global, segments ++ [i], _⟩) hstart hlast ?_ ?_
        fun _ _ => trivial).weaken (Nat.le_refl _) (by omega)
      · show start.stop ≤ i.span.stop
        rw [hispan]
        omega
      · show start.join place = start.join i.span
        rw [hispan]
  have hstop : start.stop ≤ rest.last.stop := by
    rcases hshape with hsame | hbefore
    · rw [hsame]
      omega
    · omega
  subst hident hplace
  refine (args_lays hv rest).bind fun xs after hxs => .pure ?_
  have hargs := hxs.ends (s := xs.span) rfl
  refine (hpath.cons hxs).wrapFrom (p := .expr (.macroCall _ xs _)) hstart rfl ?_ rfl
    fun _ _ => trivial
  show start.stop ≤ xs.span.stop
  omega

theorem macroSegment_laysOn {global : Bool} {segments : List Ident} {start : Span}
    (hstart : start.Marks d source)
    (hsegments : Part.Row d source start.start (segments.map .ident) feed.last.stop)
    (hstop : start.stop ≤ feed.last.stop) :
    LaysOn d source feed (macroSegment value global segments start) fun e after =>
      Part.Row d source start.start [.expr e] after.last.stop := by
  refine .next (fun _ => .unexpected) fun l mid hl => .ite (fun ht => ?_) fun _ => .unexpected
  have hends := hl.ends
  exact macroCall_laysOn hv hl ht hstart (hsegments.weaken (Nat.le_refl _) hl.le) (.inr (by omega))

omit hv in
theorem segment?_lays : Lays d source segment? (Option.elim · [] fun i => [.ident i]) := by
  refine fun feed => .ifNextIs (fun c hc _ => ?_) (none_lays feed)
  refine (secondIs_laysOn .macroName feed).bind fun b mid hmid => ?_
  subst hmid
  refine .ite (fun _ => none_lays _) fun _ => .nextSeen hc fun mid' hl => ?_
  have hends := hl.ends
  exact (ident_lays.option mid').mono fun x rest hx => hx.weaken (by omega) (Nat.le_refl _)

/-- Reads what follows the first name of a path.  The path starts with that name or before it. -/
theorem pathExpr_laysOn {global : Bool} {first : Ident} {start : Span} (hstart : start.Marks d source)
    (hfirst : Part.Row d source start.start [.ident first] feed.last.stop)
    (hstop : start.stop ≤ first.span.stop) :
    LaysOn d source feed (pathExpr value global first start) fun e after =>
      Part.Row d source start.start [.expr e] after.last.stop := by
  have hends := hfirst.ends (s := first.span) rfl
  rw [pathExpr_feed]
  refine (many_lays_map segment?_lays feed).bind fun more mid hmore => ?_
  have hrow : Part.Row d source start.start ((first :: more).map .ident) mid.last.stop :=
    hfirst.cons hmore
  have hle := hmore.le
  refine .ifEats (fun c after _ hc => ?_) (.pure ?_)
  · have hcolon := hc.ends
    exact macroSegment_laysOn hv hstart (hrow.weaken (Nat.le_refl _) (by omega)) (by omega)
  · refine (Part.path_row global hstart hrow hstop).enclose (p := .expr (.path _ _)) rfl rfl ?_
      fun _ _ => trivial
    exact (Span.join_self _).symm

/-! ## Primaries -/

omit hv in
theorem negative_laysOn {m : Lexeme} (hm : m.Between d source feed rest) (ht : m.token = .minus) :
    LaysOn d source rest (negative m) fun e after =>
      Part.Row d source feed.last.stop [.expr e] after.last.stop := by
  refine .next (fun _ => .unexpected) fun l mid hl => ?_
  refine (literalOf_laysOn l true mid).bind fun v after hv => .pure ?_
  obtain ⟨rfl, hnum⟩ := hv
  exact hm.negative_row ht hl hnum rfl rfl fun _ => Part.records_expr_lit

theorem parenthesized_laysOn {o : Lexeme} (ho : o.Between d source feed rest) :
    LaysOn d source rest (parenthesized value o) fun e after =>
      Part.Row d source feed.last.stop [.expr e] after.last.stop := by
  refine (seq_laysOn hv .rparen rest).bind fun s after hs => ?_
  dsimp only
  split
  · next hitems =>
    exact .pure (hs.wrap ho (p := .expr (.unit _)) rfl (by rw [hitems]; rfl) fun _ => trivial)
  · next inner hitems _ =>
    exact .pure (hs.wrap ho (p := .expr (.group inner _)) rfl (by rw [hitems]; rfl) fun _ => trivial)
  · refine .pure (hs.wrap ho (p := .expr (.tuple s.items _)) rfl ?_ fun _ => trivial)
    exact List.map_eq_flatMap

theorem bracketed_laysOn {o : Lexeme} (ho : o.Between d source feed rest) :
    LaysOn d source rest (bracketed value o) fun e after =>
      Part.Row d source feed.last.stop [.expr e] after.last.stop := by
  refine (seq_laysOn hv .rbracket rest).bind fun s after hs => .pure ?_
  exact hs.wrap ho (p := .expr (.array s.items _)) rfl List.map_eq_flatMap fun _ => trivial

theorem globalPath_laysOn {o : Lexeme} (ho : o.Between d source feed rest) :
    LaysOn d source rest (globalPath value o) fun e after =>
      Part.Row d source feed.last.stop [.expr e] after.last.stop := by
  have hends := ho.ends
  refine LaysOn.mono (P := fun e after => Part.Row d source o.span.start [.expr e] after.last.stop) ?_
    fun e after he => he.weaken ho.le (Nat.le_refl _)
  refine .ifNextIs (fun _ _ _ => ?_) ((ident_lays rest).bind fun first mid hfirst => ?_)
  · exact macroSegment_laysOn hv ho.marks (.nil (by omega)) (by omega)
  · have hname := hfirst.ends (s := first.span) rfl
    exact pathExpr_laysOn hv ho.marks (hfirst.weaken (by omega) (Nat.le_refl _)) (by omega)

theorem named_laysOn {l : Lexeme} (hl : l.Between d source feed rest) :
    LaysOn d source rest (named value l) fun e after =>
      Part.Row d source feed.last.stop [.expr e] after.last.stop := by
  refine .ifNextIs (fun _ _ _ => ?_) (.pure (hl.row rfl rfl (records_identOf l)))
  have hends := hl.ends
  have hname : Part.Row d source l.span.start [.ident (identOf l)] rest.last.stop :=
    (hl.row rfl rfl (records_identOf l)).from_head
  refine (pathExpr_laysOn hv hl.marks hname (Nat.le_refl _)).mono fun e after he => ?_
  exact he.weaken hl.le (Nat.le_refl _)

theorem primary_lays : LaysExpr d source (primary value) := by
  refine fun feed => .next (fun _ => .unexpected) fun l mid hl => ?_
  dsimp only
  split
  · next ht => exact negative_laysOn hl ht
  · exact globalPath_laysOn hv hl
  · next ht =>
    have hends := hl.ends
    refine (macroCall_laysOn hv hl ht hl.marks (.nil (Nat.le_refl _)) (.inl rfl)).mono ?_
    exact fun e after he => he.weaken hl.le (Nat.le_refl _)
  · exact parenthesized_laysOn hv hl
  · exact bracketed_laysOn hv hl
  · refine .ite (fun _ => ?_) fun _ => .ite (fun _ => named_laysOn hv hl) fun _ => .unexpected
    refine (literalOf_laysOn l false mid).bind fun v after hv => .pure ?_
    obtain ⟨rfl, hnum⟩ := hv
    exact hl.literal_row hnum rfl rfl fun _ => Part.records_expr_lit

/-! ## Suffixes -/

omit [Letters] hv in
theorem decimalValue_eq (cs : List Char) : decimalValue cs = decimalOf cs := by
  induction cs using List.reverseRecOn with
  | nil => rfl
  | append_singleton cs c ih =>
    unfold decimalValue decimalOf at ih ⊢
    rw [List.foldl_append, List.reverse_append, ih]
    show 10 * _ + _ = Nat.ofDigits 10 ((c.toNat - '0'.toNat) :: _)
    rw [Nat.ofDigits_cons, Nat.add_comm]
    rfl

omit hv in
theorem key_lays : Lays d source key fun k => [.key k] := by
  refine fun feed => .next (fun _ => .unexpected) fun l mid hl => ?_
  have hword : Part.Row d source feed.last.stop [.key (.name (identOf l))] mid.last.stop := by
    refine (hl.row (p := .ident (identOf l)) rfl rfl (records_identOf l)).enclose
      (p := .key (.name _)) rfl rfl ?_ fun _ _ => trivial
    exact (Span.join_self _).symm
  dsimp only
  split
  · exact .pure hword
  · exact .pure hword
  · rw [indexOf_bind_feed]
    refine .ite (fun hindex => .pure ?_) fun _ => .fail
    rw [Bool.and_eq_true] at hindex
    exact hl.row rfl rfl ⟨hindex.1, (decimalValue_eq l.text).symm⟩
  · exact .unexpected

theorem suffix_laysOn {a : Nat} {x : Expr} {l : Lexeme}
    (hx : Part.Row d source a [.expr x] feed.last.stop) (hl : feed.lexemes.head? = some l) :
    LaysOn d source feed (suffix value x l) fun y rest =>
      Part.Row d source a [.expr y] rest.last.stop := by
  have hends := hx.ends (s := x.span) rfl
  unfold suffix
  split
  · refine (args_lays hv feed).bind fun xs rest hxs => .pure ?_
    exact (hx.cons hxs).enclose (p := .expr (.call x xs _)) rfl rfl rfl fun _ _ => trivial
  · refine .nextSeen hl fun mid ho => (key_lays mid).bind fun k rest hk => .pure ?_
    have hdot := ho.ends
    have hkey := hk.weaken (i := feed.last.stop) (by omega) (Nat.le_refl _)
    exact (hx.cons hkey).enclose (p := .expr (.field x k _)) rfl rfl rfl fun _ _ => trivial
  · refine .nextSeen hl fun mid ho => (hv mid).bind fun i mid' hi => ?_
    refine (expect_laysOn .rbracket mid').bind fun c rest hc => .pure ?_
    have hopen := ho.ends
    have hclose := hc.2.ends
    have hindex := hi.ends (s := i.span) rfl
    have hrow := hx.cons (hi.weaken (i := feed.last.stop) (j := c.span.stop) (by omega) (by omega))
    refine (hrow.wrapTo (p := .expr (.index x i _)) rfl hc.2.marks ?_ rfl
      fun _ _ => trivial).weaken (Nat.le_refl _) (by omega)
    show x.span.start ≤ c.span.start
    omega
  · refine .nextSeen hl fun rest ho => .pure ?_
    have hmark := ho.ends
    have hrow := hx.weaken (j := l.span.stop) (Nat.le_refl _) (by omega)
    refine (hrow.wrapTo (p := .expr (.attempt x _)) rfl ho.marks ?_ rfl
      fun _ _ => trivial).weaken (Nat.le_refl _) (by omega)
    show x.span.start ≤ l.span.start
    omega

end

/-! ## Layers with a budget -/

section

variable [Letters] {e : Nat → Reader Expr} (limit : Nat) (he : ∀ k, LaysExpr d source (e k))

include he

theorem suffixes_laysOn (budget : Nat) {a : Nat} {x : Expr} {feed : Feed}
    (hx : Part.Row d source a [.expr x] feed.last.stop) :
    LaysOn d source feed (suffixes limit e budget x) fun y rest =>
      Part.Row d source a [.expr y] rest.last.stop := by
  induction budget generalizing x feed with
  | zero =>
    unfold suffixes
    refine (peek_laysOn feed).bind fun found mid hmid => ?_
    obtain ⟨rfl, hfound⟩ := hmid
    cases found with
    | none => exact .pure hx
    | some l => exact .ite (fun _ => .tooDeep) fun _ => .pure hx
  | succ budget ih =>
    unfold suffixes
    refine (peek_laysOn feed).bind fun found mid hmid => ?_
    obtain ⟨rfl, hfound⟩ := hmid
    cases found with
    | none => exact .pure hx
    | some l =>
      refine .ite (fun _ => ?_) fun _ => .pure hx
      exact (suffix_laysOn (he budget) hx hfound.symm).bind fun y mid' hy => ih hy

theorem tested_lays (budget : Nat) : LaysExpr d source (tested limit e budget) := by
  refine fun feed => (primary_lays (he budget) feed).bind fun x mid hx => ?_
  refine (suffixes_laysOn limit he budget hx).bind fun y mid' hy => ?_
  refine .ifEats (fun l after _ hl => ?_) (.pure hy)
  refine (skips_laysOn (.keyword .notKw) after).bind fun negated after' hle => ?_
  refine (expect_laysOn (.keyword .definedKw) after').bind fun c rest hc => .pure ?_
  have hends := hy.ends (s := y.span) rfl
  have hword := hl.ends
  have hclose := hc.2.ends
  have hrow := hy.weaken (j := c.span.stop) (Nat.le_refl _) (by omega)
  refine (hrow.wrapTo (p := .expr (.isDefined y negated _)) rfl hc.2.marks ?_ rfl
    fun _ _ => trivial).weaken (Nat.le_refl _) (by omega)
  show y.span.start ≤ c.span.start
  omega

/-! ## Operators -/

omit he in
theorem unary?_laysOn (feed : Feed) :
    LaysOn d source feed unary? fun found rest =>
      rest = feed ∧ ∀ us ∈ found, ∃ l, feed.lexemes.head? = some l ∧ us.2 = l.span := by
  refine .looking fun found rest h => ?_
  cases found with
  | none =>
    obtain ⟨rfl, -⟩ := unary?_eq_none h
    exact ⟨rfl, rfl, nofun⟩
  | some us =>
    obtain ⟨rfl, l, hl, -, hs, -⟩ := unary?_eq_some h
    refine ⟨rfl, rfl, ?_⟩
    rintro us' ⟨rfl⟩
    exact ⟨l, hl, hs⟩

omit he in
/-- A unary operator and its operand. -/
theorem unary_row {u : Unary} {x : Expr} {l : Lexeme} {feed mid rest : Feed}
    (hl : l.Between d source feed mid) (hx : Part.Row d source mid.last.stop [.expr x] rest.last.stop) :
    Part.Row d source feed.last.stop [.expr (u.apply x (l.span.join x.span))] rest.last.stop := by
  have hends := hl.ends
  have hoperand := hx.ends (s := x.span) rfl
  have hrow := hx.weaken (i := l.span.start) (by omega) (Nat.le_refl _)
  have hstop : l.span.stop ≤ (Part.expr x).span.stop := by
    show l.span.stop ≤ x.span.stop
    omega
  refine Part.Row.weaken (a := l.span.start) ?_ hl.le (Nat.le_refl _)
  cases u with
  | ref =>
    exact hrow.wrapFrom (p := .expr (.ref x _)) hl.marks rfl hstop rfl fun _ _ => trivial
  | op o =>
    exact hrow.wrapFrom (p := .expr (.unary o x _)) hl.marks rfl hstop rfl fun _ _ => trivial

theorem unary_lays (budget : Nat) : LaysExpr d source (unary limit e budget) := by
  induction budget with
  | zero =>
    intro feed
    unfold unary
    refine (unary?_laysOn feed).bind fun found mid hfound => ?_
    obtain ⟨rfl, hseen⟩ := hfound
    cases found with
    | none => exact tested_lays limit he 0 _
    | some us =>
      obtain ⟨l, hl, -⟩ := hseen us rfl
      exact .nextSeen hl fun mid' _ => .tooDeep
  | succ budget ih =>
    intro feed
    unfold unary
    refine (unary?_laysOn feed).bind fun found mid hfound => ?_
    obtain ⟨rfl, hseen⟩ := hfound
    cases found with
    | none => exact tested_lays limit he (budget + 1) _
    | some us =>
      obtain ⟨u, s⟩ := us
      obtain ⟨l, hl, hs⟩ := hseen (u, s) rfl
      refine .nextSeen hl fun mid' hbetween => (ih mid').bind fun x rest hx => .pure ?_
      dsimp only at hs
      rw [hs]
      exact unary_row hbetween hx

omit [Letters] he in
/-- Joining the places of filters one by one gives the place from the first to the last. -/
theorem joinFilters {s : Span} {b : Nat} {ps : List Part} (hs : s.Marks d source)
    (hps : Part.Row d source s.start ps s.stop) (fs : List Filter)
    (hfs : Part.Row d source s.stop (fs.map .filter) b) :
    ∃ t : Span, fs.foldl (fun s f => s.join f.span) s = t ∧ t.Marks d source ∧
      t.start = s.start ∧ t.stop ≤ b ∧ Part.Row d source t.start (ps ++ fs.map .filter) t.stop := by
  induction fs generalizing s ps with
  | nil =>
    refine ⟨s, rfl, hs, rfl, hfs.le, ?_⟩
    rw [List.map_nil, List.append_nil]
    exact hps
  | cons f fs ih =>
    have hends := hfs.head.ends (s := f.span) rfl
    have hlt := hs.lt
    have hjoin : s.join f.span = ⟨s.start, f.span.stop⟩ := Span.join_eq (by omega) (by omega)
    have hmarks : (Span.mk s.start f.span.stop).Marks d source :=
      hs.between (hfs.marks List.mem_cons_self) (by show s.start < f.span.stop; omega)
    obtain ⟨t, ht, htmarks, htstart, htstop, hrow⟩ :=
      ih (s := ⟨s.start, f.span.stop⟩) hmarks (hps.append hfs.head) hfs.tail
    refine ⟨t, by rw [List.foldl_cons, hjoin]; exact ht, htmarks, htstart, htstop, ?_⟩
    rw [List.append_assoc] at hrow
    exact hrow

omit [Letters] he in
/-- A value and the filters applied to it. -/
theorem filtered_row {a m b : Nat} {x : Expr} {first : Filter} {more : List Filter}
    (hx : Part.Row d source a [.expr x] m)
    (hfs : Part.Row d source m ((first :: more).map .filter) b) :
    Part.Row d source a [.expr (filtered x first more)] b := by
  have hends := hx.ends (s := x.span) rfl
  obtain ⟨t, ht, hmarks, hstart, hstop, hrow⟩ :=
    joinFilters (hx.marks List.mem_cons_self) hx.head.from_head (first :: more)
      (hfs.weaken (i := x.span.stop) hends.2.2 (Nat.le_refl _))
  have hspan : (Part.expr (filtered x first more)).span = t.join t := by
    rw [Span.join_self]
    exact ht
  refine (hrow.wrap (p := .expr (filtered x first more)) hmarks hmarks (Nat.le_refl _)
    (Nat.le_refl _) hspan fun _ _ => trivial).weaken ?_ hstop
  rw [hstart]
  exact hends.1

omit he in
theorem operatorFrom?_laysOn (min : Nat) (feed : Feed) :
    LaysOn d source feed (operatorFrom? min) fun found rest =>
      rest = feed ∧ ∀ op ∈ found, ∃ l, feed.lexemes.head? = some l := by
  refine .looking fun found rest h => ?_
  cases found with
  | none =>
    obtain ⟨rfl, -⟩ := operatorFrom?_eq_none h
    exact ⟨rfl, rfl, nofun⟩
  | some op =>
    obtain ⟨rfl, l, hl, -⟩ := operatorFrom?_eq_some h
    exact ⟨rfl, rfl, fun _ _ => ⟨l, hl⟩⟩

theorem operators_laysOn (budget min : Nat) {a : Nat} {left : Expr} {feed : Feed}
    (hleft : Part.Row d source a [.expr left] feed.last.stop) :
    LaysOn d source feed (operators limit e budget min left) fun y rest =>
      Part.Row d source a [.expr y] rest.last.stop := by
  -- What has been read so far is one part of the row, and each round encloses it in a larger one.
  induction budget generalizing min a left feed with
  | zero =>
    unfold operators
    refine (operatorFrom?_laysOn min feed).bind fun found mid hmid => ?_
    obtain ⟨rfl, -⟩ := hmid
    cases found with
    | none => exact .pure hleft
    | some op => exact .tooDeep
  | succ budget ih =>
    unfold operators
    refine (operatorFrom?_laysOn min feed).bind fun found mid hmid => ?_
    obtain ⟨rfl, hseen⟩ := hmid
    cases found with
    | none => exact .pure hleft
    | some op =>
      obtain ⟨l, hl⟩ := hseen op rfl
      refine .nextSeen hl fun mid' hbetween => ?_
      have hends := hbetween.ends
      cases op with
      | filter =>
        refine (filter_lays (he budget) mid').bind fun first after hfirst => ?_
        refine (many_lays_map (filter?_lays (he budget)) after).bind fun more after' hmore => ?_
        refine ih min (filtered_row hleft ?_)
        exact (hfirst.weaken (by omega) (Nat.le_refl _)).cons hmore
      | binary op =>
        refine (unary_lays limit he budget mid').bind fun operand after hoperand => ?_
        refine (ih (op.level + 1) hoperand).bind fun right after' hright => ih min ?_
        have hrow := hright.weaken (i := mid.last.stop) (by omega) (Nat.le_refl _)
        exact (hleft.cons hrow).enclose (p := .expr (.binary op left right _)) rfl rfl rfl
          fun _ _ => trivial

theorem operation_lays (budget : Nat) : LaysExpr d source (operation limit e budget) :=
  fun feed => (unary_lays limit he budget feed).bind fun _ _ hx =>
    operators_laysOn limit he budget 0 hx

end

/-! ## Ranges and full expressions -/

theorem range?_laysOn [Letters] (feed : Feed) :
    LaysOn d source feed range? fun found rest =>
      rest = feed ∧ ∀ inclusive ∈ found, ∃ l, feed.lexemes.head? = some l := by
  refine .looking fun found rest h => ?_
  obtain ⟨rfl, hfound⟩ := range?_eq_ok h
  refine ⟨rfl, rfl, fun inclusive hsome => ?_⟩
  obtain ⟨l, hl, -⟩ := hfound inclusive hsome
  exact ⟨l, hl⟩

/-- Where a range begins: with its start, or else with its operator. -/
def rangeStart (start : Option Expr) (op : Span) : Nat :=
  match start with
  | some x => x.span.start
  | none => op.start

section

variable [Letters] {start : Option Expr} {inclusive : Bool} {a : Nat} {l : Lexeme} {mid : Feed}
  (hstart : Part.Row d source a (start.toList.map .expr) feed.last.stop)
  (ho : l.Between d source feed mid)

include hstart ho

/-- A range without an end stops with its operator. -/
theorem openRange_row :
    Part.Row d source a
      [.expr (.range start none inclusive ⟨rangeStart start l.span, l.span.stop⟩)] mid.last.stop := by
  have hop := ho.ends
  cases start with
  | none =>
    have hle : a ≤ feed.last.stop := hstart.le
    exact (ho.row (p := .expr (.range none none inclusive _)) rfl rfl trivial).weaken hle
      (Nat.le_refl _)
  | some x =>
    have hbegin := hstart.ends (s := x.span) rfl
    have hrow := hstart.weaken (j := l.span.stop) (Nat.le_refl _) (by omega)
    refine (hrow.wrapTo (p := .expr (.range (some x) none inclusive _)) rfl ho.marks ?_ ?_
      fun _ _ => trivial).weaken (Nat.le_refl _) (by omega)
    · show x.span.start ≤ l.span.start
      omega
    · exact (Span.join_eq (s := x.span) (by omega) (by omega)).symm

theorem closedRange_row {y : Expr} (hy : Part.Row d source mid.last.stop [.expr y] rest.last.stop) :
    Part.Row d source a
      [.expr (.range start (some y) inclusive ⟨rangeStart start l.span, y.span.stop⟩)]
      rest.last.stop := by
  have hop := ho.ends
  have hend := hy.ends (s := y.span) rfl
  cases start with
  | none =>
    have hle : a ≤ feed.last.stop := hstart.le
    have hrow := hy.weaken (i := l.span.start) (by omega) (Nat.le_refl _)
    refine (hrow.wrapFrom (p := .expr (.range none (some y) inclusive _)) ho.marks rfl ?_ ?_
      fun _ _ => trivial).weaken (by omega) (Nat.le_refl _)
    · show l.span.stop ≤ y.span.stop
      omega
    · exact (Span.join_eq (t := y.span) (by omega) (by omega)).symm
  | some x =>
    have hbegin := hstart.ends (s := x.span) rfl
    have hrow := hstart.append (hy.weaken (i := feed.last.stop) (by omega) (Nat.le_refl _))
    refine hrow.enclose (p := .expr (.range (some x) (some y) inclusive _)) rfl rfl ?_
      fun _ _ => trivial
    exact (Span.join_eq (s := x.span) (t := y.span) (by omega) (by omega)).symm

end

theorem rangeFrom_laysOn [Letters] {operand : Reader Expr} (hoperand : LaysExpr d source operand)
    {start : Option Expr} {inclusive : Bool} {a : Nat} {l : Lexeme}
    (hstart : Part.Row d source a (start.toList.map .expr) feed.last.stop)
    (hl : feed.lexemes.head? = some l) :
    LaysOn d source feed (rangeFrom operand start inclusive) fun e rest =>
      Part.Row d source a [.expr e] rest.last.stop := by
  refine .nextSeen hl fun mid ho => ?_
  have hlast : LaysOn d source mid last fun s rest => rest = mid ∧ s = l.span := by
    refine .looking fun s rest h => ?_
    cases h
    exact ⟨rfl, rfl, ho.last⟩
  refine hlast.bind fun s after hs => ?_
  obtain ⟨rfl, rfl⟩ := hs
  -- Whether there is an end is found out without taking anything.
  have hbounded : ∀ b : Bool, LaysOn d source after
      (if b then do
        let y ← operand
        return Expr.range start (some y) inclusive ⟨rangeStart start l.span, y.span.stop⟩
      else return .range start none inclusive ⟨rangeStart start l.span, l.span.stop⟩) fun e rest =>
        Part.Row d source a [.expr e] rest.last.stop := by
    intro b
    refine .ite (fun _ => (hoperand after).bind fun y rest hy => .pure ?_) fun _ => .pure ?_
    · exact closedRange_row hstart ho hy
    · exact openRange_row hstart ho
  refine .ite (fun _ => hbounded true) fun _ => ?_
  refine LaysOn.bind (P := fun _ rest => rest = after) ?_ ?_
  · refine (peek_laysOn after).bind fun _ mid hmid => .pure hmid.1
  · rintro b mid rfl
    exact hbounded b

theorem ranged_lays [Letters] {operand : Reader Expr} (hoperand : LaysExpr d source operand) :
    LaysExpr d source (ranged operand) := by
  refine fun feed => (range?_laysOn feed).bind fun found mid hmid => ?_
  obtain ⟨rfl, hseen⟩ := hmid
  cases found with
  | some inclusive =>
    obtain ⟨l, hl⟩ := hseen inclusive rfl
    exact rangeFrom_laysOn hoperand (.nil (Nat.le_refl _)) hl
  | none =>
    refine (hoperand _).bind fun x mid' hx => (range?_laysOn mid').bind fun found' after hafter => ?_
    obtain ⟨rfl, hseen'⟩ := hafter
    cases found' with
    | none => exact .pure hx
    | some inclusive =>
      obtain ⟨l, hl⟩ := hseen' inclusive rfl
      exact rangeFrom_laysOn hoperand hx hl

theorem exprWithin_lays [Letters] (limit budget : Nat) : LaysExpr d source (exprWithin limit budget) := by
  induction budget using Nat.strongRecOn with
  | ind budget ih =>
    cases budget with
    | zero =>
      rw [exprWithin_zero]
      exact fun _ => .tooDeep
    | succ budget =>
      rw [exprWithin_succ]
      refine ranged_lays (operation_lays limit (fun k => ?_) budget)
      by_cases hk : k ≤ budget
      · rw [if_pos hk]
        exact ih k (Nat.lt_succ_of_le hk)
      · rw [if_neg hk]
        exact fun _ => .tooDeep

theorem expr_lays [Letters] (limit : Nat) : LaysExpr d source (expr limit) := exprWithin_lays limit limit

end Reader

end Stencil
