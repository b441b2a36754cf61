/-
  Faithful — expressions and statements stand where they say.

  The place of an expression or statement is enough to read it again: the text under its span, put into a
  tag of its own, is read as the same expression or statement, at the place where it stands now.  Other
  levels of operators, other brackets around it and other delimiters do not matter.

  Three things come together.  The readers are cuts, so a part of a tag can be read from its lexemes alone
  (`Stencil.Proofs.Cut`).  The text of these lexemes is scanned as the same lexemes elsewhere
  (`Stencil.Proofs.Cut.Stretch`).  And a span reaches from the first of its lexemes to the last.  What is
  proved here besides is that the listing of an expression has no closing brace, which could make a
  closing delimiter of it in a tag of the other kind.
-/
import Stencil.Proofs.Cut.Stmt
import Stencil.Proofs.Template.PrintedExpr
import Stencil.Proofs.Template.PrintedStmt
import Stencil.Proofs.Template.Reread

namespace Stencil

/-! ## Listings have no closing braces -/

/-- None of the lexemes is a closing brace. -/
def Lexeme.Braceless (ls : List Lexeme) : Prop := ∀ l ∈ ls, l.token ≠ .rbrace

namespace Lexeme

variable {l : Lexeme} {a b ls : List Lexeme}

@[simp] theorem braceless_nil : Braceless [] := nofun

@[simp] theorem braceless_cons : Braceless (l :: ls) ↔ l.token ≠ .rbrace ∧ Braceless ls :=
  List.forall_mem_cons

@[simp] theorem braceless_append : Braceless (a ++ b) ↔ Braceless a ∧ Braceless b :=
  List.forall_mem_append

theorem IsWord.ne_rbrace {s : String} (h : l.IsWord s) : l.token ≠ .rbrace := by
  rw [h.1]
  exact wordToken_ne nofun nofun

end Lexeme

section

open Lexeme

variable {q : Quoting} {P : Span → List Lexeme → Prop} {R : Expr → List Lexeme → Prop}
  {ls : List Lexeme}

theorem Literal.Spelled.braceless {v : Literal} (h : v.Spelled q ls) : Braceless ls := by
  cases h with
  | str ht hv => simp [ht]
  | char ht hv => simp [ht]
  | num hn ht hr => simp [ht]
  | negative hn hm ht hr => simp [hm.1, ht]
  | @bool b l hb => cases b <;> simp [hb.1, boolToken]

theorem Key.Spelled.ne_rbrace {k : Key} {l : Lexeme} (h : k.Spelled P l) : l.token ≠ .rbrace := by
  cases h with
  | name hi => exact hi.1.ne_rbrace
  | index ht hne hd hv hs => rw [ht]; decide

theorem SegmentsSpelled.braceless {segments : List Ident} (h : SegmentsSpelled P segments ls) :
    Braceless ls := by
  induction h with
  | nil => exact braceless_nil
  | cons hc hi _ ih => simp [hc.1, hi.1.ne_rbrace, ih]

theorem PathSpelled.braceless {global : Bool} {segments : List Ident}
    (h : PathSpelled P global segments ls) : Braceless ls := by
  cases h with
  | absolute h => exact h.braceless
  | relative hi h => simp [hi.1.ne_rbrace, h.braceless]

theorem MacroSpelled.braceless {global : Bool} {segments : List Ident}
    (h : MacroSpelled P global segments ls) : Braceless ls := by
  cases h with
  | alone hm => simp [hm.1]
  | qualified h hc hm => simp [h.braceless, hc.1, hm.1]

theorem Commas.braceless {α : Type} {R : α → List Lexeme → Prop} {xs : List α} {trailing : Bool}
    (hR : ∀ x ∈ xs, ∀ a, R x a → Braceless a) (h : Commas R xs trailing ls) : Braceless ls := by
  induction h with
  | none => exact braceless_nil
  | last hx => exact hR _ List.mem_cons_self _ hx
  | trailing hx hc => simp [hR _ List.mem_cons_self _ hx, hc.1]
  | more hx hc _ ih =>
    obtain ⟨hfirst, hmore⟩ := List.forall_mem_cons.1 hR
    simp [hfirst _ hx, hc.1, ih hmore]

theorem Args.SpelledBy.braceless {xs : Args} (hR : ∀ x ∈ xs.values, ∀ a, R x a → Braceless a)
    (h : xs.SpelledBy P R ls) : Braceless ls := by
  cases h with
  | mk ho h hc hs =>
    have hitems := h.braceless fun x hx a ha => by
      have hvalue := hR x.value (List.mem_map_of_mem hx)
      cases ha with
      | positional hx' => exact hvalue _ hx'
      | named hi heq hx' => simp [hi.1.ne_rbrace, heq.1, hvalue _ hx']
    simp [ho.1, hitems, hc.1]

theorem Filter.SpelledBy.braceless {f : Filter} (hR : ∀ x ∈ f.values, ∀ a, R x a → Braceless a)
    (h : f.SpelledBy P R ls) : Braceless ls := by
  cases h with
  | plain hi hs => simp [hi.1.ne_rbrace]
  | given hi hxs hs => simp [hi.1.ne_rbrace, hxs.braceless hR]

theorem FiltersSpelled.braceless {fs : List Filter}
    (hR : ∀ x ∈ fs.flatMap Filter.values, ∀ a, R x a → Braceless a) (h : FiltersSpelled P R fs ls) :
    Braceless ls := by
  induction h with
  | nil => exact braceless_nil
  | cons hc hf _ ih =>
    rw [List.flatMap_cons, List.forall_mem_append] at hR
    simp [hc.1, hf.braceless hR.1, ih hR.2]

/-- No closing brace is among the lexemes of an expression. -/
theorem Expr.Spelled.braceless [Letters] {e : Expr} (hn : e.Normal) (h : e.Spelled q P ls) : Braceless ls := by
  induction hn generalizing ls with
  | @mk e node children ih =>
    cases h with
    | lit hv hs => exact hv.braceless
    | var hl hs => simp [hl.ne_rbrace]
    | path hp hs => exact hp.braceless
    | @binary op x y s a b o hx ho hy hs =>
      have hop : op.token ≠ .rbrace := by cases op <;> decide
      simp [ih x (by simp [Expr.children]) hx, ho.1, hop, ih y (by simp [Expr.children]) hy]
    | @unary op x s a o ho hx hs =>
      have hop : op.token ≠ .rbrace := by cases op <;> decide
      simp [ho.1, hop, ih x List.mem_cons_self hx]
    | ref ho hx hs => simp [ho.1, ih _ List.mem_cons_self hx]
    | attempt hx ho hs => simp [ih _ List.mem_cons_self hx, ho.1]
    | call hf hxs hs =>
      have hargs := hxs.braceless fun x hx a ha => ih x (List.mem_cons_of_mem _ hx) ha
      simp [ih _ List.mem_cons_self hf, hargs]
    | field hx ho hk hs => simp [ih _ List.mem_cons_self hx, ho.1, hk.ne_rbrace]
    | @index x i s a b o c hx ho hi hc hs =>
      simp [ih x List.mem_cons_self hx, ho.1, ih i (by simp [Expr.children]) hi, hc.1]
    | @rangeFull inclusive s o ho hs => cases inclusive <;> simp [ho.1, rangeToken]
    | @rangeTo y inclusive s b o ho hy hs =>
      cases inclusive <;> simp [ho.1, rangeToken, ih y List.mem_cons_self hy]
    | @rangeFrom x inclusive s a o hx ho hs =>
      cases inclusive <;> simp [ho.1, rangeToken, ih x List.mem_cons_self hx]
    | @rangeBetween x y inclusive s a b o hx ho hy hs =>
      have hleft := ih x List.mem_cons_self hx
      have hright := ih y (by simp [Expr.children]) hy
      cases inclusive <;> simp [ho.1, rangeToken, hleft, hright]
    | array ho h hc hs => simp [ho.1, h.braceless fun x hx a ha => ih x hx ha, hc.1]
    | tuple ho h hc hone hs => simp [ho.1, h.braceless fun x hx a ha => ih x hx ha, hc.1]
    | unit ho hc hs => simp [ho.1, hc.1]
    | group ho hx hc hs => simp [ho.1, ih _ List.mem_cons_self hx, hc.1]
    | filter hx hfs hs =>
      have hfilters := hfs.braceless fun x hx a ha => ih x (List.mem_cons_of_mem _ hx) ha
      simp [ih _ List.mem_cons_self hx, hfilters]
    | isDefined hx ho hc hs => simp [ih _ List.mem_cons_self hx, ho.1, hc.1]
    | isNotDefined hx ho hnot hc hs => simp [ih _ List.mem_cons_self hx, ho.1, hnot.1, hc.1]
    | macroCall hp hxs hs => simp [hp.braceless, hxs.braceless fun x hx a ha => ih x hx ha]

end


/-! ## The inside of a tag -/

theorem Lexeme.InRow.append_one {p q : Nat} {ls : List Lexeme} (h : InRow p ls q) {l : Lexeme}
    (hstart : q ≤ l.span.start) (hlt : l.span.start < l.span.stop) :
    InRow p (ls ++ [l]) l.span.stop := by
  induction ls generalizing p with
  | nil => exact ⟨Nat.le_trans h hstart, hlt, Nat.le_refl _⟩
  | cons m ls ih => exact ⟨h.1, h.2.1, ih h.2.2⟩

/-- A closing delimiter may stand behind lexemes of a tag. -/
theorem Orderly.exists_closed [Letters] {ls : List Lexeme} (h : Orderly ls) :
    ∃ c, c.token.isClosing = true ∧ Orderly (ls ++ [c]) := by
  obtain ⟨p, q, hrow⟩ := h.row
  let c : Lexeme := ⟨.endExpr, ⟨q, q + 1⟩, [], none⟩
  refine ⟨c, rfl, ⟨⟨p, _, hrow.append_one (l := c) (Nat.le_refl q) (Nat.lt_succ_self q)⟩, ?_⟩⟩
  intro l hl
  rcases List.mem_append.1 hl with hmem | hmem
  · exact h.spelled l hmem
  · rw [List.mem_singleton.1 hmem]
    exact .inl rfl

namespace Reader

variable {limit : Nat} {feed rest : Feed}

/-- What a reader takes from a feed it takes from the lexemes that it reads alone. -/
theorem Closes.takes [Letters] {α : Type} {p : Reader α} {R : α → List Lexeme → Prop} {x : α} {part : List Lexeme}
    (h : Closes p part x) (hord : Orderly part) (hp : Takes p R) : R x part := by
  obtain ⟨c, hc, hclosed⟩ := hord.exists_closed
  obtain ⟨used, hused, hr⟩ := hp _ _ _ hclosed (h c (.atEnd 0) ⟨0, 0⟩ hc)
  rwa [← List.append_cancel_right hused] at hr

/-- The place read last is that of the last lexeme. -/
theorem after_of_getLast? {ls : List Lexeme} {l : Lexeme} (h : ls.getLast? = some l) (last : Span) :
    last.after ls = l.span := by
  obtain ⟨front, rfl⟩ := List.getLast?_eq_some_iff.1 h
  rw [Span.after_append]
  rfl

theorem stmt_needs (limit : Nat) : Needs (stmt limit) := by
  refine .next fun c feed r hc h => ?_
  dsimp only at h
  cases htoken : c.token with
  | endExpr | endBlock =>
    rw [htoken] at h
    exact unexpected_ne_ok h
  | _ =>
    rw [htoken] at hc
    cases hc

/-- A statement runs from the lexeme taken first to the one taken last. -/
theorem stmt_span {t : Stmt} {l : Lexeme} {ls : List Lexeme} {stop : Lexer.Stop} {last : Span}
    (h : stmt limit (⟨l :: ls, stop, last⟩ : Feed) = .ok (t, rest)) : t.span = l.span.join rest.last := by
  unfold stmt at h
  obtain ⟨_, mid, hnext, h⟩ := bind_eq_ok_iff.1 h
  cases hnext
  dsimp only at h
  cases htoken : l.token with
  | keyword k =>
    rw [htoken] at h
    dsimp only at h
    cases hbody : (stmtKind? limit k : Option (Reader StmtKind)) with
    | none => rw [hbody] at h; exact (unexpected_ne_ok h).elim
    | some body =>
      rw [hbody] at h
      obtain ⟨kind, mid, -, hpure⟩ := bind_eq_ok_iff.1 h
      cases hpure
      rfl
  | _ => rw [htoken] at h; exact (unexpected_ne_ok h).elim

/-- The span of a statement is over its lexemes. -/
theorem stmt_over [Letters] {t : Stmt} {used : List Lexeme} (hord : Orderly used)
    (h : Closes (stmt limit) used t) : t.span.Over used := by
  have hrun := h closingLexeme (.atEnd 0) ⟨0, 0⟩ rfl
  cases used with
  | nil => exact (stmt_needs limit _ _ _ _ rfl hrun).elim
  | cons l more =>
    have hlast := List.getLast?_eq_some_getLast (List.cons_ne_nil l more)
    rw [stmt_span hrun, after_of_getLast? hlast]
    refine (Span.over_singleton l).join (Span.over_singleton _) hord ?_ ?_
    · exact ⟨more, rfl⟩
    · exact ⟨_, List.dropLast_append_getLast (List.cons_ne_nil l more)⟩

end Reader

namespace Region

open Reader

variable {limit : Nat} {kind : TagKind} {feed rest : Feed} {closing : Lexeme} {ε : Type}
  {A : List Lexeme → ε → Prop}

/-- What stands in a tag was read from the lexemes before its closing delimiter. -/
theorem part_of_tag [Letters] {α : Type} {p : Reader α} {f : α → ε → Prop} (hp : Cuts A (fun _ => False) p f)
    (hord : Orderly feed.lexemes) {make : α → Body} {t : Token} {b : Body}
    (h : (do return (← make <$> p, ← expect t) : Reader _) feed = .ok ((b, closing), rest)) :
    ∃ x used, b = make x ∧ feed.lexemes = used ++ closing :: rest.lexemes ∧ closing.token = t ∧
      Closes p used x ∧ ∀ y, f x y → Stands A used y := by
  obtain ⟨b, mid, hb, hclose⟩ := bind_eq_ok_iff.1 h
  obtain ⟨x, mid', hx, hmap⟩ := bind_eq_ok_iff.1 hb
  cases hmap
  obtain ⟨l, after, hexpect, hpure⟩ := bind_eq_ok_iff.1 hclose
  cases hpure
  obtain ⟨htoken, hls⟩ := expect_eq_ok hexpect
  obtain ⟨used, hcut, hparts⟩ := hp feed hord x mid hx
  refine ⟨x, used, rfl, by rw [hcut.split, hls], htoken, hcut.closes, fun y hy => ?_⟩
  exact (hparts y hy).resolve_left id

/-- An expression tag holds an expression and nothing else. -/
theorem expr_of_body [Letters] {e : Expr} {f : Expr → ε → Prop}
    (hp : Cuts A (fun _ => False) (Reader.expr limit) f)
    (hord : Orderly feed.lexemes) (h : body limit kind feed = .ok ((.expr e, closing), rest)) :
    kind = .expr ∧ ∃ used, feed.lexemes = used ++ closing :: rest.lexemes ∧
      closing.token = .endExpr ∧ Closes (Reader.expr limit) used e ∧ ∀ y, f e y → Stands A used y := by
  cases kind with
  | expr =>
    obtain ⟨x, used, hx, hused⟩ := part_of_tag hp hord h
    cases hx
    exact ⟨rfl, used, hused⟩
  | block =>
    obtain ⟨b, mid, hb, hclose⟩ := bind_eq_ok_iff.1 h
    obtain ⟨x, mid', hx, hmap⟩ := bind_eq_ok_iff.1 hb
    obtain ⟨l, after, hexpect, hpure⟩ := bind_eq_ok_iff.1 hclose
    cases hmap
    cases hpure

/-- A control tag holds a statement and nothing else. -/
theorem stmt_of_body [Letters] {t : Stmt} {f : Stmt → ε → Prop}
    (hp : Cuts A (fun _ => False) (Reader.stmt limit) f)
    (hord : Orderly feed.lexemes) (h : body limit kind feed = .ok ((.stmt t, closing), rest)) :
    kind = .block ∧ ∃ used, feed.lexemes = used ++ closing :: rest.lexemes ∧
      closing.token = .endBlock ∧ Closes (Reader.stmt limit) used t ∧ ∀ y, f t y → Stands A used y := by
  cases kind with
  | expr =>
    obtain ⟨b, mid, hb, hclose⟩ := bind_eq_ok_iff.1 h
    obtain ⟨x, mid', hx, hmap⟩ := bind_eq_ok_iff.1 hb
    obtain ⟨l, after, hexpect, hpure⟩ := bind_eq_ok_iff.1 hclose
    cases hmap
    cases hpure
  | block =>
    obtain ⟨x, used, hx, hused⟩ := part_of_tag hp hord h
    cases hx
    exact ⟨rfl, used, hused⟩

/-- What can be read alone is read in a tag of its own. -/
theorem tag_of_closes {α : Type} {p : Reader α} {x : α} {part : List Lexeme} (h : Closes p part x)
    (make : α → Body) {kind : TagKind} (hclosing : closing.token = Token.closes kind)
    (stop : Lexer.Stop) (last : Span) :
    (do return (← make <$> p, ← expect (Token.closes kind)) : Reader _)
        (⟨part ++ [closing], stop, last⟩ : Feed) =
      .ok ((make x, closing), (⟨[], stop, closing.span⟩ : Feed)) := by
  have hrun := h closing stop last (by rw [hclosing]; exact Token.isClosing_closes kind)
  have hexpect : expect (Token.closes kind) (⟨[closing], stop, last.after part⟩ : Feed) =
      .ok (closing, (⟨[], stop, closing.span⟩ : Feed)) := by
    show (if closing.token = Token.closes kind then pure closing else _ : Reader _) _ = _
    rw [if_pos hclosing]
    rfl
  rw [bind_of_ok (map_of_ok hrun), bind_of_ok hexpect]
  rfl

end Region

/-! ## Stretches of a template -/

namespace Template

open Reader

variable {limit : Nat} {source : String} {ε : Type} {A : List Lexeme → ε → Prop}

/-- Statements are cuts, and their expressions stand alone. -/
theorem exprs_cuts [Letters] (limit : Nat) :
    Cuts (StandsAlone limit) (fun _ => False) (stmt limit)
      fun t y => stmtPart Expr.HasPart noPart t.kind y :=
  stmt_cuts (expr_cuts limit) (pattern_cuts limit) (armPattern_cuts limit)

/-- A statement is read from a stretch, and whatever stands on its lexemes stands on a stretch. -/
theorem stretches_of_stmt [Letters] {t : Stmt} {trims : Trims} {span : Span}
    (hn : .tag t trims span ∈ (Settings.parse ⟨.standard, limit⟩ source).template.nodes) (k : Nat)
    {f : Stmt → ε → Prop} (hp : Cuts A (fun _ => False) (stmt limit) f) :
    (∃ part, HasStretch source.toList k .block part ∧ Closes (stmt limit) part (move (· + k) t)) ∧
      ∀ y, f (move (· + k) t) y → ∃ part, HasStretch source.toList k .block part ∧ A part y := by
  obtain ⟨used, l, inside, kind, closing, rest, hreach, hmode, hbody⟩ :=
    Region.exists_inside_of_node (b := .stmt t) hn k
  obtain ⟨rfl, taken, hls, hclosing, hcloses, hparts⟩ :=
    Region.stmt_of_body hp (Region.orderly_feed hmode) hbody
  have hclosing' : closing.token.isClosing = true := by rw [hclosing]; rfl
  exact ⟨⟨taken, .whole hreach hmode hls hclosing', hcloses⟩,
    fun y hy => HasStretch.of_stands hreach hmode hls hclosing' (hparts y hy)⟩

/-- Every expression stands alone on a stretch. -/
theorem stretch_of_expr [Letters] {n : Node} (hn : n ∈ (Settings.parse ⟨.standard, limit⟩ source).template.nodes)
    {root e : Expr} (hroot : root ∈ n.exprs) (he : root.HasPart e) (k : Nat) :
    ∃ kind part, HasStretch source.toList k kind part ∧ StandsAlone limit part (move (· + k) e) := by
  have hmoved := he.move (· + k)
  cases n with
  | expr e' trims span =>
    obtain rfl := List.mem_singleton.1 hroot
    obtain ⟨used, l, inside, kind, closing, rest, hreach, hmode, hbody⟩ :=
      Region.exists_inside_of_node (b := .expr root) hn k
    obtain ⟨rfl, taken, hls, hclosing, -, hparts⟩ :=
      Region.expr_of_body (expr_cuts limit) (Region.orderly_feed hmode) hbody
    have hclosing' : closing.token.isClosing = true := by rw [hclosing]; rfl
    exact ⟨.expr, HasStretch.of_stands hreach hmode hls hclosing' (hparts _ hmoved)⟩
  | tag t trims span =>
    have hmem : move (· + k) root ∈ (move (· + k) t).kind.exprs := by
      show _ ∈ (move (· + k) t.kind).exprs
      rw [StmtKind.exprs_move]
      exact List.mem_map_of_mem hroot
    exact ⟨.block, (stretches_of_stmt hn k (exprs_cuts limit)).2 _ (.inl ⟨_, hmem, hmoved⟩)⟩
  | _ => cases hroot

/-- The text under the span of an expression is read as the expression. -/
theorem expr_reread [Letters] {n : Node} (hn : n ∈ (Settings.parse ⟨.standard, limit⟩ source).template.nodes)
    {root e : Expr} (hroot : root ∈ n.exprs) (he : root.HasPart e) :
    ∃ text, slice? e.span source.toList = some text ∧
      let read := Settings.parse ⟨.standard, limit⟩ (exprSource (String.ofList text))
      read.diagnostics = [] ∧ ∃ x trims span, read.template.nodes = [.expr x trims span] ∧
        move (· + e.span.start) x = move (· + 3) e := by
  obtain ⟨kind, part, hstretch, halone⟩ := stretch_of_expr hn hroot he 3
  have hread : (move (· + 3) e).ReadFrom part := halone.takes hstretch.orderly (expr_takes limit)
  have hspan : (move (· + 3) e.span).Over part := by
    rw [← Expr.span_move]
    exact hread.spelled.place
  obtain ⟨cs, hslice, close, hinside⟩ := hstretch.exists_text hspan
    (.inr ⟨rfl, hread.spelled.braceless hread.normal⟩) (Nat.add_right_comm e.span.start 2 1)
  obtain ⟨b, trims, span, more, hnodes, hmoved, hend⟩ := parse_of_inside (b := .expr (move (· + 3) e)) hinside
    (fun stop last => ⟨_, _, Region.tag_of_closes halone .expr hinside.closes stop last⟩)
    (by rw [toList_exprSource, String.toList_ofList])
  obtain ⟨rfl, hdiagnostics⟩ := hend rfl
  refine ⟨cs, hslice, hdiagnostics, ?_⟩
  cases b with
  | expr x => exact ⟨x, trims, span, hnodes, Region.Body.expr.inj hmoved⟩
  | stmt t => cases hmoved

/-- The text under the span of a statement is read as the statement. -/
theorem stmt_reread [Letters] {t : Stmt} {trims : Trims} {span : Span}
    (hn : .tag t trims span ∈ (Settings.parse ⟨.standard, limit⟩ source).template.nodes) :
    ∃ text, slice? t.span source.toList = some text ∧
      let read := Settings.parse ⟨.standard, limit⟩ (stmtSource (String.ofList text))
      ∃ t' trims' span' more, read.template.nodes = .tag t' trims' span' :: more ∧
        move (· + t.span.start) t' = move (· + 3) t := by
  obtain ⟨part, hstretch, hcloses⟩ := (stretches_of_stmt hn 3 (exprs_cuts limit)).1
  obtain ⟨cs, hslice, close, hinside⟩ := hstretch.exists_text (s := t.span)
    (stmt_over hstretch.orderly hcloses) (.inl rfl) (Nat.add_right_comm t.span.start 2 1)
  obtain ⟨b, trims, span, more, hnodes, hmoved, -⟩ := parse_of_inside (b := .stmt (move (· + 3) t)) hinside
    (fun stop last => ⟨_, _, Region.tag_of_closes hcloses .stmt hinside.closes stop last⟩)
    (by rw [toList_stmtSource, String.toList_ofList])
  refine ⟨cs, hslice, ?_⟩
  cases b with
  | expr x => cases hmoved
  | stmt t' => exact ⟨t', trims, span, more, hnodes, Region.Body.stmt.inj hmoved⟩

/-- Expressions and statements stand where they say.  Put the text under the span of an expression, however
    deep inside of a tag, between the delimiters of an expression tag: under the same limit that is one
    node, without diagnostics, with the same expression; and put the text under the span of a statement
    between the delimiters of a control tag: the first node is a tag with the same statement.  All places
    are those of the text in the new source. -/
theorem exprs_and_stmts_reread [Letters] (limit : Nat) (source : String) (n : Node)
    (hn : n ∈ (Settings.parse ⟨.standard, limit⟩ source).template.nodes) :
    (∀ root ∈ n.exprs, ∀ e, root.HasPart e →
      ∃ text, slice? e.span source.toList = some text ∧
        let read := Settings.parse ⟨.standard, limit⟩ (exprSource (String.ofList text))
        read.diagnostics = [] ∧ ∃ x trims span, read.template.nodes = [.expr x trims span] ∧
          move (· + e.span.start) x = move (· + 3) e) ∧
    ∀ t trims span, n = .tag t trims span →
      ∃ text, slice? t.span source.toList = some text ∧
        let read := Settings.parse ⟨.standard, limit⟩ (stmtSource (String.ofList text))
        ∃ t' trims' span' more, read.template.nodes = .tag t' trims' span' :: more ∧
          move (· + t.span.start) t' = move (· + 3) t := by
  constructor
  · intro root hroot e he
    exact expr_reread hn hroot he
  · rintro t trims span rfl
    exact stmt_reread hn

/-- The product in the head of a loop is read again, though its first factor stands behind a dot and a
    closing brace could follow. -/
theorem product_reread :
    let source := "\x7b% for x in a.0..b.0 * c!= d %\x7d"
    ∃ n ∈ (parse source).template.nodes,
      (∃ root ∈ n.exprs, ∃ e, root.HasPart e ∧ e.rank = 10 ∧
        ∃ text, slice? e.span source.toList = some text ∧
          let read := parse (exprSource (String.ofList text))
          read.diagnostics = [] ∧ ∃ x trims span, read.template.nodes = [.expr x trims span] ∧
            move (· + e.span.start) x = move (· + 3) e) ∧
      ∃ t trims span, n = .tag t trims span ∧
        ∃ text, slice? t.span source.toList = some text ∧
          let read := parse (stmtSource (String.ofList text))
          ∃ t' trims' span' more, read.template.nodes = .tag t' trims' span' :: more ∧
            move (· + t.span.start) t' = move (· + 3) t := by
  intro source
  have hproduct : (parse source).template.nodes.any (Node.isStmt fun t => t.kind.exprs.any fun root =>
      root.children.any fun c => c.children.any fun e => e.rank == 10) = true := by
    decide +kernel
  obtain ⟨n, hn, hexprs⟩ := List.any_eq_true.1 hproduct
  cases n with
  | tag t trims span =>
    obtain ⟨root, hroot, hchildren⟩ := List.any_eq_true.1 hexprs
    obtain ⟨c, hc, hchildren⟩ := List.any_eq_true.1 hchildren
    obtain ⟨e, he, hrank⟩ := List.any_eq_true.1 hchildren
    have hpart : root.HasPart e := .child hc (.child he (.self e))
    have hboth := exprs_and_stmts_reread 64 source (.tag t trims span) hn
    refine ⟨.tag t trims span, hn, ⟨root, hroot, e, hpart, eq_of_beq hrank, hboth.1 root hroot e hpart⟩, ?_⟩
    exact ⟨t, trims, span, rfl, hboth.2 t trims span rfl⟩
  | _ => cases hexprs

end Template

end Stencil
