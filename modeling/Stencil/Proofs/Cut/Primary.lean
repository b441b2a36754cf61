/-
  Primary — the tag may be closed behind a primary, a suffix or a list of arguments.

  The readers of one level of expressions, over a reader `value` of full expressions of which the same is
  known.  What each of them gives has parts: the full expressions that `value` has read, and whatever
  occurs in these.  The primary itself is not among them, since that it can be read alone is known only
  to the layers above (`Stencil.Proofs.Cut.Expr`).

  Two readers look at the second lexeme as well: the one that finds out whether an argument has a name,
  and the one that leaves the name of a macro to its call.  Each of them finds what it looks for only if
  both lexemes are taken next, so the cut lies behind them.
-/
import Stencil.Proofs.Cut.Reader
import Stencil.Proofs.Expr.Normal
import Stencil.Proofs.Reader.Path

namespace Stencil

/-- The expression `y` occurs inside of `x`, and not as `x` itself. -/
def Expr.Encloses (x y : Expr) : Prop := ∃ c ∈ x.children, c.HasPart y

theorem Expr.hasPart_iff {x y : Expr} : x.HasPart y ↔ y = x ∨ x.Encloses y := by
  constructor
  · rintro (_ | ⟨hc, hy⟩)
    · exact .inl rfl
    · exact .inr ⟨_, hc, hy⟩
  · rintro (rfl | ⟨c, hc, hy⟩)
    · exact .self y
    · exact .child hc hy

theorem Expr.not_encloses {x y : Expr} (h : x.children = []) : ¬ x.Encloses y := by
  rintro ⟨c, hc, -⟩
  rw [h] at hc
  cases hc

namespace Reader

variable {feed rest : Feed}

/-! ## Looking at two lexemes -/

theorem startsNamed_two (l m : Lexeme) (ls : List Lexeme) (stop : Lexer.Stop) (last : Span) :
    startsNamed (⟨l :: m :: ls, stop, last⟩ : Feed) =
      .ok (l.token.isName && m.token == .eq, ⟨l :: m :: ls, stop, last⟩) := by
  show (if l.token.isName = true then secondIs .eq else pure false : Reader Bool) _ = _
  cases l.token.isName <;> rfl

/-- The end of the tag is not the name of an argument. -/
theorem startsNamed_closing {c : Lexeme} (hc : c.token.isClosing = true) (stop : Lexer.Stop)
    (last : Span) : startsNamed (⟨[c], stop, last⟩ : Feed) = .ok (false, ⟨[c], stop, last⟩) := by
  show (if c.token.isName = true then secondIs .eq else pure false : Reader Bool) _ = _
  rw [Token.isName_of_isClosing hc]
  rfl

/-- A name and an equals sign are found only if both of them stay. -/
theorem startsNamed_cut {named : Bool} (h : startsNamed feed = .ok (named, rest)) :
    rest = feed ∧ Cut (if named then 2 else 0) startsNamed feed feed named [] := by
  obtain ⟨found, mid, hpeek, hite⟩ := bind_eq_ok_iff.1 h
  obtain ⟨rfl, rfl⟩ := peek_eq_ok hpeek
  have hfeed : rest = mid ∧ named = (mid.lexemes.head?.any (fun l => l.token.isName) &&
      mid.lexemes.tail.head?.any fun l => l.token == .eq) := by
    split at hite
    · next hname =>
      obtain ⟨hrest, hsecond⟩ := secondIs_eq_ok hite
      rw [hname, Bool.true_and]
      exact ⟨hrest, hsecond⟩
    · next hname =>
      cases hite
      rw [Bool.eq_false_iff.2 hname, Bool.false_and]
      exact ⟨rfl, rfl⟩
  obtain ⟨rfl, hnamed⟩ := hfeed
  refine ⟨rfl, rfl, rfl, .nil, fun ls c stop last hls hahead hc => ?_⟩
  obtain ⟨tail, htail⟩ := hls
  rw [← htail] at hnamed
  match ls with
  | l :: m :: ls =>
    rw [hnamed]
    exact startsNamed_two l m _ stop last
  | [l] =>
    have hfalse : named = false := by
      cases named with
      | true => exact absurd hahead (Nat.lt_irrefl 1)
      | false => rfl
    subst hfalse
    show startsNamed (⟨l :: c :: [], stop, last⟩ : Feed) = _
    have hne : (c.token == .eq) = false := any_closing rfl hc
    rw [startsNamed_two, hne, Bool.and_false]
    rfl
  | [] =>
    have hfalse : named = false := by
      cases named with
      | true => exact absurd hahead (by decide)
      | false => rfl
    subst hfalse
    exact startsNamed_closing hc stop last

/-! ## Arguments and filters -/

section

variable [Letters] {ε : Type} {A : List Lexeme → ε → Prop} {given : ε → Prop} {part : Expr → ε → Prop}
  {value : Reader Expr} (hv : Cuts A (fun _ => False) value part)

include hv

theorem arg_cuts : Cuts A given (arg value) fun a y => part a.value y := by
  intro feed hord a rest h
  obtain ⟨named, mid, hnamed, h⟩ := bind_eq_ok_iff.1 h
  obtain ⟨rfl, hlook⟩ := startsNamed_cut hnamed
  cases named with
  | false =>
    have hcuts : Cuts A given (do return .positional (← value) : Reader Arg)
        fun a y => part a.value y :=
      hv.bind fun x => .pure fun _ h => .inl h
    obtain ⟨used, hcut, hparts⟩ := hcuts mid hord a rest h
    exact ⟨used, hlook.bind hcut (Nat.zero_le _), hparts⟩
  | true =>
    have hcuts : Cuts A given
        (do let name ← ident; let _ ← expect .eq; return .named name (← value) : Reader Arg)
        fun a y => part a.value y :=
      ident_cuts.after fun name => (expect_cuts (by decide)).after fun _ =>
        hv.bind fun x => .pure fun _ h => .inl h
    obtain ⟨used, hcut, hparts⟩ := hcuts mid hord a rest h
    refine ⟨used, hlook.bind hcut ?_, hparts⟩
    -- The name and the equals sign have been taken.
    obtain ⟨name, after, hname, h⟩ := bind_eq_ok_iff.1 h
    obtain ⟨sign, behind, hsign, h⟩ := bind_eq_ok_iff.1 h
    obtain ⟨x, rest', hx, hpure⟩ := bind_eq_ok_iff.1 h
    cases hpure
    obtain ⟨l, -, -, hfirst⟩ := ident_eq_ok hname
    obtain ⟨-, hsecond⟩ := expect_eq_ok hsign
    rw [hfirst, hsecond] at hord
    obtain ⟨used', hcut', -⟩ := hv _ hord.tail.tail _ _ hx
    have hle := hcut'.length_le
    have hlength := hcut.length_eq
    rw [hfirst, hsecond, List.length_cons, List.length_cons] at hlength
    show 2 ≤ used.length + 0
    omega

theorem args_cuts : Cuts A given (args value) fun xs y => ∃ x ∈ xs.values, part x y := by
  refine (expect_cuts (by decide)).after fun opening => ?_
  refine (seq_cuts (arg_cuts hv) rfl (by decide)).bind fun s => .pure fun y hy => ?_
  obtain ⟨x, hx, hy⟩ := hy
  obtain ⟨a, ha, rfl⟩ := List.mem_map.1 hx
  exact .inl ⟨a, ha, hy⟩

omit [Letters] hv in
theorem args_needs (value : Reader Expr) : Needs (args value) := (expect_needs rfl).bind _

theorem filter_cuts : Cuts A given (filter value) fun f y => ∃ x ∈ f.values, part x y := by
  refine ident_cuts.after fun name => ?_
  refine .nextIs rfl (fun given => ?_) ?_
  · refine .ite ((args_cuts hv).bind fun xs => .pure fun _ h => .inl h) (.pure fun y hy => ?_)
    obtain ⟨x, hx, -⟩ := hy
    cases hx
  · exact (args_needs value).bind _

theorem filters_cuts :
    Cuts A given (many (filter? value)) fun fs y => ∃ x ∈ fs.flatMap Filter.values, part x y := by
  have hrow : Cuts A given (many (filter? value)) fun fs y => ∃ f ∈ fs, ∃ x ∈ f.values, part x y :=
    many_after?_cuts rfl (by decide) (filter_cuts hv)
  refine hrow.mono (fun fs y hy => ?_) fun _ h => h
  obtain ⟨x, hx, hy⟩ := hy
  obtain ⟨f, hf, hx⟩ := List.mem_flatMap.1 hx
  exact ⟨f, hf, x, hx, hy⟩

end

section

variable [Letters] {A : List Lexeme → Expr → Prop} {given : Expr → Prop} {value : Reader Expr}
  (hv : Cuts A (fun _ => False) value Expr.HasPart)

include hv

/-! ## Paths and macro calls -/

theorem macroCall_cuts (global : Bool) (segments : List Ident) (start : Span) (name : Lexeme) :
    Cuts A given (macroCall value global segments start name) Expr.Encloses :=
  (args_cuts hv).bind fun _ => .pure fun _ h => .inl h

theorem macroSegment_cuts (global : Bool) (segments : List Ident) (start : Span) :
    Cuts A given (macroSegment value global segments start) Expr.Encloses := by
  refine .next (fun l => ?_) (fun _ _ => unexpected_ne_ok) fun l feed r htoken h => ?_
  · exact .ite (macroCall_cuts hv global segments start l) (.unexpected _ _)
  · dsimp only at h
    rw [if_neg (by rw [htoken]; decide)] at h
    exact unexpected_ne_ok h

omit [Letters] hv in
theorem macroSegment_needs (value : Reader Expr) (global : Bool) (segments : List Ident)
    (start : Span) : Needs (macroSegment value global segments start) := by
  refine .next fun c feed r hc h => ?_
  dsimp only at h
  rw [if_neg fun htoken => by rw [htoken] at hc; cases hc] at h
  exact unexpected_ne_ok h

/-- How many lexemes have to stay where the segments of a path end: a macro name is told by the lexeme
    behind the double colon. -/
def segmentsAhead (ls : List Lexeme) : Nat :=
  if ls.head?.any fun l => l.token == .pathSep then 2 else 0

omit [Letters] hv in
theorem segment?_none (h : segment? feed = .ok (none, rest)) :
    Cut (segmentsAhead rest.lexemes) segment? feed rest none [] := by
  obtain ⟨b, mid, hb, h⟩ := bind_eq_ok_iff.1 h
  have hnext : Cut 1 (nextIs .pathSep) feed feed b [] := looks_cut hb
  obtain ⟨rfl, hfound⟩ := nextIs_eq_ok hb
  cases b with
  | false =>
    cases h
    have hahead : segmentsAhead rest.lexemes = 0 := by
      unfold segmentsAhead
      rw [← hfound]
      rfl
    rw [hahead]
    have hlook : Cut 0 (nextIs .pathSep) rest rest false [] :=
      looks_cut_end hb fun c hc => any_closing rfl hc
    exact hlook.bind (.pure none rest) (Nat.zero_le _)
  | true =>
    rw [if_pos rfl] at h
    obtain ⟨macroName, mid', hsecond, h⟩ := bind_eq_ok_iff.1 h
    obtain ⟨rfl, hlook⟩ := secondIs_cut hsecond
    cases macroName with
    | false =>
      rw [if_neg (by decide)] at h
      obtain ⟨l, mid', -, h⟩ := bind_eq_ok_iff.1 h
      obtain ⟨i, mid', -, hpure⟩ := bind_eq_ok_iff.1 h
      cases hpure
    | true =>
      cases h
      have hahead : segmentsAhead rest.lexemes = 2 := by
        unfold segmentsAhead
        rw [← hfound]
        rfl
      rw [hahead]
      exact hnext.bind (hlook.bind (Cut.weaken (.pure none rest)) (Nat.le_add_left _ _)) (by decide)

omit hv in
theorem segment?_some {i : Ident} (hord : Orderly feed.lexemes)
    (h : segment? feed = .ok (some i, rest)) :
    ∃ used, used ≠ [] ∧ Cut 0 segment? feed rest (some i) used ∧
      ∀ y, noPart i y → Stands A used y := by
  obtain ⟨b, mid, hb, h⟩ := bind_eq_ok_iff.1 h
  have hnext : Cut 1 (nextIs .pathSep) feed feed b [] := looks_cut hb
  obtain ⟨rfl, hfound⟩ := nextIs_eq_ok hb
  cases b with
  | false => cases h
  | true =>
    rw [if_pos rfl] at h
    obtain ⟨macroName, mid', hsecond, h⟩ := bind_eq_ok_iff.1 h
    obtain ⟨rfl, hlook⟩ := secondIs_cut hsecond
    cases macroName with
    | true => cases h
    | false =>
      cases hls : mid'.lexemes with
      | nil => rw [hls] at hfound; cases hfound
      | cons l ls =>
        have htoken : l.token = .pathSep := by
          rw [hls] at hfound
          exact eq_of_beq hfound.symm
        rw [if_neg (by decide), bind_apply, next_cons hls] at h
        rw [hls] at hord
        have hname : Cuts A (fun _ => False) (some <$> ident) noPart :=
          ident_cuts.map fun _ _ h => h.elim
        obtain ⟨used, hcut, -⟩ := hname _ hord.tail _ _ h
        have hne : used ≠ [] := hcut.ne_nil_of_needs (ident_needs.bind _)
        have hdot : l.token ≠ .dot := by rw [htoken]; decide
        have htake := hcut.next (k := fun _ => some <$> ident) hls (hcut.settled.cons hdot)
        refine ⟨l :: used, List.cons_ne_nil _ _, ?_, fun _ h => h.elim⟩
        refine hnext.bind (hlook.bind htake ?_) (Nat.le_add_left _ _)
        have hpos := List.length_pos_iff.2 hne
        rw [List.length_cons]
        omega

/-- A double colon that ends the segments of a path is taken with the macro name behind it. -/
theorem segmentsAhead_le {global : Bool} {segments : List Ident} {start : Span} {q : Reader Expr}
    {x : Expr} {used : List Lexeme} (hord : Orderly feed.lexemes)
    (h : (do if ← eats .pathSep then macroSegment value global segments start else q : Reader Expr)
      feed = .ok (x, rest)) (hused : feed.lexemes.length = used.length + rest.lexemes.length) :
    segmentsAhead feed.lexemes ≤ used.length := by
  unfold segmentsAhead
  split
  · next hfound =>
    obtain ⟨found, mid, heats, h⟩ := bind_eq_ok_iff.1 h
    rcases eats_eq_ok heats with ⟨-, -, hnot⟩ | ⟨rfl, l, -, hls⟩
    · obtain ⟨l, hl, htoken⟩ := (Option.any_eq_true _ _).1 hfound
      exact absurd (eq_of_beq htoken) (hnot l hl)
    · rw [if_pos rfl] at h
      rw [hls] at hord
      have hcuts : Cuts A (fun _ => False) _ _ := macroSegment_cuts hv global segments start
      obtain ⟨used', hcut, -⟩ := hcuts mid hord.tail x rest h
      have hpos := List.length_pos_iff.2 (hcut.ne_nil_of_needs (macroSegment_needs _ _ _ _))
      have hlength := hcut.length_eq
      rw [hls, List.length_cons] at hused
      omega
  · exact Nat.zero_le _

theorem pathExpr_cut (given : Expr → Prop) {global : Bool} {first : Ident} {start : Span} {x : Expr}
    (hord : Orderly feed.lexemes) (h : pathExpr value global first start feed = .ok (x, rest)) :
    ∃ used, Cut 0 (pathExpr value global first start) feed rest x used ∧
      (∀ y, x.Encloses y → given y ∨ Stands A used y) ∧
      (used = [] → segmentsAhead feed.lexemes = 0) := by
  rw [pathExpr_feed] at h ⊢
  obtain ⟨more, mid, hmore, h⟩ := bind_eq_ok_iff.1 h
  obtain ⟨front, hfront, -⟩ := many_cut (A := A) segmentsAhead (fun _ _ _ => segment?_none)
    (fun _ _ _ => segment?_some) hord hmore
  have hend : Cuts A given (do
      if ← eats .pathSep then macroSegment value global (first :: more) start
      else
        let span := start.join ((first :: more).getLastD first).span
        return .path ⟨global, first :: more, span⟩ span) Expr.Encloses :=
    (eats_cuts rfl (by decide)).after fun found => .ite (macroSegment_cuts hv _ _ _)
      (.pure fun y hy => (Expr.not_encloses rfl hy).elim)
  rw [hfront.split] at hord
  obtain ⟨used, hcut, hparts⟩ := hend mid hord.right x rest h
  have hahead := segmentsAhead_le hv hord.right h hcut.length_eq
  refine ⟨front ++ used, hfront.bind hcut hahead, fun y hy => ?_, fun hnil => ?_⟩
  · exact (hparts y hy).imp_right fun h => h.right hfront.settled
  · obtain ⟨rfl, rfl⟩ := List.append_eq_nil_iff.1 hnil
    rw [hfront.split]
    exact Nat.le_zero.1 hahead

theorem pathExpr_cuts (global : Bool) (first : Ident) (start : Span) :
    Cuts A given (pathExpr value global first start) Expr.Encloses := by
  intro feed hord x rest h
  obtain ⟨used, hcut, hparts, -⟩ := pathExpr_cut hv given hord h
  exact ⟨used, hcut, hparts⟩

/-! ## Primaries -/

omit hv in
theorem negative_cuts (minus : Lexeme) : Cuts A given (negative minus) Expr.Encloses := by
  refine .next (fun l => ?_) (fun _ _ => unexpected_ne_ok) fun l feed r htoken h => ?_
  · exact (literalOf_cuts l true).after fun v => .pure fun y hy => (Expr.not_encloses rfl hy).elim
  · obtain ⟨v, mid, hv, -⟩ := bind_eq_ok_iff.1 h
    rw [literalOf_feed, Feed.literalOf] at hv
    rw [htoken] at hv
    exact unexpected_ne_ok hv

omit [Letters] hv in
theorem negative_needs (minus : Lexeme) : Needs (negative minus) := by
  refine .next fun c feed r hc h => ?_
  obtain ⟨v, mid, hv, -⟩ := bind_eq_ok_iff.1 h
  rw [literalOf_feed, Feed.literalOf] at hv
  cases htoken : c.token with
  | endExpr | endBlock => rw [htoken] at hv; exact unexpected_ne_ok hv
  | _ => rw [htoken] at hc; cases hc

theorem parenthesized_cuts (opening : Lexeme) :
    Cuts A given (parenthesized value opening) Expr.Encloses := by
  refine (seq_cuts hv rfl (by decide)).bind fun s => ?_
  obtain ⟨items, trailing, close⟩ := s
  match items, trailing with
  | [], _ => exact .pure fun y hy => (Expr.not_encloses rfl hy).elim
  | [inner], false => exact .pure fun y hy => .inl hy
  | [inner], true => exact .pure fun y hy => .inl hy
  | a :: b :: more, _ => exact .pure fun y hy => .inl hy

theorem bracketed_cuts (opening : Lexeme) :
    Cuts A given (bracketed value opening) Expr.Encloses :=
  (seq_cuts hv rfl (by decide)).bind fun _ => .pure fun _ hy => .inl hy

theorem globalPath_cuts (opening : Lexeme) :
    Cuts A given (globalPath value opening) Expr.Encloses := by
  refine .nextIs rfl (fun found => ?_) (macroSegment_needs _ _ _ _)
  exact .ite (macroSegment_cuts hv _ _ _) (ident_cuts.after fun first => pathExpr_cuts hv _ _ _)

theorem named_cuts (l : Lexeme) : Cuts A given (named value l) Expr.Encloses := by
  intro feed hord
  rw [named, nameOf_bind_feed, nextIs_eq, looks_bind]
  refine CutAt.peek ?_ ?_
  · exact Cuts.ite (pathExpr_cuts hv _ _ _)
      (.pure fun y hy => (Expr.not_encloses rfl hy).elim) feed hord
  · cases hfound : feed.lexemes.head?.any fun l => l.token == .pathSep with
    | false => exact .inr fun c hc => by rw [any_closing rfl hc]
    | true =>
      refine .inl fun x rest h heq => ?_
      rw [if_pos rfl] at h
      obtain ⟨used, hcut, -, hnil⟩ := pathExpr_cut hv (fun _ => False) hord h
      have hahead := hnil (List.self_eq_append_left.1 (heq ▸ hcut.split))
      unfold segmentsAhead at hahead
      rw [if_pos hfound] at hahead
      cases hahead

theorem primary_cuts : Cuts A given (primary value) Expr.Encloses := by
  refine .next (fun l => ?_) (fun _ _ => unexpected_ne_ok) fun l feed r htoken h => ?_
  · dsimp only
    split
    · exact negative_cuts l
    · exact globalPath_cuts hv l
    · exact macroCall_cuts hv _ _ _ l
    · exact parenthesized_cuts hv l
    · exact bracketed_cuts hv l
    · refine .ite ?_ (.ite (named_cuts hv l) (.unexpected _ _))
      exact (literalOf_cuts l false).after fun v => .pure fun y hy => (Expr.not_encloses rfl hy).elim
  · dsimp only at h
    rw [htoken] at h
    dsimp only at h
    rw [if_neg (by decide), if_neg (by decide)] at h
    exact unexpected_ne_ok h

omit [Letters] hv in
theorem primary_needs (value : Reader Expr) : Needs (primary value) := by
  refine .next fun c feed r hc h => ?_
  dsimp only at h
  cases htoken : c.token with
  | endExpr | endBlock =>
    rw [htoken] at h
    dsimp only at h
    rw [if_neg (by decide), if_neg (by decide)] at h
    exact unexpected_ne_ok h
  | _ => rw [htoken] at hc; cases hc

omit hv in
/-- A primary that begins with a minus sign has a number behind it. -/
theorem primary_minus {x : Expr} {l : Lexeme} {used : List Lexeme} (hord : Orderly feed.lexemes)
    (h : primary value feed = .ok (x, rest)) (hsplit : feed.lexemes = used ++ rest.lexemes)
    (hhead : feed.lexemes.head? = some l) (hl : l.token = .minus) : 2 ≤ used.length := by
  rcases next_bind_eq_ok h with ⟨hnil, -⟩ | ⟨l', mid, hcons, -, h⟩
  · rw [hnil] at hhead
    cases hhead
  · rw [hcons] at hhead hord
    cases hhead
    dsimp only at h
    rw [hl] at h
    have hcuts : Cuts (fun _ _ => True) (fun _ => False) _ _ := negative_cuts l
    obtain ⟨used', hcut, -⟩ := hcuts mid hord.tail x rest h
    have hpos := List.length_pos_iff.2 (hcut.ne_nil_of_needs (negative_needs l))
    have hlength := congrArg List.length hsplit
    rw [hcons, hcut.split, List.length_cons, List.length_append, List.length_append] at hlength
    omega

/-! ## Suffixes -/

omit hv in
theorem key_cuts : Cuts A given key (noPart : Key → Expr → Prop) := by
  refine .next (fun l => ?_) (fun _ _ => unexpected_ne_ok) fun l feed r htoken h => ?_
  · dsimp only
    split
    · exact .give _
    · exact .give _
    · rw [indexOf_bind_feed]
      exact .ite (.give _) (.fail _)
    · exact .unexpected _ _
  · dsimp only at h
    rw [htoken] at h
    exact unexpected_ne_ok h

omit [Letters] hv in
theorem key_needs : Needs key := by
  refine .next fun c feed r hc h => ?_
  dsimp only at h
  cases htoken : c.token with
  | endExpr | endBlock => rw [htoken] at h; exact unexpected_ne_ok h
  | _ => rw [htoken] at hc; cases hc

/-- The suffix of `x` that the next lexeme begins.  The lexeme is taken with it. -/
theorem suffix_cut {x : Expr} {l : Lexeme} {ls : List Lexeme} (hord : Orderly feed.lexemes)
    (hls : feed.lexemes = l :: ls) : CutAt A x.HasPart (suffix value x l) Expr.Encloses feed ∧
      ∀ y rest, suffix value x l feed = .ok (y, rest) →
        rest.lexemes.length < feed.lexemes.length := by
  have hword : Cuts A x.HasPart (do
      let k ← key
      return .field x k (x.span.join k.span) : Reader Expr) Expr.Encloses :=
    key_cuts.after fun k => .pure fun y hy => by
      obtain ⟨c, hc, hy⟩ := hy
      rw [List.mem_singleton.1 hc] at hy
      exact hy
  have hindex : Cuts A x.HasPart (do
      let i ← value
      let close ← expect .rbracket
      return .index x i (x.span.join close.span) : Reader Expr) Expr.Encloses := by
    refine hv.bind fun i => (expect_cuts (by decide)).after fun close => .pure fun y hy => ?_
    obtain ⟨c, hc, hy⟩ := hy
    rcases List.mem_cons.1 hc with rfl | hc
    · exact .inr hy
    · rw [List.mem_singleton.1 hc] at hy
      exact .inl hy
  have hcall : Cuts A x.HasPart (do
      let given ← args value
      return .call x given (x.span.join given.span) : Reader Expr) Expr.Encloses := by
    refine (args_cuts hv).bind fun xs => .pure fun y hy => ?_
    obtain ⟨c, hc, hy⟩ := hy
    rcases List.mem_cons.1 hc with rfl | hc
    · exact .inr hy
    · exact .inl ⟨c, hc, hy⟩
  have hattempt : CutAt A x.HasPart (Pure.pure (.attempt x (x.span.join l.span)) : Reader Expr)
      Expr.Encloses ⟨ls, feed.stop, l.span⟩ := by
    refine .pure fun y hy => ?_
    obtain ⟨c, hc, hy⟩ := hy
    rw [List.mem_singleton.1 hc] at hy
    exact hy
  have htail : Orderly ls := by
    rw [hls] at hord
    exact hord.tail
  obtain ⟨p, hp⟩ : ∃ p, p = suffix value x l := ⟨_, rfl⟩
  rw [← hp]
  unfold suffix at hp
  split at hp <;> subst hp
  · refine ⟨hcall feed hord, fun y rest h => ?_⟩
    obtain ⟨used, hcut, -⟩ := hcall feed hord y rest h
    have hpos := List.length_pos_iff.2 (hcut.ne_nil_of_needs ((args_needs value).bind _))
    have hlength := hcut.length_eq
    omega
  · refine ⟨.next hls (hword _ htail) fun _ z rest hz => ⟨fun heq => ?_, fun y hy => ?_⟩,
      fun _ _ h => CutAt.next_shorter hls (hword _ htail) h⟩
    · obtain ⟨used, hcut, -⟩ := hword _ htail z rest hz
      exact hcut.ne_nil_of_needs (key_needs.bind _) (List.self_eq_append_left.1 (heq ▸ hcut.split))
    · obtain ⟨k, mid, -, hpure⟩ := bind_eq_ok_iff.1 hz
      cases hpure
      obtain ⟨c, hc, hy⟩ := hy
      rw [List.mem_singleton.1 hc] at hy
      exact hy
  · next htoken =>
    refine ⟨.next hls (hindex _ htail) fun hdot => ?_,
      fun _ _ h => CutAt.next_shorter hls (hindex _ htail) h⟩
    rw [htoken] at hdot
    cases hdot
  · next hdot _ =>
    exact ⟨.next hls hattempt fun htoken => absurd htoken hdot,
      fun _ _ h => CutAt.next_shorter hls hattempt h⟩

end

end Reader

end Stencil
