/-
  Soundness — what is read as an expression is an expression in normal form.

  Every reader of `Stencil.Reader.Expr` takes lexemes from the front of the feed; what it gives is
  listed by these lexemes, stands over them and is normal (`Expr.ReadFrom`).  The proof goes layer by
  layer, each over a sound reader of full expressions, and the knot is tied by recursion on the
  budget.

  A reader that goes on from something already read is given the lexemes of that: its lemma speaks of
  `pre ++ used`, where `pre` was read before.  Ranks come from the layers.  The one that is not local
  is the loop over operators.  Its invariant is about the operator that comes next (`Accepts`): it
  must be loose enough to take what has been read as its left operand.  After a right operand this
  holds since the loop inside that operand has refused the operator; after filters, since the loop
  over filters has taken every bar.
-/
import Stencil.Proofs.Reader.Orderly
import Stencil.Proofs.Reader.Path
import Stencil.Proofs.Template.Turn

namespace Stencil

/-- The lexemes list the expression, its parts stand over theirs, and it is normal. -/
structure Expr.ReadFrom [Letters] (e : Expr) (ls : List Lexeme) : Prop where
  spelled : e.Spelled Quoting.any Span.Over ls
  normal : e.Normal

/-- The same for an argument. -/
structure Arg.ReadFrom [Letters] (x : Arg) (ls : List Lexeme) : Prop where
  spelled : x.SpelledBy Span.Over (Expr.Spelled Quoting.any Span.Over) ls
  normal : x.value.Normal
  name : ∀ n ∈ x.name?, isName n.name = true

/-- The same for an argument list. -/
structure Args.ReadFrom [Letters] (xs : Args) (ls : List Lexeme) : Prop where
  spelled : xs.SpelledBy Span.Over (Expr.Spelled Quoting.any Span.Over) ls
  normal : ∀ x ∈ xs.values, x.Normal
  names : xs.NamesOk

/-- The same for a filter. -/
structure Filter.ReadFrom [Letters] (f : Filter) (ls : List Lexeme) : Prop where
  spelled : f.SpelledBy Span.Over (Expr.Spelled Quoting.any Span.Over) ls
  normal : ∀ x ∈ f.values, x.Normal
  names : f.NamesOk

/-- The same for filters with bars before them. -/
structure FiltersReadFrom [Letters] (fs : List Filter) (ls : List Lexeme) : Prop where
  spelled : FiltersSpelled Span.Over (Expr.Spelled Quoting.any Span.Over) fs ls
  normal : ∀ x ∈ fs.flatMap Filter.values, x.Normal
  names : ∀ f ∈ fs, f.NamesOk

theorem Args.SpelledBy.place {P : Span → List Lexeme → Prop} {R : Expr → List Lexeme → Prop}
    {xs : Args} {ls : List Lexeme} (h : xs.SpelledBy P R ls) : P xs.span ls := by
  cases h; assumption

theorem Filter.SpelledBy.place {P : Span → List Lexeme → Prop} {R : Expr → List Lexeme → Prop}
    {f : Filter} {ls : List Lexeme} (h : f.SpelledBy P R ls) : P f.span ls := by
  cases h <;> assumption

/-! ## Paths -/

theorem SegmentsSpelled.append {P : Span → List Lexeme → Prop} {front more : List Ident}
    {a b : List Lexeme} (h : SegmentsSpelled P front a) (hmore : SegmentsSpelled P more b) :
    SegmentsSpelled P (front ++ more) (a ++ b) := by
  induction h with
  | nil => exact hmore
  | cons hc hi _ ih => exact .cons hc hi ih

theorem PathSpelled.append {P : Span → List Lexeme → Prop} {global : Bool}
    {front more : List Ident} {a b : List Lexeme} (h : PathSpelled P global front a)
    (hmore : SegmentsSpelled P more b) : PathSpelled P global (front ++ more) (a ++ b) := by
  cases h with
  | absolute h => exact .absolute (h.append hmore)
  | relative hi h => exact .relative hi (h.append hmore)

/-- The last of some names is the last lexeme. -/
theorem SegmentsSpelled.last {P : Span → List Lexeme → Prop} {i : Ident} {more : List Ident}
    {ls : List Lexeme} (d : Ident) (h : SegmentsSpelled P (i :: more) ls) :
    ∃ before l, ls = before ++ [l] ∧ ((i :: more).getLastD d).Spelled P l := by
  induction more generalizing i ls d with
  | nil =>
    cases h with
    | @cons _ _ c l _ hc hi h =>
      cases h with
      | nil => exact ⟨[c], l, rfl, hi⟩
  | cons j more ih =>
    cases h with
    | @cons _ _ c l _ hc hi h =>
      obtain ⟨before, l', rfl, hlast⟩ := ih i h
      exact ⟨c :: l :: before, l', rfl, hlast⟩

/-- The last name of a path is its last lexeme. -/
theorem PathSpelled.last {P : Span → List Lexeme → Prop} {global : Bool} {i : Ident}
    {more : List Ident} {ls : List Lexeme} (h : PathSpelled P global (i :: more) ls) :
    ∃ before l, ls = before ++ [l] ∧ ((i :: more).getLastD i).Spelled P l := by
  cases h with
  | absolute h => exact h.last i
  | @relative _ _ l ls hi h =>
    cases more with
    | nil =>
      cases h with
      | nil => exact ⟨[], l, rfl, hi⟩
    | cons j more =>
      obtain ⟨before, l', rfl, hlast⟩ := h.last i
      exact ⟨l :: before, l', rfl, hlast⟩

namespace Reader

variable {feed rest : Feed}

/-! ## Names and constants -/

theorem ident_takes [Letters] : Takes ident fun i ls =>
    ∃ l, ls = [l] ∧ i.Spelled Span.Over l ∧ isName i.name = true := by
  intro feed i rest hord h
  obtain ⟨l, hname, rfl, hls⟩ := ident_eq_ok h
  rw [hls] at hord
  obtain ⟨hword, hisName⟩ := hord.name List.mem_cons_self hname
  exact ⟨[l], hls, l, rfl, ⟨hword, Span.over_singleton l⟩, hisName⟩

/-- A sign that is asked for is taken. -/
theorem expect_takes [Letters] {t : Token} (hsign : t.sign?.isSome = true) :
    Takes (expect t) fun l ls => ls = [l] ∧ l.Is t := by
  intro feed l rest hord h
  obtain ⟨ht, hls⟩ := expect_eq_ok h
  rw [hls] at hord
  exact ⟨[l], hls, rfl, hord.is List.mem_cons_self ht hsign⟩

theorem textOf_eq_ok [Letters] {l : Lexeme} {v : String} (hl : l.token.Spells l.text) (ht : l.token = .str)
    (h : textOf l feed = .ok (v, rest)) :
    rest = feed ∧ IsQuoted '\x22' false l.text v.toList := by
  rw [ht] at hl
  obtain ⟨value, hquoted⟩ := hl
  obtain ⟨body, htext, hend, hvalue⟩ := hquoted
  rw [textOf_feed, Feed.textOf] at h
  rw [quotedBody_of_eq htext, hvalue] at h
  cases h
  exact ⟨rfl, body, htext, hend, by rw [String.toList_ofList]; exact hvalue⟩

theorem charOf_eq_ok [Letters] {l : Lexeme} {v : Char} (hl : l.token.Spells l.text) (ht : l.token = .char)
    (h : Feed.charOf l feed = .ok (v, rest)) : rest = feed ∧ IsQuoted '\x27' true l.text [v] := by
  rw [ht] at hl
  obtain ⟨c, hquoted⟩ := hl
  obtain ⟨body, htext, hend, hvalue⟩ := hquoted
  unfold Feed.charOf at h
  rw [quotedBody_of_eq htext, hvalue] at h
  cases h
  exact ⟨rfl, body, htext, hend, hvalue⟩

theorem number?_eq_some {raw : List Char} {negative : Bool} {n : Number}
    (h : Numeral.number? raw negative = some n) :
    n.raw.toList = raw ∧ n.negative = negative := by
  unfold Numeral.number? at h
  obtain ⟨⟨kind, suffix⟩, -, hsome⟩ := Option.bind_eq_some_iff.1 h
  cases hsome
  exact ⟨String.toList_ofList, rfl⟩

/-- A number is read as it is written. -/
theorem isWritten_of_number? {raw : List Char} {negative : Bool} {n : Number}
    (hraw : isNumeral raw = true) (h : Numeral.number? raw negative = some n) : n.IsWritten := by
  obtain ⟨hr, hn⟩ := number?_eq_some h
  rw [Number.IsWritten, hr, hn]
  exact ⟨hraw, h⟩

/-- The constant that a lexeme spells is listed by it. -/
theorem literalOf_eq_ok [Letters] {l : Lexeme} {v : Literal} (s : Span)
    (hl : l.token.isClosing = true ∨ l.token.Spells l.text)
    (h : literalOf l false feed = .ok (v, rest)) :
    rest = feed ∧ v.Spelled Quoting.any [l] ∧ (Expr.lit v s).NodeNormal := by
  generalize hp : (literalOf l false : Reader Literal) = p at h
  rw [literalOf_feed, Feed.literalOf] at hp
  split at hp <;> subst hp
  · next ht =>
    obtain ⟨t, rest', htext, hpure⟩ := bind_eq_ok_iff.1 h
    cases hpure
    rcases hl with hclose | hl
    · rw [ht] at hclose; cases hclose
    · obtain ⟨rfl, hquoted⟩ := textOf_eq_ok hl ht htext
      exact ⟨rfl, .str ht hquoted, trivial⟩
  · next ht =>
    obtain ⟨c, rest', hchar, hpure⟩ := bind_eq_ok_iff.1 h
    cases hpure
    rcases hl with hclose | hl
    · rw [ht] at hclose; cases hclose
    · obtain ⟨rfl, hquoted⟩ := charOf_eq_ok hl ht hchar
      exact ⟨rfl, .char ht hquoted, trivial⟩
  · next ht =>
    cases hn : Numeral.number? l.text false with
    | some n =>
      rw [hn] at h
      cases h
      obtain ⟨hraw, hneg⟩ := number?_eq_some hn
      rcases hl with hclose | hl
      · rw [ht] at hclose; cases hclose
      · rw [ht] at hl
        exact ⟨rfl, .num hneg ht hraw.symm, isWritten_of_number? hl hn⟩
    | none =>
      rw [hn] at h
      cases h
  · next ht =>
    cases h
    rcases hl with hclose | hl
    · rw [ht] at hclose; cases hclose
    · rw [ht] at hl
      exact ⟨rfl, .bool ⟨ht, hl⟩, trivial⟩
  · next ht =>
    cases h
    rcases hl with hclose | hl
    · rw [ht] at hclose; cases hclose
    · rw [ht] at hl
      exact ⟨rfl, .bool ⟨ht, hl⟩, trivial⟩
  · exact (unexpected_ne_ok h).elim

section

variable [Letters] {value : Reader Expr} (hv : Takes value Expr.ReadFrom)

include hv

/-! ## Arguments and filters -/

omit hv in
/-- A bracketed list stands over its brackets and what they enclose. -/
theorem brackets_take {α : Type} {R : α → List Lexeme → Prop} {item : Reader α}
    (hitem : Takes item R) {o : Lexeme} {close : Token} {s : Seq α}
    (hord : Orderly (o :: feed.lexemes)) (hsign : close.sign?.isSome = true)
    (h : seq close item feed = .ok (s, rest)) :
    ∃ used c, feed.lexemes = (used ++ [c]) ++ rest.lexemes ∧ c.Is close ∧
      (o.span.join s.close).Over (o :: (used ++ [c])) ∧ Commas R s.items s.trailing used := by
  obtain ⟨used, c, hls, hc, hclose, hcommas⟩ := seq_takes hitem hord.tail h
  have hlist : feed.lexemes = (used ++ [c]) ++ rest.lexemes := by rw [hls]; simp
  rw [hlist] at hord
  have hrow : Orderly (o :: (used ++ [c])) := hord.left (a := o :: (used ++ [c]))
  refine ⟨used, c, hlist, hrow.tail.right.is List.mem_cons_self hc hsign, ?_, hcommas⟩
  rw [hclose]
  exact (Span.over_singleton o).join (Span.over_singleton c) hrow ⟨used ++ [c], rfl⟩
    ⟨o :: used, rfl⟩

theorem arg_takes : Takes (arg value) Arg.ReadFrom := by
  intro feed x rest hord h
  obtain ⟨named, mid, hstarts, hite⟩ := bind_eq_ok_iff.1 h
  have hmid : mid.lexemes = feed.lexemes := by
    obtain ⟨found, mid', hpeek, hsecond⟩ := bind_eq_ok_iff.1 hstarts
    obtain ⟨rfl, -⟩ := peek_eq_ok hpeek
    split at hsecond
    · rw [(secondIs_eq_ok hsecond).1]
    · cases hsecond; rfl
  rw [← hmid] at hord ⊢
  split at hite
  · obtain ⟨i, afterName, hident, hrest⟩ := bind_eq_ok_iff.1 hite
    obtain ⟨eq, afterEq, heq, hrest⟩ := bind_eq_ok_iff.1 hrest
    obtain ⟨e, rest', hvalue, hpure⟩ := bind_eq_ok_iff.1 hrest
    cases hpure
    obtain ⟨_, hls, l, rfl, hi, hname⟩ := ident_takes _ _ _ hord hident
    rw [hls] at hord ⊢
    obtain ⟨_, hls', rfl, hc⟩ := expect_takes rfl _ _ _ hord.right heq
    rw [hls'] at hord ⊢
    obtain ⟨used, hls'', he⟩ := hv _ _ _ hord.right.right hvalue
    refine ⟨l :: eq :: used, by rw [hls'']; rfl, .named hi hc he.spelled, he.normal, ?_⟩
    rintro n ⟨rfl⟩
    exact hname
  · obtain ⟨e, rest', hvalue, hpure⟩ := bind_eq_ok_iff.1 hite
    cases hpure
    obtain ⟨used, hls, he⟩ := hv _ _ _ hord hvalue
    exact ⟨used, hls, .positional he.spelled, he.normal, fun n hn => by cases hn⟩

theorem args_takes : Takes (args value) Args.ReadFrom := by
  intro feed xs rest hord h
  obtain ⟨o, mid, hopen, hrest⟩ := bind_eq_ok_iff.1 h
  obtain ⟨s, rest', hseq, hpure⟩ := bind_eq_ok_iff.1 hrest
  cases hpure
  obtain ⟨_, hls, rfl, ho⟩ := expect_takes rfl _ _ _ hord hopen
  rw [hls] at hord ⊢
  obtain ⟨used, c, hls', hc, hspan, hcommas⟩ := brackets_take (arg_takes hv) hord rfl hseq
  refine ⟨o :: (used ++ [c]), by rw [hls']; rfl, ?_, ?_, ?_⟩
  · exact .mk ho (hcommas.imp fun x ls hx => hx.spelled) hc hspan
  · intro x hx
    obtain ⟨a, ha, rfl⟩ := List.mem_map.1 hx
    obtain ⟨part, -, hread⟩ := hcommas.part ha
    exact hread.normal
  · intro a ha n hn
    obtain ⟨part, -, hread⟩ := hcommas.part ha
    exact hread.name n hn

theorem filter_takes : Takes (filter value) Filter.ReadFrom := by
  intro feed f rest hord h
  obtain ⟨i, mid, hident, hrest⟩ := bind_eq_ok_iff.1 h
  obtain ⟨given, mid', hnext, hite⟩ := bind_eq_ok_iff.1 hrest
  obtain ⟨rfl, -⟩ := nextIs_eq_ok hnext
  obtain ⟨_, hls, l, rfl, hi, hname⟩ := ident_takes _ _ _ hord hident
  have hspan : i.span.Over [l] := hi.2
  rw [hls] at hord ⊢
  split at hite
  · obtain ⟨xs, rest', hargs, hpure⟩ := bind_eq_ok_iff.1 hite
    cases hpure
    obtain ⟨used, hls', hxs⟩ := args_takes hv _ _ _ hord.right hargs
    rw [hls', ← List.append_assoc] at hord
    refine ⟨l :: used, by rw [hls']; rfl, ?_, hxs.normal, hname, ?_⟩
    · refine .given hi hxs.spelled ?_
      exact hspan.join hxs.spelled.place hord.left ⟨used, rfl⟩ ⟨[l], rfl⟩
    · rintro ys ⟨rfl⟩
      exact hxs.names
  · cases hite
    refine ⟨[l], rfl, .plain hi hspan, ?_, hname, ?_⟩
    · intro x hx; cases hx
    · intro ys hys; cases hys

/-- A row of filters takes the bars and the filters, and ends where no bar follows. -/
theorem filters_take {fs : List Filter} (hord : Orderly feed.lexemes)
    (h : many (filter? value) feed = .ok (fs, rest)) :
    ∃ used, feed.lexemes = used ++ rest.lexemes ∧ FiltersReadFrom fs used ∧
      ∀ l ∈ rest.lexemes.head?, l.token ≠ .pipe := by
  refine many_takes (S := FiltersReadFrom) (Q := fun ls => ∀ l ∈ ls.head?, l.token ≠ .pipe)
    ?_ ?_ ?_ hord h
  · refine ⟨.nil, ?_, ?_⟩
    · intro x hx; cases hx
    · intro f hf; cases hf
  · intro feed rest hnone
    obtain ⟨b, mid, heats, hite⟩ := bind_eq_ok_iff.1 hnone
    rcases eats_eq_ok heats with ⟨rfl, rfl, hnot⟩ | ⟨rfl, l, -, -⟩
    · cases hite
      exact ⟨rfl, hnot⟩
    · obtain ⟨f, mid', -, hpure⟩ := bind_eq_ok_iff.1 hite
      cases hpure
  · intro feed f rest hord hsome
    obtain ⟨b, mid, heats, hite⟩ := bind_eq_ok_iff.1 hsome
    rcases eats_eq_ok heats with ⟨rfl, -, -⟩ | ⟨rfl, c, hc, hls⟩
    · cases hite
    · obtain ⟨f', mid', hfilter, hpure⟩ := bind_eq_ok_iff.1 hite
      cases hpure
      rw [hls] at hord ⊢
      have hpipe : c.Is .pipe := hord.is List.mem_cons_self hc rfl
      obtain ⟨used, hls', hf⟩ := filter_takes hv _ _ _ hord.tail hfilter
      refine ⟨c :: used, List.cons_ne_nil _ _, by rw [hls']; rfl, ?_⟩
      intro fs more hmore
      refine ⟨.cons hpipe hf.spelled hmore.spelled, ?_, ?_⟩
      · intro x hx
        rw [List.flatMap_cons, List.mem_append] at hx
        exact hx.elim (hf.normal x) (hmore.normal x)
      · intro g hg
        rcases List.mem_cons.1 hg with rfl | hg
        · exact hf.names
        · exact hmore.names g hg

/-! ## Paths and macro calls -/

omit hv in
/-- Further segments take double colons and names. -/
theorem segments_take {more : List Ident} (hord : Orderly feed.lexemes)
    (h : many segment? feed = .ok (more, rest)) :
    ∃ used, feed.lexemes = used ++ rest.lexemes ∧ SegmentsSpelled Span.Over more used ∧
      ∀ i ∈ more, isName i.name = true := by
  suffices hmany : ∃ used, feed.lexemes = used ++ rest.lexemes ∧
      (SegmentsSpelled Span.Over more used ∧ ∀ i ∈ more, isName i.name = true) ∧ True by
    obtain ⟨used, hls, hmore, -⟩ := hmany
    exact ⟨used, hls, hmore⟩
  refine many_takes
    (S := fun more used => SegmentsSpelled Span.Over more used ∧ ∀ i ∈ more, isName i.name = true)
    (Q := fun _ => True) ⟨.nil, fun i hi => by cases hi⟩ ?_ ?_ hord h
  · intro feed rest hnone
    obtain ⟨b, mid, hnext, hite⟩ := bind_eq_ok_iff.1 hnone
    obtain ⟨rfl, -⟩ := nextIs_eq_ok hnext
    split at hite
    · obtain ⟨b', mid', hsecond, hite'⟩ := bind_eq_ok_iff.1 hite
      obtain ⟨rfl, -⟩ := secondIs_eq_ok hsecond
      split at hite'
      · cases hite'; exact ⟨rfl, trivial⟩
      · obtain ⟨found, after, -, hrest⟩ := bind_eq_ok_iff.1 hite'
        obtain ⟨i, after', -, hpure⟩ := bind_eq_ok_iff.1 hrest
        cases hpure
    · cases hite; exact ⟨rfl, trivial⟩
  · intro feed i rest hord hsome
    obtain ⟨b, mid, hnext, hite⟩ := bind_eq_ok_iff.1 hsome
    obtain ⟨rfl, hb⟩ := nextIs_eq_ok hnext
    split at hite
    · next hsep =>
      obtain ⟨b', mid', hsecond, hite'⟩ := bind_eq_ok_iff.1 hite
      obtain ⟨rfl, -⟩ := secondIs_eq_ok hsecond
      split at hite'
      · cases hite'
      · rcases next_bind_eq_ok hite' with ⟨hnil, -⟩ | ⟨c, after, hls, -, hrest⟩
        · rw [hb, hnil] at hsep
          cases hsep
        · rw [hb, hls] at hsep
          have hc : c.token = .pathSep := eq_of_beq hsep
          obtain ⟨i', after', hident, hpure⟩ := bind_eq_ok_iff.1 hrest
          cases hpure
          rw [hls] at hord ⊢
          obtain ⟨_, hls', l, rfl, hi, hname⟩ := ident_takes _ _ _ hord.tail hident
          refine ⟨[c, l], List.cons_ne_nil _ _, by rw [hls']; rfl, ?_⟩
          intro more used hmore
          refine ⟨.cons (hord.is List.mem_cons_self hc rfl) hi hmore.1, ?_⟩
          intro j hj
          rcases List.mem_cons.1 hj with rfl | hj
          · exact hname
          · exact hmore.2 j hj
    · cases hite

/-- A macro call goes on from its path with the arguments. -/
theorem macroCall_takes {global : Bool} {segments : List Ident} {o m : Lexeme} (pre : List Lexeme)
    {x : Expr} (hord : Orderly (pre ++ feed.lexemes)) (hhead : pre.head? = some o)
    (hm : m ∈ pre) (ht : m.token = .macroName) (hsegments : ∀ i ∈ segments, isName i.name = true)
    (hpre : ∀ i : Ident, m.IsMark i.name → MacroSpelled Span.Over global (segments ++ [i]) pre)
    (h : macroCall value global segments o.span m feed = .ok (x, rest)) :
    ∃ used, feed.lexemes = used ++ rest.lexemes ∧ x.ReadFrom (pre ++ used) ∧ x.rank = 14 := by
  obtain ⟨_, _, hstem, h⟩ := bind_eq_ok_iff.1 h
  cases hstem
  obtain ⟨xs, rest', hargs, hpure⟩ := bind_eq_ok_iff.1 h
  cases hpure
  obtain ⟨used, hls, hxs⟩ := args_takes hv _ _ _ hord.right hargs
  obtain ⟨hmark, hplain⟩ := hord.left.mark hm ht
  rw [hls, ← List.append_assoc] at hord
  have hfront : [o] <+: pre ++ used := by
    obtain ⟨rest, rfl⟩ := List.head?_eq_some_iff.1 hhead
    exact ⟨rest ++ used, rfl⟩
  refine ⟨used, hls, ⟨.macroCall (hpre _ hmark) hxs.spelled ?_, .mk ⟨?_, hxs.names⟩ hxs.normal⟩, rfl⟩
  · exact (Span.over_singleton o).join hxs.spelled.place hord.left hfront ⟨pre, rfl⟩
  · exact ⟨segments, _, rfl, hsegments, hplain⟩

theorem macroSegment_takes {global : Bool} {segments : List Ident} {o c : Lexeme}
    (pre : List Lexeme) {x : Expr} (hord : Orderly (pre ++ c :: feed.lexemes))
    (hhead : (pre ++ [c]).head? = some o) (hc : c.token = .pathSep)
    (hsegments : ∀ i ∈ segments, isName i.name = true)
    (hpre : PathSpelled Span.Over global segments pre)
    (h : macroSegment value global segments o.span feed = .ok (x, rest)) :
    ∃ used, feed.lexemes = used ++ rest.lexemes ∧ x.ReadFrom (pre ++ c :: used) ∧
      x.rank = 14 := by
  rcases next_bind_eq_ok h with ⟨-, hnone⟩ | ⟨m, mid, hls, -, hite⟩
  · exact (unexpected_ne_ok hnone).elim
  · dsimp only at hite
    split at hite
    · next ht =>
      have hsep : c.Is .pathSep := hord.right.is List.mem_cons_self hc rfl
      have hsame : pre ++ c :: feed.lexemes = (pre ++ [c, m]) ++ mid.lexemes := by
        rw [hls]; simp
      rw [hsame] at hord
      have hhead' : (pre ++ [c, m]).head? = some o := by
        rw [← hhead, List.head?_append, List.head?_append]
        rfl
      obtain ⟨used, hls', hx, hrank⟩ := macroCall_takes hv _ hord hhead' (by simp) ht hsegments
        (fun i hi => .qualified hpre hsep hi) hite
      refine ⟨m :: used, by rw [hls, hls']; rfl, ?_, hrank⟩
      have hwhole : pre ++ c :: m :: used = (pre ++ [c, m]) ++ used := by simp
      rw [hwhole]
      exact hx
    · exact (unexpected_ne_ok hite).elim

/-- A path goes on from its first name `first`; without a leading double colon one has to follow. -/
theorem pathExpr_takes {global : Bool} {first : Ident} {o : Lexeme} (pre : List Lexeme) {x : Expr}
    (hord : Orderly (pre ++ feed.lexemes)) (hhead : pre.head? = some o)
    (hfirst : PathSpelled Span.Over global [first] pre) (hname : isName first.name = true)
    (hfollow : global = false → ∃ l ∈ feed.lexemes.head?, l.token = .pathSep)
    (h : pathExpr value global first o.span feed = .ok (x, rest)) :
    ∃ used, feed.lexemes = used ++ rest.lexemes ∧ x.ReadFrom (pre ++ used) ∧ x.rank = 14 := by
  rw [pathExpr_feed] at h
  obtain ⟨more, mid, hmany, hrest⟩ := bind_eq_ok_iff.1 h
  obtain ⟨b, mid', heats, hite⟩ := bind_eq_ok_iff.1 hrest
  obtain ⟨used, hls, hmore, hnames⟩ := segments_take hord.right hmany
  have hsegments : ∀ i ∈ first :: more, isName i.name = true := by
    intro i hi
    rcases List.mem_cons.1 hi with rfl | hi
    · exact hname
    · exact hnames i hi
  have hpath : PathSpelled Span.Over global (first :: more) (pre ++ used) := hfirst.append hmore
  have hhead' : (pre ++ used).head? = some o := by rw [List.head?_append, hhead]; rfl
  rcases eats_eq_ok heats with ⟨rfl, rfl, hnot⟩ | ⟨rfl, c, hc, hls'⟩
  · -- A plain path.
    cases hite
    rw [hls, ← List.append_assoc] at hord
    obtain ⟨before, l, hwhole, hl⟩ := hpath.last
    have hfront : [o] <+: pre ++ used := by
      obtain ⟨tail, htail⟩ := List.head?_eq_some_iff.1 hhead'
      exact ⟨tail, htail.symm⟩
    refine ⟨used, hls, ⟨.path hpath ?_, .mk ⟨hsegments, ?_⟩ (fun c hc => by cases hc)⟩, rfl⟩
    · exact (Span.over_singleton o).join hl.2 hord.left hfront ⟨before, hwhole.symm⟩
    · cases global with
      | true => exact Nat.succ_le_succ (Nat.zero_le _)
      | false =>
        cases more with
        | cons i more => exact Nat.succ_le_succ (Nat.succ_le_succ (Nat.zero_le _))
        | nil =>
          -- Nothing was taken, so the double colon is still there.
          cases hmore
          obtain ⟨l, hl, hsep⟩ := hfollow rfl
          rw [hls] at hl
          exact absurd hsep (hnot l hl)
  · have hsame : pre ++ feed.lexemes = (pre ++ used) ++ c :: mid'.lexemes := by
      rw [hls, hls']; simp
    rw [hsame] at hord
    have hhead'' : ((pre ++ used) ++ [c]).head? = some o := by
      rw [List.head?_append, hhead']; rfl
    obtain ⟨used', hls'', hx, hrank⟩ := macroSegment_takes hv _ hord hhead'' hc hsegments hpath hite
    refine ⟨used ++ c :: used', by rw [hls, hls', hls'']; simp, ?_, hrank⟩
    rw [← List.append_assoc]
    exact hx

/-! ## Primaries -/

omit hv in
/-- A number after a minus sign is listed with the sign. -/
theorem negative_takes {m : Lexeme} {x : Expr} (hord : Orderly (m :: feed.lexemes))
    (hm : m.token = .minus) (hfollow : ∃ l ∈ feed.lexemes.head?, l.token = .number)
    (h : negative m feed = .ok (x, rest)) :
    ∃ used, feed.lexemes = used ++ rest.lexemes ∧ x.ReadFrom (m :: used) ∧ x.rank = 14 := by
  rcases next_bind_eq_ok h with ⟨-, hnone⟩ | ⟨l, mid, hls, -, hsome⟩
  · exact (unexpected_ne_ok hnone).elim
  · obtain ⟨v, mid', hlit, hpure⟩ := bind_eq_ok_iff.1 hsome
    obtain ⟨l', hl', ht⟩ := hfollow
    rw [hls] at hl' hord ⊢
    obtain rfl : l = l' := Option.some.inj hl'
    have hnumeral : isNumeral l.text = true := by
      have hspells := hord.tail.spells List.mem_cons_self (by rw [ht]; rfl)
      rw [ht] at hspells
      exact hspells
    rw [literalOf_feed, Feed.literalOf] at hlit
    rw [ht] at hlit
    dsimp only at hlit
    cases hn : Numeral.number? l.text true with
    | none => rw [hn] at hlit; cases hlit
    | some n =>
      rw [hn] at hlit
      cases hlit
      cases hpure
      obtain ⟨hraw, hneg⟩ := number?_eq_some hn
      have hminus : m.Is .minus := hord.is List.mem_cons_self hm rfl
      have hrow : Orderly [m, l] := hord.left (a := [m, l])
      refine ⟨[l], rfl, ⟨.lit (.negative hneg hminus ht hraw.symm) ?_, .mk ?_ ?_⟩, rfl⟩
      · exact (Span.over_singleton m).join (Span.over_singleton l) hrow ⟨[l], rfl⟩ ⟨[m], rfl⟩
      · exact isWritten_of_number? hnumeral hn
      · intro c hc
        cases hc

theorem parenthesized_takes {o : Lexeme} {x : Expr} (hord : Orderly (o :: feed.lexemes))
    (ho : o.token = .lparen) (h : parenthesized value o feed = .ok (x, rest)) :
    ∃ used, feed.lexemes = used ++ rest.lexemes ∧ x.ReadFrom (o :: used) ∧ x.rank = 14 := by
  obtain ⟨s, mid, hseq, hmatch⟩ := bind_eq_ok_iff.1 h
  obtain ⟨used, c, hls, hc, hspan, hcommas⟩ := brackets_take hv hord rfl hseq
  have hopen : o.Is .lparen := hord.is List.mem_cons_self ho rfl
  have hnormal : ∀ e ∈ s.items, e.Normal := by
    intro e he
    obtain ⟨part, -, hread⟩ := hcommas.part he
    exact hread.normal
  have hspelled := hcommas.imp fun _ _ he => Expr.ReadFrom.spelled he
  obtain ⟨items, trailing, close⟩ := s
  rcases items with _ | ⟨e, _ | ⟨e', es⟩⟩
  · -- Nothing between the parentheses.
    cases hmatch
    cases hcommas
    exact ⟨[c], hls, ⟨.unit hopen hc hspan, .mk trivial fun c hc => by cases hc⟩, rfl⟩
  · cases trailing with
    | false =>
      cases hmatch
      cases hcommas with
      | last he =>
        refine ⟨used ++ [c], hls, ⟨.group hopen he.spelled hc hspan, .mk trivial ?_⟩, rfl⟩
        intro d hd
        rw [List.mem_singleton.1 hd]
        exact he.normal
    | true =>
      cases hmatch
      refine ⟨used ++ [c], hls, ⟨.tuple hopen hspelled hc (fun _ => rfl) hspan, ?_⟩, rfl⟩
      exact .mk (List.cons_ne_nil _ _) hnormal
  · cases hmatch
    refine ⟨used ++ [c], hls, ⟨.tuple hopen hspelled hc ?_ hspan, ?_⟩, rfl⟩
    · intro hone
      exact absurd hone (by simp)
    · exact .mk (List.cons_ne_nil _ _) hnormal

theorem bracketed_takes {o : Lexeme} {x : Expr} (hord : Orderly (o :: feed.lexemes))
    (ho : o.token = .lbracket) (h : bracketed value o feed = .ok (x, rest)) :
    ∃ used, feed.lexemes = used ++ rest.lexemes ∧ x.ReadFrom (o :: used) ∧ x.rank = 14 := by
  obtain ⟨s, mid, hseq, hpure⟩ := bind_eq_ok_iff.1 h
  cases hpure
  obtain ⟨used, c, hls, hc, hspan, hcommas⟩ := brackets_take hv hord rfl hseq
  have hopen : o.Is .lbracket := hord.is List.mem_cons_self ho rfl
  have hspelled := hcommas.imp fun _ _ he => Expr.ReadFrom.spelled he
  refine ⟨used ++ [c], hls, ⟨.array hopen hspelled hc hspan, .mk trivial ?_⟩, rfl⟩
  intro e he
  obtain ⟨part, -, hread⟩ := hcommas.part he
  exact hread.normal

theorem globalPath_takes {o : Lexeme} {x : Expr} (hord : Orderly (o :: feed.lexemes))
    (ho : o.token = .pathSep) (h : globalPath value o feed = .ok (x, rest)) :
    ∃ used, feed.lexemes = used ++ rest.lexemes ∧ x.ReadFrom (o :: used) ∧ x.rank = 14 := by
  have hopen : o.Is .pathSep := hord.is List.mem_cons_self ho rfl
  obtain ⟨b, mid, hnext, hite⟩ := bind_eq_ok_iff.1 h
  obtain ⟨rfl, -⟩ := nextIs_eq_ok hnext
  split at hite
  · exact macroSegment_takes hv [] hord rfl ho (fun i hi => by cases hi)
      (.absolute .nil) hite
  · obtain ⟨i, mid', hident, hpath⟩ := bind_eq_ok_iff.1 hite
    obtain ⟨_, hls, l, rfl, hi, hname⟩ := ident_takes _ _ _ hord.tail hident
    rw [hls] at hord ⊢
    obtain ⟨used, hls', hx, hrank⟩ := pathExpr_takes hv [o, l] hord rfl
      (.absolute (.cons hopen hi .nil)) hname (fun hg => by cases hg) hpath
    exact ⟨l :: used, by rw [hls']; rfl, hx, hrank⟩

theorem named_takes {l : Lexeme} {x : Expr} (hord : Orderly (l :: feed.lexemes))
    (ht : l.token.isName = true) (h : named value l feed = .ok (x, rest)) :
    ∃ used, feed.lexemes = used ++ rest.lexemes ∧ x.ReadFrom (l :: used) ∧ x.rank = 14 := by
  obtain ⟨hword, hname⟩ := hord.name List.mem_cons_self ht
  rw [named, nameOf_bind_feed] at h
  obtain ⟨b, mid, hnext, hite⟩ := bind_eq_ok_iff.1 h
  obtain ⟨rfl, hb⟩ := nextIs_eq_ok hnext
  split at hite
  · next hsep =>
    have hfirst : PathSpelled Span.Over false [identOf l] [l] :=
      .relative ⟨hword, Span.over_singleton l⟩ .nil
    refine pathExpr_takes hv [l] hord rfl hfirst hname (fun _ => ?_) hite
    rw [hb] at hsep
    obtain ⟨c, hc, hcsep⟩ := (Option.any_eq_true _ _).1 hsep
    exact ⟨c, hc, eq_of_beq hcsep⟩
  · cases hite
    refine ⟨[], rfl, ⟨.var hword (Span.over_singleton l), .mk hname ?_⟩, rfl⟩
    intro c hc
    cases hc

/-- A primary is read from what it begins with on.  A minus sign can only begin a number. -/
theorem primary_takes {x : Expr} (hord : Orderly feed.lexemes)
    (hminus : ∀ l ∈ feed.lexemes.head?, l.token = .minus →
      ∃ l' ∈ feed.lexemes.tail.head?, l'.token = .number)
    (h : primary value feed = .ok (x, rest)) :
    ∃ used, feed.lexemes = used ++ rest.lexemes ∧ x.ReadFrom used ∧ x.rank = 14 := by
  rcases next_bind_eq_ok h with ⟨-, hnone⟩ | ⟨l, mid, hls, -, hsome⟩
  · exact (unexpected_ne_ok hnone).elim
  · rw [hls] at hord hminus ⊢
    -- Each branch gives what it takes after the first lexeme.
    suffices hafter : ∃ used, mid.lexemes = used ++ rest.lexemes ∧ x.ReadFrom (l :: used) ∧
        x.rank = 14 by
      obtain ⟨used, hused, hx⟩ := hafter
      exact ⟨l :: used, by rw [hused]; rfl, hx⟩
    dsimp only at hsome
    obtain ⟨p, hp, hpx⟩ : ∃ p : Reader Expr, _ = p ∧ p mid = .ok (x, rest) := ⟨_, rfl, hsome⟩
    split at hp <;> subst hp
    · next ht => exact negative_takes hord ht (hminus l rfl ht) hpx
    · next ht => exact globalPath_takes hv hord ht hpx
    · next ht =>
      refine macroCall_takes hv [l] hord rfl List.mem_cons_self ht ?_ ?_ hpx
      · intro i hi
        cases hi
      · exact fun i hi => .alone hi
    · next ht => exact parenthesized_takes hv hord ht hpx
    · next ht => exact bracketed_takes hv hord ht hpx
    · split at hpx
      · obtain ⟨v, mid', hlit, hpure⟩ := bind_eq_ok_iff.1 hpx
        cases hpure
        obtain ⟨rfl, hv, hnormal⟩ := literalOf_eq_ok l.span
          (hord.spelled l List.mem_cons_self) hlit
        refine ⟨[], rfl, ⟨.lit hv (Span.over_singleton l), .mk hnormal ?_⟩, rfl⟩
        intro c hc
        cases hc
      · split at hpx
        · next hname => exact named_takes hv hord hname hpx
        · exact (unexpected_ne_ok hpx).elim

/-! ## Suffixes -/

omit hv in
theorem key_takes : Takes key fun k ls => ∃ l, ls = [l] ∧ k.Spelled Span.Over l ∧ k.IsWritten := by
  intro feed k rest hord h
  rcases next_bind_eq_ok h with ⟨-, hnone⟩ | ⟨l, mid, hls, -, hsome⟩
  · exact (unexpected_ne_ok hnone).elim
  · rw [hls] at hord ⊢
    have hword : (l.token = .ident ∨ ∃ w, l.token = .keyword w) → k = .name (identOf l) →
        k.Spelled Span.Over l ∧ k.IsWritten := by
      rintro ht rfl
      obtain ⟨hword, hisWord⟩ := hord.word List.mem_cons_self ht
      refine ⟨.name ⟨hword, Span.over_singleton l⟩, ?_⟩
      show isWord (String.ofList l.text).toList = true
      rw [String.toList_ofList]
      exact hisWord
    dsimp only at hsome
    obtain ⟨p, hp, hpx⟩ : ∃ p : Reader Key, _ = p ∧ p mid = .ok (k, rest) := ⟨_, rfl, hsome⟩
    split at hp <;> subst hp
    · next ht => cases hpx; exact ⟨[l], rfl, l, rfl, hword (.inl ht) rfl⟩
    · next w ht => cases hpx; exact ⟨[l], rfl, l, rfl, hword (.inr ⟨w, ht⟩) rfl⟩
    · next ht =>
      rw [indexOf_bind_feed] at hpx
      split at hpx
      · next hindex =>
        cases hpx
        rw [Bool.and_eq_true, decide_eq_true_eq] at hindex
        have hne : l.text ≠ [] := by
          have hspells := hord.spells List.mem_cons_self (by rw [ht]; rfl)
          rw [ht] at hspells
          intro hnil
          rw [hnil] at hspells
          cases hspells
        exact ⟨[l], rfl, l, rfl, .index ht hne hindex.1 rfl (Span.over_singleton l), hindex.2⟩
      · cases hpx
    · exact (unexpected_ne_ok hpx).elim

/-! What a suffix makes of the expression it is attached to is read from the lexemes of both. -/

section

variable {x : Expr} {pre : List Lexeme}

omit hv in
theorem call_readFrom {xs : Args} {used : List Lexeme} (hord : Orderly (pre ++ used))
    (hx : x.ReadFrom pre) (hrank : x.rank = 14) (hxs : xs.ReadFrom used) :
    (Expr.call x xs (x.span.join xs.span)).ReadFrom (pre ++ used) := by
  have hplace : x.span.Over pre := hx.spelled.place
  refine ⟨.call hx.spelled hxs.spelled ?_, .mk ⟨hrank, hxs.names⟩ ?_⟩
  · exact hplace.join hxs.spelled.place hord ⟨used, rfl⟩ ⟨pre, rfl⟩
  · exact List.forall_mem_cons.2 ⟨hx.normal, hxs.normal⟩

omit hv in
theorem field_readFrom {k : Key} {o l : Lexeme} (hord : Orderly (pre ++ [o, l]))
    (hx : x.ReadFrom pre) (hrank : x.rank = 14) (ho : o.Is .dot) (hk : k.Spelled Span.Over l)
    (hwritten : k.IsWritten) :
    (Expr.field x k (x.span.join k.span)).ReadFrom (pre ++ [o, l]) := by
  have hplace : x.span.Over pre := hx.spelled.place
  have hkplace : k.span.Over [l] := by
    cases hk with
    | name hi => exact hi.2
    | index _ _ _ _ hs => exact hs
  refine ⟨.field hx.spelled ho hk ?_, .mk ⟨hrank, hwritten⟩ (List.forall_mem_singleton.2 hx.normal)⟩
  exact hplace.join hkplace hord ⟨[o, l], rfl⟩ ⟨pre ++ [o], by simp⟩

omit hv in
theorem index_readFrom {i : Expr} {o c : Lexeme} {used : List Lexeme}
    (hord : Orderly (pre ++ o :: (used ++ [c]))) (hx : x.ReadFrom pre) (hrank : x.rank = 14)
    (ho : o.Is .lbracket) (hi : i.ReadFrom used) (hc : c.Is .rbracket) :
    (Expr.index x i (x.span.join c.span)).ReadFrom (pre ++ o :: (used ++ [c])) := by
  have hplace : x.span.Over pre := hx.spelled.place
  refine ⟨.index hx.spelled ho hi.spelled hc ?_, .mk hrank ?_⟩
  · exact hplace.join (Span.over_singleton c) hord ⟨o :: (used ++ [c]), rfl⟩
      ⟨pre ++ o :: used, by simp⟩
  · exact List.forall_mem_cons.2 ⟨hx.normal, List.forall_mem_singleton.2 hi.normal⟩

omit hv in
theorem attempt_readFrom {o : Lexeme} (hord : Orderly (pre ++ [o])) (hx : x.ReadFrom pre)
    (hrank : x.rank = 14) (ho : o.Is .question) :
    (Expr.attempt x (x.span.join o.span)).ReadFrom (pre ++ [o]) := by
  have hplace : x.span.Over pre := hx.spelled.place
  refine ⟨.attempt hx.spelled ho ?_, .mk hrank (List.forall_mem_singleton.2 hx.normal)⟩
  exact hplace.join (Span.over_singleton o) hord ⟨[o], rfl⟩ ⟨pre, rfl⟩

end

/-- A suffix goes on from what it is attached to. -/
theorem suffix_takes {l : Lexeme} {pre : List Lexeme} {x y : Expr}
    (hord : Orderly (pre ++ feed.lexemes)) (hx : x.ReadFrom pre) (hrank : x.rank = 14)
    (hl : feed.lexemes.head? = some l) (hsuffix : isSuffix l.token = true)
    (h : suffix value x l feed = .ok (y, rest)) :
    ∃ used, feed.lexemes = used ++ rest.lexemes ∧ y.ReadFrom (pre ++ used) ∧ y.rank = 14 := by
  obtain ⟨ls, hls⟩ := List.head?_eq_some_iff.1 hl
  -- All suffixes but a call begin with taking the lexeme.
  have htaken : ∀ {α : Type} {k : Option Lexeme → Reader α} {r : α × Feed},
      (next >>= k) feed = .ok r → ∃ mid, feed.lexemes = l :: mid.lexemes ∧ k (some l) mid = .ok r := by
    intro α k r hk
    rcases next_bind_eq_ok hk with ⟨hnil, -⟩ | ⟨l', mid, hls', -, hk'⟩
    · rw [hls] at hnil; cases hnil
    · obtain rfl : l = l' := by rw [hls'] at hl; exact (Option.some.inj hl).symm
      exact ⟨mid, hls', hk'⟩
  unfold suffix at h
  obtain ⟨p, hp, hpx⟩ : ∃ p : Reader Expr, _ = p ∧ p feed = .ok (y, rest) := ⟨_, rfl, h⟩
  split at hp <;> subst hp
  · next ht =>
    obtain ⟨xs, rest', hargs, hpure⟩ := bind_eq_ok_iff.1 hpx
    cases hpure
    obtain ⟨used, hls', hxs⟩ := args_takes hv _ _ _ hord.right hargs
    rw [hls', ← List.append_assoc] at hord
    exact ⟨used, hls', call_readFrom hord.left hx hrank hxs, rfl⟩
  · next ht =>
    obtain ⟨mid, hmid, hrest⟩ := htaken hpx
    obtain ⟨k, rest', hkey, hpure⟩ := bind_eq_ok_iff.1 hrest
    cases hpure
    rw [hmid] at hord ⊢
    have hdot : l.Is .dot := hord.right.is List.mem_cons_self ht rfl
    obtain ⟨_, hls', l', rfl, hk, hwritten⟩ := key_takes _ _ _ hord.right.tail hkey
    have hsame : pre ++ l :: mid.lexemes = (pre ++ [l, l']) ++ rest.lexemes := by rw [hls']; simp
    rw [hsame] at hord
    exact ⟨[l, l'], by rw [hls']; rfl, field_readFrom hord.left hx hrank hdot hk hwritten, rfl⟩
  · next ht =>
    obtain ⟨mid, hmid, hrest⟩ := htaken hpx
    obtain ⟨i, mid', hindex, hrest'⟩ := bind_eq_ok_iff.1 hrest
    obtain ⟨c, rest', hclose, hpure⟩ := bind_eq_ok_iff.1 hrest'
    cases hpure
    rw [hmid] at hord ⊢
    have hopen : l.Is .lbracket := hord.right.is List.mem_cons_self ht rfl
    obtain ⟨used, hls', hi⟩ := hv _ _ _ hord.right.tail hindex
    rw [hls'] at hord
    obtain ⟨_, hls'', rfl, hc⟩ := expect_takes rfl _ _ _ hord.right.tail.right hclose
    have hsame : pre ++ l :: (used ++ mid'.lexemes) =
        (pre ++ l :: (used ++ [c])) ++ rest.lexemes := by rw [hls'']; simp
    rw [hsame] at hord
    exact ⟨l :: (used ++ [c]), by rw [hls', hls'']; simp,
      index_readFrom hord.left hx hrank hopen hi hc, rfl⟩
  · next hparen hdot hbracket =>
    obtain ⟨mid, hmid, hpure⟩ := htaken hpx
    cases hpure
    have ht : l.token = .question := by
      unfold isSuffix at hsuffix
      split at hsuffix
      · next ht => exact absurd ht hparen
      · next ht => exact absurd ht hdot
      · next ht => exact absurd ht hbracket
      · next ht => exact ht
      · cases hsuffix
    rw [hmid] at hord ⊢
    have hquestion : l.Is .question := hord.right.is List.mem_cons_self ht rfl
    have hsame : pre ++ l :: rest.lexemes = (pre ++ [l]) ++ rest.lexemes := by simp
    rw [hsame] at hord
    exact ⟨[l], rfl, attempt_readFrom hord.left hx hrank hquestion, rfl⟩

end

/-! ## Operators -/

variable [Letters] {e : Nat → Reader Expr} (limit : Nat) (he : ∀ k, Takes (e k) Expr.ReadFrom)

include he

omit [Letters] he in
/-- What one round of the loop over suffixes does: it ends before what is no suffix, or it reads a
    suffix at the cost of one level. -/
theorem suffixes_cases {budget : Nat} {x y : Expr}
    (h : suffixes limit e budget x feed = .ok (y, rest)) :
    (x = y ∧ rest = feed ∧ ∀ l ∈ feed.lexemes.head?, isSuffix l.token = false) ∨
      ∃ left l z mid, budget = left + 1 ∧ feed.lexemes.head? = some l ∧ isSuffix l.token = true ∧
        suffix (e left) x l feed = .ok (z, mid) ∧ suffixes limit e left z mid = .ok (y, rest) := by
  unfold suffixes at h
  obtain ⟨found, mid, hpeek, hmatch⟩ := bind_eq_ok_iff.1 h
  obtain ⟨rfl, hfound⟩ := peek_eq_ok hpeek
  cases found with
  | none =>
    cases hmatch
    refine .inl ⟨rfl, rfl, fun l hl => ?_⟩
    rw [← hfound] at hl
    cases hl
  | some l =>
    dsimp only at hmatch
    split at hmatch
    · next hsuffix =>
      cases budget with
      | zero => exact (tooDeep_ne_ok hmatch).elim
      | succ left =>
        obtain ⟨z, mid', hz, hmore⟩ := bind_eq_ok_iff.1 hmatch
        exact .inr ⟨left, l, z, mid', rfl, hfound.symm, hsuffix, hz, hmore⟩
    · next hsuffix =>
      cases hmatch
      refine .inl ⟨rfl, rfl, fun l' hl' => ?_⟩
      rw [← hfound] at hl'
      cases hl'
      exact Bool.eq_false_iff.2 hsuffix

theorem suffixes_take {budget : Nat} {pre : List Lexeme} {x y : Expr}
    (hord : Orderly (pre ++ feed.lexemes)) (hx : x.ReadFrom pre) (hrank : x.rank = 14)
    (h : suffixes limit e budget x feed = .ok (y, rest)) :
    ∃ used, feed.lexemes = used ++ rest.lexemes ∧ y.ReadFrom (pre ++ used) ∧ y.rank = 14 := by
  induction budget using Nat.strongRecOn generalizing pre x feed with
  | ind budget ih =>
    rcases suffixes_cases limit h with ⟨rfl, rfl, -⟩ | ⟨left, l, z, mid, rfl, hl, hsuffix, hz, hmore⟩
    · exact ⟨[], rfl, by rw [List.append_nil]; exact hx, hrank⟩
    · obtain ⟨used, hls, hread, hzrank⟩ := suffix_takes (he left) hord hx hrank hl hsuffix hz
      rw [hls, ← List.append_assoc] at hord
      obtain ⟨used', hls', hread', hyrank⟩ :=
        ih left (Nat.lt_succ_self left) hord hread hzrank hmore
      refine ⟨used ++ used', by rw [hls, hls', List.append_assoc], ?_, hyrank⟩
      rw [← List.append_assoc]
      exact hread'

/-- A primary with its suffixes, and a test after it. -/
theorem tested_takes {budget : Nat} {x : Expr} (hord : Orderly feed.lexemes)
    (hminus : ∀ l ∈ feed.lexemes.head?, l.token = .minus →
      ∃ l' ∈ feed.lexemes.tail.head?, l'.token = .number)
    (h : tested limit e budget feed = .ok (x, rest)) :
    ∃ used, feed.lexemes = used ++ rest.lexemes ∧ x.ReadFrom used ∧ 12 ≤ x.rank := by
  obtain ⟨y, mid, hprimary, hrest⟩ := bind_eq_ok_iff.1 h
  obtain ⟨z, mid', hsuffixes, hrest'⟩ := bind_eq_ok_iff.1 hrest
  obtain ⟨isIt, after, his, hite⟩ := bind_eq_ok_iff.1 hrest'
  obtain ⟨a, hls, hy, hyrank⟩ := primary_takes (he budget) hord hminus hprimary
  rw [hls] at hord ⊢
  obtain ⟨b, hls', hz, hzrank⟩ := suffixes_take limit he hord hy hyrank hsuffixes
  rw [hls', ← List.append_assoc] at hord ⊢
  rcases eats_eq_ok his with ⟨rfl, rfl, -⟩ | ⟨rfl, o, ho, hls''⟩
  · cases hite
    exact ⟨a ++ b, rfl, hz, by omega⟩
  · obtain ⟨negated, after', hnot, hrest''⟩ := bind_eq_ok_iff.1 hite
    obtain ⟨c, rest', hdefined, hpure⟩ := bind_eq_ok_iff.1 hrest''
    cases hpure
    have hplace : z.span.Over (a ++ b) := hz.spelled.place
    have hnormal : (Expr.isDefined z negated (z.span.join c.span)).Normal := by
      refine .mk hzrank fun d hd => ?_
      rw [List.mem_singleton.1 hd]
      exact hz.normal
    rw [hls''] at hord ⊢
    have hisKw : o.Is (.keyword .isKw) := hord.right.is List.mem_cons_self ho rfl
    rcases eats_eq_ok hnot with ⟨rfl, rfl, -⟩ | ⟨rfl, n, hn, hls₃⟩
    · obtain ⟨_, hls₃, rfl, hc⟩ := expect_takes rfl _ _ _ hord.right.tail hdefined
      have hsame : (a ++ b) ++ o :: after'.lexemes = ((a ++ b) ++ [o, c]) ++ rest.lexemes := by
        rw [hls₃]; simp
      rw [hsame] at hord ⊢
      refine ⟨(a ++ b) ++ [o, c], rfl, ⟨.isDefined hz.spelled hisKw hc ?_, hnormal⟩, Nat.le_succ 12⟩
      exact hplace.join (Span.over_singleton c) hord.left ⟨[o, c], rfl⟩ ⟨(a ++ b) ++ [o], by simp⟩
    · rw [hls₃] at hord ⊢
      have hnotIs : n.Is (.keyword .notKw) := hord.right.tail.is List.mem_cons_self hn rfl
      obtain ⟨_, hls₄, rfl, hc⟩ := expect_takes rfl _ _ _ hord.right.tail.tail hdefined
      have hsame : (a ++ b) ++ o :: n :: after'.lexemes = ((a ++ b) ++ [o, n, c]) ++ rest.lexemes := by
        rw [hls₄]; simp
      rw [hsame] at hord ⊢
      refine ⟨(a ++ b) ++ [o, n, c], rfl, ⟨.isNotDefined hz.spelled hisKw hnotIs hc ?_, hnormal⟩,
        Nat.le_succ 12⟩
      exact hplace.join (Span.over_singleton c) hord.left ⟨[o, n, c], rfl⟩
        ⟨(a ++ b) ++ [o, n], by simp⟩

omit [Letters] he in
/-- Where no unary operator follows, a minus sign stands before a number. -/
theorem unary?_eq_none (h : unary? feed = .ok (none, rest)) :
    rest = feed ∧ ∀ l ∈ feed.lexemes.head?, l.token = .minus →
      ∃ l' ∈ feed.lexemes.tail.head?, l'.token = .number := by
  obtain ⟨found, mid, hpeek, hmatch⟩ := bind_eq_ok_iff.1 h
  obtain ⟨rfl, hfound⟩ := peek_eq_ok hpeek
  cases found with
  | none =>
    cases hmatch
    refine ⟨rfl, fun l hl => ?_⟩
    rw [← hfound] at hl
    cases hl
  | some l =>
    dsimp only at hmatch
    obtain ⟨p, hp, hpx⟩ : ∃ p : Reader (Option (Unary × Span)), _ = p ∧ p mid = .ok (none, rest) :=
      ⟨_, rfl, hmatch⟩
    split at hp <;> subst hp
    · cases hpx
    · cases hpx
    · cases hpx
    · obtain ⟨b, mid', hsecond, hite⟩ := bind_eq_ok_iff.1 hpx
      obtain ⟨rfl, hb⟩ := secondIs_eq_ok hsecond
      split at hite
      · next hnumber =>
        cases hite
        rw [hb] at hnumber
        obtain ⟨l', hl', ht⟩ := (Option.any_eq_true _ _).1 hnumber
        exact ⟨rfl, fun _ _ _ => ⟨l', hl', eq_of_beq ht⟩⟩
      · cases hite
    · next hminus =>
      cases hpx
      refine ⟨rfl, fun l' hl' ht => ?_⟩
      rw [← hfound] at hl'
      cases hl'
      exact absurd ht hminus

omit he in
/-- The token of a unary operator. -/
def Unary.token : Unary → Token
  | ref => .amp
  | op o => o.token

omit [Letters] he in
/-- A unary operator is the next lexeme; a minus sign is one only if no number follows. -/
theorem unary?_eq_some {u : Unary} {s : Span} (h : unary? feed = .ok (some (u, s), rest)) :
    rest = feed ∧ ∃ l, feed.lexemes.head? = some l ∧ l.token = u.token ∧ s = l.span ∧
      (u = .op .neg → ∀ l' ∈ feed.lexemes.tail.head?, l'.token ≠ .number) := by
  obtain ⟨found, mid, hpeek, hmatch⟩ := bind_eq_ok_iff.1 h
  obtain ⟨rfl, hfound⟩ := peek_eq_ok hpeek
  cases found with
  | none => cases hmatch
  | some l =>
    dsimp only at hmatch
    obtain ⟨p, hp, hpx⟩ : ∃ p : Reader (Option (Unary × Span)),
      _ = p ∧ p mid = .ok (some (u, s), rest) := ⟨_, rfl, hmatch⟩
    split at hp <;> subst hp
    · next ht => cases hpx; exact ⟨rfl, l, hfound.symm, ht, rfl, fun hneg => by cases hneg⟩
    · next ht => cases hpx; exact ⟨rfl, l, hfound.symm, ht, rfl, fun hneg => by cases hneg⟩
    · next ht => cases hpx; exact ⟨rfl, l, hfound.symm, ht, rfl, fun hneg => by cases hneg⟩
    · next ht =>
      obtain ⟨b, mid', hsecond, hite⟩ := bind_eq_ok_iff.1 hpx
      obtain ⟨rfl, hb⟩ := secondIs_eq_ok hsecond
      split at hite
      · cases hite
      · next hnumber =>
        cases hite
        refine ⟨rfl, l, hfound.symm, ht, rfl, fun _ l' hl' hl'' => hnumber ?_⟩
        rw [hb, Option.any_eq_true]
        exact ⟨l', hl', beq_iff_eq.2 hl''⟩
    · cases hpx

/-- An operand with the unary operators before it. -/
theorem unary_takes {budget : Nat} {x : Expr} (hord : Orderly feed.lexemes)
    (h : unary limit e budget feed = .ok (x, rest)) :
    ∃ used, feed.lexemes = used ++ rest.lexemes ∧ x.ReadFrom used ∧ 12 ≤ x.rank := by
  induction budget generalizing feed x with
  | zero =>
    unfold unary at h
    obtain ⟨found, mid, hfound, hmatch⟩ := bind_eq_ok_iff.1 h
    cases found with
    | none =>
      obtain ⟨rfl, hminus⟩ := unary?_eq_none hfound
      exact tested_takes limit he hord hminus hmatch
    | some u =>
      obtain ⟨found, mid', -, hdeep⟩ := bind_eq_ok_iff.1 hmatch
      exact (tooDeep_ne_ok hdeep).elim
  | succ budget ih =>
    unfold unary at h
    obtain ⟨found, mid, hfound, hmatch⟩ := bind_eq_ok_iff.1 h
    cases found with
    | none =>
      obtain ⟨rfl, hminus⟩ := unary?_eq_none hfound
      exact tested_takes limit he hord hminus hmatch
    -- The operator is one lexeme, and its operand is read one level down.
    | some us =>
      obtain ⟨u, s⟩ := us
      obtain ⟨rfl, l, hhead, ht, rfl, hneg⟩ := unary?_eq_some hfound
      rcases next_bind_eq_ok hmatch with ⟨hnil, -⟩ | ⟨l', mid', hls, -, hrest⟩
      · rw [hnil] at hhead; cases hhead
      · obtain rfl : l = l' := by rw [hls] at hhead; exact (Option.some.inj hhead).symm
        obtain ⟨y, rest', hy, hpure⟩ := bind_eq_ok_iff.1 hrest
        cases hpure
        rw [hls] at hord hneg ⊢
        obtain ⟨used, hls', hread, hrank⟩ := ih hord.tail hy
        have hplace : (l.span.join y.span).Over (l :: used) := by
          rw [hls'] at hord
          exact (Span.over_singleton l).join hread.spelled.place
            (hord.left (a := l :: used)) ⟨used, rfl⟩ ⟨[l], rfl⟩
        have hchild : ∀ c ∈ [y], c.Normal := by
          intro c hc
          rw [List.mem_singleton.1 hc]
          exact hread.normal
        refine ⟨l :: used, by rw [hls']; rfl, ?_⟩
        cases u with
        | ref =>
          have hamp : l.Is .amp := hord.is List.mem_cons_self ht rfl
          exact ⟨⟨.ref hamp hread.spelled hplace, .mk hrank hchild⟩, Nat.le_refl _⟩
        | op o =>
          have hop : l.Is o.token := hord.is List.mem_cons_self ht (by cases o <;> rfl)
          refine ⟨⟨.unary hop hread.spelled hplace, .mk ⟨hrank, ?_⟩ hchild⟩, Nat.le_refl _⟩
          rintro rfl
          obtain ⟨first, more, rfl, hfirst⟩ := hread.spelled.head hread.normal
          rw [← hfirst]
          rw [hls'] at hneg
          exact hneg rfl first rfl

/-! ## Binary operators and filters -/

omit he in
/-- The operator may take `x` as its left operand: it binds no tighter than `x` holds together, and
    filters take operands only. -/
def Operator.Accepts (op : Operator) (x : Expr) : Prop :=
  op.level + 1 ≤ x.rank ∧ (op = .filter → 12 ≤ x.rank)

omit [Letters] he in
theorem operator?_binary {t : Token} {op : BinOp} (h : operator? t = some (.binary op)) :
    t = op.token := by
  unfold operator? at h
  split at h <;> cases h <;> rfl

omit [Letters] he in
theorem operator?_filter {t : Token} (h : operator? t = some .filter) : t = .pipe := by
  unfold operator? at h
  split at h <;> cases h
  rfl

omit he in
/-- The span of a row of filters grows with each of them. -/
theorem over_filters {fs : List Filter} {s : Span} {a b : List Lexeme}
    (h : FiltersSpelled Span.Over (Expr.Spelled Quoting.any Span.Over) fs b) (hs : s.Over a)
    (hord : Orderly (a ++ b)) : (fs.foldl (fun s f => s.join f.span) s).Over (a ++ b) := by
  induction h generalizing s a with
  | nil =>
    rw [List.append_nil]
    exact hs
  | @cons f fs c fa b hc hf _ ih =>
    have hsame : a ++ c :: (fa ++ b) = (a ++ c :: fa) ++ b := by simp
    rw [hsame] at hord ⊢
    exact ih (hs.join hf.place hord.left ⟨c :: fa, rfl⟩ ⟨a ++ [c], by simp⟩) hord

omit [Letters] he in
theorem operatorFrom?_eq_none {min : Nat} (h : operatorFrom? min feed = .ok (none, rest)) :
    rest = feed ∧ ∀ l ∈ feed.lexemes.head?, ∀ op ∈ operator? l.token, op.level < min := by
  obtain ⟨found, mid, hpeek, hpure⟩ := bind_eq_ok_iff.1 h
  obtain ⟨rfl, hfound⟩ := peek_eq_ok hpeek
  obtain ⟨hnone, hrest⟩ := Prod.mk.inj (Except.ok.inj hpure)
  refine ⟨hrest.symm, fun l hl op hop => ?_⟩
  by_contra hge
  have hsome : (operator? l.token).filter (fun op => min ≤ op.level) = some op := by
    rw [Option.mem_def.1 hop, Option.filter_some, if_pos (decide_eq_true (by omega))]
  rw [hfound, Option.mem_def.1 hl, Option.bind_some, hsome] at hnone
  cases hnone

omit [Letters] he in
theorem operatorFrom?_eq_some {min : Nat} {op : Operator}
    (h : operatorFrom? min feed = .ok (some op, rest)) :
    rest = feed ∧ ∃ l, feed.lexemes.head? = some l ∧ operator? l.token = some op ∧
      min ≤ op.level := by
  obtain ⟨found, mid, hpeek, hpure⟩ := bind_eq_ok_iff.1 h
  obtain ⟨rfl, rfl⟩ := peek_eq_ok hpeek
  obtain ⟨hsome, hrest⟩ := Prod.mk.inj (Except.ok.inj hpure)
  obtain ⟨l, hl, hfilter⟩ := Option.bind_eq_some_iff.1 hsome
  obtain ⟨hop, hlevel⟩ := Option.filter_eq_some_iff.1 hfilter
  exact ⟨hrest.symm, l, hl, hop, of_decide_eq_true hlevel⟩

omit [Letters] he in
theorem Operator.level_le (op : Operator) : op.level ≤ filterLevel := by
  cases op with
  | binary op => exact Nat.le_of_lt op.level_lt_filterLevel
  | filter => exact Nat.le_refl _

omit [Letters] he in
/-- Every operator accepts an operand. -/
theorem Operator.accepts_operand (op : Operator) {x : Expr} (hx : 12 ≤ x.rank) : op.Accepts x := by
  have hlevel := op.level_le
  unfold filterLevel at hlevel
  exact ⟨by omega, fun _ => hx⟩

omit he in
/-- Filters after a bar make one expression of the value before them. -/
theorem filtered_readFrom {x : Expr} {first : Filter} {more : List Filter} {o : Lexeme}
    {pre a b : List Lexeme} (hord : Orderly (pre ++ o :: (a ++ b))) (hx : x.ReadFrom pre)
    (hrank : 12 ≤ x.rank) (ho : o.Is .pipe) (hfirst : first.ReadFrom a)
    (hmore : FiltersReadFrom more b) : (filtered x first more).ReadFrom (pre ++ o :: (a ++ b)) := by
  have hspelled := FiltersSpelled.cons ho hfirst.spelled hmore.spelled
  refine ⟨.filter hx.spelled hspelled ?_, .mk ⟨hrank, List.cons_ne_nil _ _, ?_⟩ ?_⟩
  · have hplace : x.span.Over pre := hx.spelled.place
    have hover := over_filters hspelled hplace hord
    rw [List.foldl_cons] at hover
    exact hover
  · intro f hf
    rcases List.mem_cons.1 hf with rfl | hf
    · exact hfirst.names
    · exact hmore.names f hf
  · intro c hc
    rcases List.mem_cons.1 hc with rfl | hc
    · exact hx.normal
    · rw [List.flatMap_cons, List.mem_append] at hc
      exact hc.elim (hfirst.normal c) (hmore.normal c)

omit he in
/-- A binary operator makes one expression of its operands. -/
theorem binary_readFrom {op : BinOp} {x y : Expr} {o : Lexeme} {pre b : List Lexeme}
    (hord : Orderly (pre ++ o :: b)) (hx : x.ReadFrom pre) (ho : o.Is op.token)
    (hy : y.ReadFrom b) (hleft : op.level + 1 ≤ x.rank) (hright : op.level + 1 < y.rank) :
    (Expr.binary op x y (x.span.join y.span)).ReadFrom (pre ++ o :: b) := by
  have hxplace : x.span.Over pre := hx.spelled.place
  have hyplace : y.span.Over b := hy.spelled.place
  refine ⟨.binary hx.spelled ho hy.spelled ?_, .mk ⟨hleft, hright⟩ ?_⟩
  · exact hxplace.join hyplace hord ⟨o :: b, rfl⟩ ⟨pre ++ [o], by simp⟩
  · intro c hc
    rcases List.mem_cons.1 hc with rfl | hc
    · exact hx.normal
    · rw [List.mem_singleton.1 hc]
      exact hy.normal

omit [Letters] he in
/-- What one round of the loop over operators does: it ends before a looser operator, or it takes an
    operator and what belongs to it at the cost of one level. -/
theorem operators_cases {budget min : Nat} {x y : Expr}
    (h : operators limit e budget min x feed = .ok (y, rest)) :
    (x = y ∧ rest = feed ∧
        ∀ l ∈ feed.lexemes.head?, ∀ op ∈ operator? l.token, op.level < min) ∨
      ∃ left o op mid, budget = left + 1 ∧ feed.lexemes = o :: mid.lexemes ∧ mid.last = o.span ∧
        operator? o.token = some op ∧ min ≤ op.level ∧
        ((op = .filter ∧ ∃ first more mid₁ mid₂, filter (e left) mid = .ok (first, mid₁) ∧
            many (filter? (e left)) mid₁ = .ok (more, mid₂) ∧
            operators limit e left min (filtered x first more) mid₂ = .ok (y, rest)) ∨
          ∃ op' operand right mid₁ mid₂, op = .binary op' ∧
            unary limit e left mid = .ok (operand, mid₁) ∧
            operators limit e left (op'.level + 1) operand mid₁ = .ok (right, mid₂) ∧
            operators limit e left min (.binary op' x right (x.span.join right.span)) mid₂ =
              .ok (y, rest)) := by
  unfold operators at h
  obtain ⟨found, mid, hfound, hmatch⟩ := bind_eq_ok_iff.1 h
  cases found with
  | none =>
    cases hmatch
    obtain ⟨rfl, hloose⟩ := operatorFrom?_eq_none hfound
    exact .inl ⟨rfl, rfl, hloose⟩
  | some op =>
    obtain ⟨rfl, o, hhead, hop, hlevel⟩ := operatorFrom?_eq_some hfound
    cases budget with
    | zero => exact (tooDeep_ne_ok hmatch).elim
    | succ left =>
      rcases next_bind_eq_ok hmatch with ⟨hnil, -⟩ | ⟨o', after, hls, hlast, hrest⟩
      · rw [hnil] at hhead; cases hhead
      obtain rfl : o = o' := by rw [hls] at hhead; exact (Option.some.inj hhead).symm
      refine .inr ⟨left, o, op, after, rfl, hls, hlast, hop, hlevel, ?_⟩
      cases op with
      | filter =>
        obtain ⟨first, mid₁, hfirst, hrest₁⟩ := bind_eq_ok_iff.1 hrest
        obtain ⟨more, mid₂, hmore, hloop⟩ := bind_eq_ok_iff.1 hrest₁
        exact .inl ⟨rfl, first, more, mid₁, mid₂, hfirst, hmore, hloop⟩
      | binary op' =>
        obtain ⟨operand, mid₁, hoperand, hrest₁⟩ := bind_eq_ok_iff.1 hrest
        obtain ⟨right, mid₂, hright, hloop⟩ := bind_eq_ok_iff.1 hrest₁
        exact .inr ⟨op', operand, right, mid₁, mid₂, rfl, hoperand, hright, hloop⟩

/-- The loop over operators: if the next operator accepts what has been read, so does every operator
    the loop comes to, and the first one that is left is looser than the loop asks for. -/
theorem operators_take {budget min : Nat} {pre : List Lexeme} {x y : Expr}
    (hord : Orderly (pre ++ feed.lexemes)) (hx : x.ReadFrom pre) (hmin : min < x.rank)
    (haccepts : ∀ l ∈ feed.lexemes.head?, ∀ op ∈ operator? l.token, min ≤ op.level → op.Accepts x)
    (h : operators limit e budget min x feed = .ok (y, rest)) :
    ∃ used, feed.lexemes = used ++ rest.lexemes ∧ y.ReadFrom (pre ++ used) ∧ min < y.rank ∧
      ∀ l ∈ rest.lexemes.head?, ∀ op ∈ operator? l.token, op.level < min := by
  induction budget using Nat.strongRecOn generalizing min pre x y feed rest with
  | ind budget ih =>
    rcases operators_cases limit h with
      ⟨rfl, rfl, hloose⟩ | ⟨left, o, op, mid, rfl, hls, -, hop, hlevel, hround⟩
    · exact ⟨[], rfl, by rw [List.append_nil]; exact hx, hmin, hloose⟩
    have hless : left < left + 1 := Nat.lt_succ_self left
    obtain ⟨hleft, hfilter⟩ := haccepts o (by rw [hls]; rfl) op hop hlevel
    rw [hls] at hord ⊢
    rcases hround with ⟨rfl, first, more, mid₁, mid₂, hfirst, hmore, hloop⟩ |
      ⟨op, operand, right, mid₁, mid₂, rfl, hoperand, hright, hloop⟩
    · have hpipe : o.Is .pipe := hord.right.is List.mem_cons_self (operator?_filter hop) rfl
      obtain ⟨a, hls₁, ha⟩ := filter_takes (he left) _ _ _ hord.right.tail hfirst
      rw [hls₁] at hord
      obtain ⟨b, hls₂, hb, hnobar⟩ := filters_take (he left) hord.right.tail.right hmore
      have hsame : pre ++ o :: (a ++ mid₁.lexemes) = (pre ++ o :: (a ++ b)) ++ mid₂.lexemes := by
        rw [hls₂]; simp
      rw [hsame] at hord
      have hread := filtered_readFrom hord.left hx (hfilter rfl) hpipe ha hb
      obtain ⟨used, hls₃, hy, hrank, hloose⟩ := ih left hless hord hread (Nat.lt_succ_of_le hlevel) (by
        intro l hl op' hop' _
        -- All bars have been taken, so a binary operator follows.
        cases op' with
        | filter => exact absurd (operator?_filter hop') (hnobar l hl)
        | binary op' => exact ⟨Nat.le_succ_of_le op'.level_lt_filterLevel, fun h => by cases h⟩) hloop
      refine ⟨o :: (a ++ b) ++ used, by rw [hls₁, hls₂, hls₃]; simp, ?_, hrank, hloose⟩
      rw [← List.append_assoc]
      exact hy
    · have hsign : o.Is op.token :=
        hord.right.is List.mem_cons_self (operator?_binary hop) (by cases op <;> rfl)
      have hlt := op.level_lt_filterLevel
      unfold filterLevel at hlt
      obtain ⟨a, hls₁, ha, harank⟩ := unary_takes limit he hord.right.tail hoperand
      rw [hls₁] at hord
      obtain ⟨b, hls₂, hb, hbrank, htight⟩ := ih left hless hord.right.tail ha (by omega)
        (fun l _ op' _ _ => op'.accepts_operand harank) hright
      have hsame : pre ++ o :: (a ++ mid₁.lexemes) = (pre ++ o :: (a ++ b)) ++ mid₂.lexemes := by
        rw [hls₂]; simp
      rw [hsame] at hord
      have hread := binary_readFrom hord.left hx hsign hb hleft hbrank
      obtain ⟨used, hls₃, hy, hrank, hloose⟩ := ih left hless hord hread (Nat.lt_succ_of_le hlevel) (by
        intro l hl op' hop' _
        -- The operand on the right has refused what follows, so it is no tighter.
        have hlevel' := htight l hl op' hop'
        refine ⟨hlevel', ?_⟩
        rintro rfl
        exact absurd hlevel' (Nat.not_lt.2 hlt)) hloop
      refine ⟨o :: (a ++ b) ++ used, by rw [hls₁, hls₂, hls₃]; simp, ?_, hrank, hloose⟩
      rw [← List.append_assoc]
      exact hy

theorem operation_takes {budget : Nat} : Takes (operation limit e budget) fun x ls =>
    x.ReadFrom ls ∧ 0 < x.rank := by
  intro feed x rest hord h
  obtain ⟨first, mid, hfirst, hloop⟩ := bind_eq_ok_iff.1 h
  obtain ⟨a, hls, ha, hrank⟩ := unary_takes limit he hord hfirst
  rw [hls] at hord
  obtain ⟨used, hls', hx, hpos, -⟩ := operators_take limit he hord ha (by omega)
    (fun l _ op _ _ => op.accepts_operand hrank) hloop
  exact ⟨a ++ used, by rw [hls, hls', List.append_assoc], hx, hpos⟩

/-! ## Ranges and full expressions -/

omit [Letters] he limit in
theorem range?_eq_ok {found : Option Bool} (h : range? feed = .ok (found, rest)) :
    rest = feed ∧ ∀ inclusive, found = some inclusive →
      ∃ l, feed.lexemes.head? = some l ∧ l.token = rangeToken inclusive := by
  obtain ⟨l, mid, hpeek, hmatch⟩ := bind_eq_ok_iff.1 h
  obtain ⟨rfl, hfound⟩ := peek_eq_ok hpeek
  cases l with
  | none =>
    cases hmatch
    exact ⟨rfl, fun inclusive hsome => by cases hsome⟩
  | some l =>
    dsimp only at hmatch
    obtain ⟨p, hp, hpx⟩ : ∃ p : Reader (Option Bool), _ = p ∧ p mid = .ok (found, rest) :=
      ⟨_, rfl, hmatch⟩
    split at hp <;> subst hp <;> cases hpx
    · next ht => exact ⟨rfl, fun _ hsome => by cases hsome; exact ⟨l, hfound.symm, ht⟩⟩
    · next ht => exact ⟨rfl, fun _ hsome => by cases hsome; exact ⟨l, hfound.symm, ht⟩⟩
    · exact ⟨rfl, fun _ hsome => by cases hsome⟩

omit he limit in
/-- A range with its bounds, or without one of them, is listed by the bounds and the operator. -/
theorem range_readFrom {start stop : Option Expr} {inclusive : Bool} {o : Lexeme} {s : Span}
    {a b : List Lexeme} (ho : o.Is (rangeToken inclusive))
    (hstart : ∀ x ∈ start, x.ReadFrom a ∧ 0 < x.rank) (hnostart : start = none → a = [])
    (hstop : ∀ x ∈ stop, x.ReadFrom b ∧ 0 < x.rank) (hnostop : stop = none → b = [])
    (hincl : inclusive = true → stop.isSome = true)
    (hif : inclusive = false → ∀ x ∈ stop, x.firstToken ≠ .keyword .ifKw)
    (hs : s.Over (a ++ o :: b)) : (Expr.range start stop inclusive s).ReadFrom (a ++ o :: b) := by
  refine ⟨?_, .mk ⟨fun x hx => (hstart x hx).2, fun x hx => (hstop x hx).2, hincl, hif⟩ ?_⟩
  · cases start with
    | none =>
      rw [hnostart rfl] at hs ⊢
      cases stop with
      | none =>
        rw [hnostop rfl] at hs ⊢
        exact .rangeFull ho hs
      | some y => exact .rangeTo ho (hstop y rfl).1.spelled hs
    | some x =>
      cases stop with
      | none =>
        rw [hnostop rfl] at hs ⊢
        exact .rangeFrom (hstart x rfl).1.spelled ho hs
      | some y => exact .rangeBetween (hstart x rfl).1.spelled ho (hstop y rfl).1.spelled hs
  · intro c hc
    rw [Expr.children, List.mem_append, Option.mem_toList, Option.mem_toList] at hc
    rcases hc with hc | hc
    · exact (hstart c hc).1.normal
    · exact (hstop c hc).1.normal

omit he limit in
/-- Behind its operator a range has an end or none.  An inclusive one has an end, and where an exclusive one
    has an end, the word `if` does not begin it. -/
theorem rangeEnd_takes (bounded : Bool) {operand : Reader Expr}
    (hoperand : Takes operand fun x ls => x.ReadFrom ls ∧ 0 < x.rank) {start : Option Expr}
    {inclusive : Bool} {o : Lexeme} {begins : Nat} {s : Span} {pre a : List Lexeme} {x : Expr}
    (hord : Orderly (o :: feed.lexemes)) (ho : o.Is (rangeToken inclusive))
    (hstart : ∀ y ∈ start, y.ReadFrom pre ∧ 0 < y.rank) (hnostart : start = none → pre = [])
    (hs : s.Over a) (ha : a <+: pre ++ [o]) (hbegins : begins = s.start) (hincl : inclusive = true → bounded = true)
    (hif : inclusive = false → bounded = true →
      ∀ l ∈ feed.lexemes.head?, l.token ≠ .keyword .ifKw)
    (h : (if bounded = true then do
        let stop ← operand
        return .range start (some stop) inclusive ⟨begins, stop.span.stop⟩
      else return .range start none inclusive ⟨begins, o.span.stop⟩ : Reader Expr) feed
        = .ok (x, rest)) :
    ∃ used, o :: feed.lexemes = used ++ rest.lexemes ∧ x.ReadFrom (pre ++ used) := by
  subst hbegins
  split at h
  · next hbounded =>
    obtain ⟨y, rest', hy, hpure⟩ := bind_eq_ok_iff.1 h
    cases hpure
    obtain ⟨b, hls, hread, hrank⟩ := hoperand _ _ _ hord.tail hy
    have hplace : y.span.Over b := hread.spelled.place
    refine ⟨o :: b, by rw [hls]; rfl, range_readFrom ho hstart hnostart ?_ ?_ ?_ ?_ ?_⟩
    · rintro z ⟨rfl⟩
      exact ⟨hread, hrank⟩
    · exact fun hnone => by cases hnone
    · exact fun _ => rfl
    · rintro hexcl z ⟨rfl⟩
      obtain ⟨l, more, rfl, hl⟩ := hread.spelled.head hread.normal
      rw [← hl]
      exact hif hexcl hbounded l (by rw [hls]; rfl)
    · refine hs.ends hplace ?_ ⟨pre ++ [o], by simp⟩
      exact ha.trans ⟨b, by simp⟩
  · next hbounded =>
    cases h
    refine ⟨[o], rfl, range_readFrom ho hstart hnostart ?_ (fun _ => rfl) ?_ ?_ ?_⟩
    · exact fun z hz => by cases hz
    · exact fun hincl' => absurd (hincl hincl') hbounded
    · exact fun _ z hz => by cases hz
    · exact hs.ends (Span.over_singleton o) ha ⟨pre, rfl⟩

omit he limit in
/-- A range goes on from its operator. -/
theorem rangeFrom_takes {operand : Reader Expr}
    (hoperand : Takes operand fun x ls => x.ReadFrom ls ∧ 0 < x.rank) {start : Option Expr}
    {inclusive : Bool} {o : Lexeme} (pre : List Lexeme) {x : Expr}
    (hord : Orderly (pre ++ feed.lexemes)) (hhead : feed.lexemes.head? = some o)
    (ht : o.token = rangeToken inclusive) (hstart : ∀ y ∈ start, y.ReadFrom pre ∧ 0 < y.rank)
    (hnostart : start = none → pre = [])
    (h : rangeFrom operand start inclusive feed = .ok (x, rest)) :
    ∃ used, feed.lexemes = used ++ rest.lexemes ∧ x.ReadFrom (pre ++ used) := by
  rcases next_bind_eq_ok h with ⟨hnil, -⟩ | ⟨o', mid, hls, hlast, hrest⟩
  · rw [hnil] at hhead; cases hhead
  obtain rfl : o = o' := by rw [hls] at hhead; exact (Option.some.inj hhead).symm
  rw [hls] at hord ⊢
  have ho : o.Is (rangeToken inclusive) :=
    hord.right.is List.mem_cons_self ht (by cases inclusive <;> rfl)
  -- The place where the range begins.
  obtain ⟨s, a, hs, ha, hsstart⟩ : ∃ s : Span, ∃ a : List Lexeme, s.Over a ∧ a <+: pre ++ [o] ∧
      s.start = start.elim o.span.start fun y => y.span.start := by
    cases start with
    | none => exact ⟨o.span, [o], Span.over_singleton o, by rw [hnostart rfl]; exact ⟨[], rfl⟩, rfl⟩
    | some y => exact ⟨y.span, pre, (hstart y rfl).1.spelled.place, ⟨[o], rfl⟩, rfl⟩
  obtain ⟨op, mid', hop, hrest'⟩ := bind_eq_ok_iff.1 hrest
  cases hop
  rw [hlast] at hrest'
  split at hrest'
  · next hincl =>
    refine rangeEnd_takes true hoperand hord.right ho hstart hnostart hs ha ?_
      (fun _ => rfl) (fun hexcl => by rw [hincl] at hexcl; cases hexcl) hrest'
    rw [hsstart]
    cases start <;> rfl
  · next hexcl =>
    obtain ⟨bounded, mid', hfollows, hite⟩ := bind_eq_ok_iff.1 hrest'
    obtain ⟨found, mid'', hpeek, hpure⟩ := bind_eq_ok_iff.1 hfollows
    obtain ⟨rfl, hfound⟩ := peek_eq_ok hpeek
    cases hpure
    refine rangeEnd_takes _ hoperand hord.right ho hstart hnostart hs ha ?_
      (fun hincl => absurd hincl hexcl) (fun _ hbounded l hl htoken => ?_) hite
    · rw [hsstart]
      cases start <;> rfl
    · rw [hfound, Option.mem_def.1 hl] at hbounded
      have hstarts : startsOperand l.token = true := hbounded
      rw [htoken] at hstarts
      cases hstarts

omit he limit in
theorem ranged_takes {operand : Reader Expr}
    (hoperand : Takes operand fun x ls => x.ReadFrom ls ∧ 0 < x.rank) :
    Takes (ranged operand) Expr.ReadFrom := by
  intro feed x rest hord h
  obtain ⟨found, mid, hrange, hmatch⟩ := bind_eq_ok_iff.1 h
  obtain ⟨rfl, hfound⟩ := range?_eq_ok hrange
  cases found with
  | some inclusive =>
    obtain ⟨o, hhead, ht⟩ := hfound inclusive rfl
    obtain ⟨used, hls, hx⟩ := rangeFrom_takes hoperand [] hord hhead ht
      (fun y hy => by cases hy) (fun _ => rfl) hmatch
    exact ⟨used, hls, hx⟩
  | none =>
    obtain ⟨y, mid', hy, hrest⟩ := bind_eq_ok_iff.1 hmatch
    obtain ⟨found', mid'', hrange', hmatch'⟩ := bind_eq_ok_iff.1 hrest
    obtain ⟨rfl, hfound'⟩ := range?_eq_ok hrange'
    obtain ⟨a, hls, hread, hrank⟩ := hoperand _ _ _ hord hy
    rw [hls] at hord
    cases found' with
    | none =>
      cases hmatch'
      exact ⟨a, hls, hread⟩
    | some inclusive =>
      obtain ⟨o, hhead, ht⟩ := hfound' inclusive rfl
      obtain ⟨used, hls', hx⟩ := rangeFrom_takes hoperand a hord hhead ht
        (by rintro z ⟨rfl⟩; exact ⟨hread, hrank⟩) (fun hnone => by cases hnone) hmatch'
      exact ⟨a ++ used, by rw [hls, hls', List.append_assoc], hx⟩

omit he in
/-- Whatever is read as a full expression is listed by the lexemes taken, and normal. -/
theorem exprWithin_takes (budget : Nat) : Takes (exprWithin limit budget) Expr.ReadFrom := by
  induction budget using Nat.strongRecOn with
  | ind budget ih =>
    cases budget with
    | zero =>
      rw [exprWithin_zero]
      exact fun feed x rest _ h => (tooDeep_ne_ok h).elim
    | succ budget =>
      rw [exprWithin_succ]
      refine ranged_takes (operation_takes limit (fun k => ?_))
      split
      · next hk => exact ih k (Nat.lt_succ_of_le hk)
      · exact fun feed x rest _ h => (tooDeep_ne_ok h).elim

omit he in
theorem expr_takes : Takes (expr limit) Expr.ReadFrom := exprWithin_takes limit limit

end Reader

end Stencil
