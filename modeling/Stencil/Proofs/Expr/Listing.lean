/-
  Listing — the lexemes that an expression is written with.

  `Expr.Spelled q P e ls` says that the lexemes `ls` list the expression `e` in order: its names,
  constants, operators and brackets, and nothing else.  The tree leaves one thing open, a comma after
  the last item of a bracketed list; so one tree has several listings.  The two parameters say
  what else is asked for:
    * `q : Quoting` — how text and character literals are written;
    * `P s ls` — what the span `s` of a part has to do with the lexemes `ls` of that part.

  The grammar is spelled out once, for whole lists of lexemes; it knows nothing of levels and
  of looking ahead.  Which trees are read back from their listings is a matter of `Expr.Normal`.
-/
import Stencil.Proofs.Expr.Normal

namespace Stencil

/-- A way of writing text and character literals from which their values can be decoded. -/
structure Quoting where
  text : String → List Char → Prop
  char : Char → List Char → Prop
  text_quoted : ∀ {v : String} {cs : List Char}, text v cs → IsQuoted '\x22' false cs v.toList
  char_quoted : ∀ {c : Char} {cs : List Char}, char c cs → IsQuoted '\x27' true cs [c]

/-- Any way of writing literals. -/
def Quoting.any : Quoting where
  text v cs := IsQuoted '\x22' false cs v.toList
  char c cs := IsQuoted '\x27' true cs [c]
  text_quoted := id
  char_quoted := id

/-- The lexeme is the sign or keyword `t`. -/
def Lexeme.Is (t : Token) (l : Lexeme) : Prop := l.token = t ∧ t.sign? = some l.text

/-- The lexeme is the word `s`. -/
def Lexeme.IsWord (s : String) (l : Lexeme) : Prop := l.token = wordToken s ∧ l.text = s.toList

/-- The lexeme is the name `s` of a macro and its mark. -/
def Lexeme.IsMark (s : String) (l : Lexeme) : Prop :=
  l.token = .macroName ∧ l.text = s.toList ++ ['!']

/-- Items with commas between them; the flag tells whether a comma stands after the last one. -/
inductive Commas {α : Type} (R : α → List Lexeme → Prop) : List α → Bool → List Lexeme → Prop
  | none : Commas R [] false []
  | last {x : α} {a : List Lexeme} (hx : R x a) : Commas R [x] false a
  | trailing {x : α} {a : List Lexeme} {c : Lexeme} (hx : R x a) (hc : c.Is .comma) :
      Commas R [x] true (a ++ [c])
  | more {x y : α} {ys : List α} {trailing : Bool} {a b : List Lexeme} {c : Lexeme} (hx : R x a)
      (hc : c.Is .comma) (h : Commas R (y :: ys) trailing b) :
      Commas R (x :: y :: ys) trailing (a ++ c :: b)

/-- The lexemes of a constant. -/
inductive Literal.Spelled (q : Quoting) : Literal → List Lexeme → Prop
  | str {v : String} {l : Lexeme} (ht : l.token = .str) (hv : q.text v l.text) :
      Spelled q (.str v) [l]
  | char {v : Char} {l : Lexeme} (ht : l.token = .char) (hv : q.char v l.text) :
      Spelled q (.char v) [l]
  | num {n : Number} {l : Lexeme} (hn : n.negative = false) (ht : l.token = .number)
      (hr : l.text = n.raw.toList) : Spelled q (.num n) [l]
  | negative {n : Number} {m l : Lexeme} (hn : n.negative = true) (hm : m.Is .minus)
      (ht : l.token = .number) (hr : l.text = n.raw.toList) : Spelled q (.num n) [m, l]
  | bool {b : Bool} {l : Lexeme} (hb : l.Is (boolToken b)) : Spelled q (.bool b) [l]

section

variable (P : Span → List Lexeme → Prop)

/-- The lexeme of a name. -/
def Ident.Spelled (i : Ident) (l : Lexeme) : Prop := l.IsWord i.name ∧ P i.span [l]

/-- The lexeme of a key. -/
inductive Key.Spelled : Key → Lexeme → Prop
  | name {i : Ident} {l : Lexeme} (hi : i.Spelled P l) : Key.Spelled (.name i) l
  | index {v : Nat} {s : Span} {l : Lexeme} (ht : l.token = .number) (hne : l.text ≠ [])
      (hd : l.text.all (·.isDigit) = true) (hv : Reader.decimalValue l.text = v) (hs : P s [l]) :
      Key.Spelled (.index v s) l

/-- Names, each after a double colon. -/
inductive SegmentsSpelled : List Ident → List Lexeme → Prop
  | nil : SegmentsSpelled [] []
  | cons {i : Ident} {more : List Ident} {c l : Lexeme} {ls : List Lexeme} (hc : c.Is .pathSep)
      (hi : i.Spelled P l) (h : SegmentsSpelled more ls) : SegmentsSpelled (i :: more) (c :: l :: ls)

/-- Names with double colons between them and, if the path is global, one before. -/
inductive PathSpelled : Bool → List Ident → List Lexeme → Prop
  | absolute {segments : List Ident} {ls : List Lexeme} (h : SegmentsSpelled P segments ls) :
      PathSpelled true segments ls
  | relative {i : Ident} {more : List Ident} {l : Lexeme} {ls : List Lexeme} (hi : i.Spelled P l)
      (h : SegmentsSpelled P more ls) : PathSpelled false (i :: more) (l :: ls)

/-- The path of a macro call: its last segment is the macro name with its mark. -/
inductive MacroSpelled : Bool → List Ident → List Lexeme → Prop
  | alone {i : Ident} {m : Lexeme} (hm : m.IsMark i.name) : MacroSpelled false [i] [m]
  | qualified {global : Bool} {front : List Ident} {i : Ident} {ls : List Lexeme} {c m : Lexeme}
      (h : PathSpelled P global front ls) (hc : c.Is .pathSep) (hm : m.IsMark i.name) :
      MacroSpelled global (front ++ [i]) (ls ++ [c, m])

variable (R : Expr → List Lexeme → Prop)

/-- The lexemes of an argument, if `R` gives those of expressions. -/
inductive Arg.SpelledBy : Arg → List Lexeme → Prop
  | positional {x : Expr} {ls : List Lexeme} (hx : R x ls) : Arg.SpelledBy (.positional x) ls
  | named {i : Ident} {x : Expr} {l c : Lexeme} {ls : List Lexeme} (hi : i.Spelled P l)
      (hc : c.Is .eq) (hx : R x ls) : Arg.SpelledBy (.named i x) (l :: c :: ls)

/-- The lexemes of an argument list with its parentheses. -/
inductive Args.SpelledBy : Args → List Lexeme → Prop
  | mk {items : List Arg} {trailing : Bool} {s : Span} {o c : Lexeme} {ls : List Lexeme}
      (ho : o.Is .lparen) (h : Commas (Arg.SpelledBy P R) items trailing ls) (hc : c.Is .rparen)
      (hs : P s (o :: (ls ++ [c]))) : Args.SpelledBy (.mk items s) (o :: (ls ++ [c]))

/-- The lexemes of a filter. -/
inductive Filter.SpelledBy : Filter → List Lexeme → Prop
  | plain {i : Ident} {s : Span} {l : Lexeme} (hi : i.Spelled P l) (hs : P s [l]) :
      Filter.SpelledBy (.mk i none s) [l]
  | given {i : Ident} {xs : Args} {s : Span} {l : Lexeme} {ls : List Lexeme} (hi : i.Spelled P l)
      (hxs : Args.SpelledBy P R xs ls) (hs : P s (l :: ls)) :
      Filter.SpelledBy (.mk i (some xs) s) (l :: ls)

/-- Filters, each after a bar. -/
inductive FiltersSpelled : List Filter → List Lexeme → Prop
  | nil : FiltersSpelled [] []
  | cons {f : Filter} {fs : List Filter} {c : Lexeme} {a b : List Lexeme} (hc : c.Is .pipe)
      (hf : Filter.SpelledBy P R f a) (h : FiltersSpelled fs b) :
      FiltersSpelled (f :: fs) (c :: (a ++ b))

end

/-- The lexemes of an expression. -/
inductive Expr.Spelled (q : Quoting) (P : Span → List Lexeme → Prop) : Expr → List Lexeme → Prop
  | lit {v : Literal} {s : Span} {ls : List Lexeme} (hv : v.Spelled q ls) (hs : P s ls) :
      Spelled q P (.lit v s) ls
  | var {n : String} {s : Span} {l : Lexeme} (hl : l.IsWord n) (hs : P s [l]) :
      Spelled q P (.var n s) [l]
  | path {p : Path} {s : Span} {ls : List Lexeme} (hp : PathSpelled P p.global p.segments ls)
      (hs : P s ls) : Spelled q P (.path p s) ls
  | binary {op : BinOp} {x y : Expr} {s : Span} {a b : List Lexeme} {o : Lexeme}
      (hx : Spelled q P x a) (ho : o.Is op.token) (hy : Spelled q P y b) (hs : P s (a ++ o :: b)) :
      Spelled q P (.binary op x y s) (a ++ o :: b)
  | unary {op : UnOp} {x : Expr} {s : Span} {a : List Lexeme} {o : Lexeme} (ho : o.Is op.token)
      (hx : Spelled q P x a) (hs : P s (o :: a)) : Spelled q P (.unary op x s) (o :: a)
  | ref {x : Expr} {s : Span} {a : List Lexeme} {o : Lexeme} (ho : o.Is .amp)
      (hx : Spelled q P x a) (hs : P s (o :: a)) : Spelled q P (.ref x s) (o :: a)
  | attempt {x : Expr} {s : Span} {a : List Lexeme} {o : Lexeme} (hx : Spelled q P x a)
      (ho : o.Is .question) (hs : P s (a ++ [o])) : Spelled q P (.attempt x s) (a ++ [o])
  | call {f : Expr} {xs : Args} {s : Span} {a b : List Lexeme} (hf : Spelled q P f a)
      (hxs : Args.SpelledBy P (Spelled q P) xs b) (hs : P s (a ++ b)) :
      Spelled q P (.call f xs s) (a ++ b)
  | field {x : Expr} {k : Key} {s : Span} {a : List Lexeme} {o l : Lexeme} (hx : Spelled q P x a)
      (ho : o.Is .dot) (hk : k.Spelled P l) (hs : P s (a ++ [o, l])) :
      Spelled q P (.field x k s) (a ++ [o, l])
  | index {x i : Expr} {s : Span} {a b : List Lexeme} {o c : Lexeme} (hx : Spelled q P x a)
      (ho : o.Is .lbracket) (hi : Spelled q P i b) (hc : c.Is .rbracket)
      (hs : P s (a ++ o :: (b ++ [c]))) : Spelled q P (.index x i s) (a ++ o :: (b ++ [c]))
  | rangeFull {inclusive : Bool} {s : Span} {o : Lexeme} (ho : o.Is (rangeToken inclusive))
      (hs : P s [o]) : Spelled q P (.range none none inclusive s) [o]
  | rangeTo {y : Expr} {inclusive : Bool} {s : Span} {b : List Lexeme} {o : Lexeme}
      (ho : o.Is (rangeToken inclusive)) (hy : Spelled q P y b) (hs : P s (o :: b)) :
      Spelled q P (.range none (some y) inclusive s) (o :: b)
  | rangeFrom {x : Expr} {inclusive : Bool} {s : Span} {a : List Lexeme} {o : Lexeme}
      (hx : Spelled q P x a) (ho : o.Is (rangeToken inclusive)) (hs : P s (a ++ [o])) :
      Spelled q P (.range (some x) none inclusive s) (a ++ [o])
  | rangeBetween {x y : Expr} {inclusive : Bool} {s : Span} {a b : List Lexeme} {o : Lexeme}
      (hx : Spelled q P x a) (ho : o.Is (rangeToken inclusive)) (hy : Spelled q P y b)
      (hs : P s (a ++ o :: b)) : Spelled q P (.range (some x) (some y) inclusive s) (a ++ o :: b)
  | array {es : List Expr} {trailing : Bool} {s : Span} {ls : List Lexeme} {o c : Lexeme}
      (ho : o.Is .lbracket) (h : Commas (Spelled q P) es trailing ls) (hc : c.Is .rbracket)
      (hs : P s (o :: (ls ++ [c]))) : Spelled q P (.array es s) (o :: (ls ++ [c]))
  | tuple {es : List Expr} {trailing : Bool} {s : Span} {ls : List Lexeme} {o c : Lexeme}
      (ho : o.Is .lparen) (h : Commas (Spelled q P) es trailing ls) (hc : c.Is .rparen)
      (hone : es.length = 1 → trailing = true) (hs : P s (o :: (ls ++ [c]))) :
      Spelled q P (.tuple es s) (o :: (ls ++ [c]))
  | unit {s : Span} {o c : Lexeme} (ho : o.Is .lparen) (hc : c.Is .rparen) (hs : P s [o, c]) :
      Spelled q P (.unit s) [o, c]
  | group {x : Expr} {s : Span} {a : List Lexeme} {o c : Lexeme} (ho : o.Is .lparen)
      (hx : Spelled q P x a) (hc : c.Is .rparen) (hs : P s (o :: (a ++ [c]))) :
      Spelled q P (.group x s) (o :: (a ++ [c]))
  | filter {x : Expr} {fs : List Filter} {s : Span} {a b : List Lexeme} (hx : Spelled q P x a)
      (hfs : FiltersSpelled P (Spelled q P) fs b) (hs : P s (a ++ b)) :
      Spelled q P (.filter x fs s) (a ++ b)
  | isDefined {x : Expr} {s : Span} {a : List Lexeme} {o c : Lexeme} (hx : Spelled q P x a)
      (ho : o.Is (.keyword .isKw)) (hc : c.Is (.keyword .definedKw)) (hs : P s (a ++ [o, c])) :
      Spelled q P (.isDefined x false s) (a ++ [o, c])
  | isNotDefined {x : Expr} {s : Span} {a : List Lexeme} {o n c : Lexeme} (hx : Spelled q P x a)
      (ho : o.Is (.keyword .isKw)) (hn : n.Is (.keyword .notKw)) (hc : c.Is (.keyword .definedKw))
      (hs : P s (a ++ [o, n, c])) : Spelled q P (.isDefined x true s) (a ++ [o, n, c])
  | macroCall {p : Path} {xs : Args} {s : Span} {a b : List Lexeme}
      (hp : MacroSpelled P p.global p.segments a) (hxs : Args.SpelledBy P (Spelled q P) xs b)
      (hs : P s (a ++ b)) : Spelled q P (.macroCall p xs s) (a ++ b)

/-! ## Parts of a listing -/

theorem Commas.imp {α : Type} {R R' : α → List Lexeme → Prop} (himp : ∀ x ls, R x ls → R' x ls)
    {xs : List α} {trailing : Bool} {ls : List Lexeme} (h : Commas R xs trailing ls) :
    Commas R' xs trailing ls := by
  induction h with
  | none => exact .none
  | last hx => exact .last (himp _ _ hx)
  | trailing hx hc => exact .trailing (himp _ _ hx) hc
  | more hx hc _ ih => exact .more (himp _ _ hx) hc ih

/-- Each item of a list has a stretch of its own. -/
theorem Commas.part {α : Type} {R : α → List Lexeme → Prop} {xs : List α} {trailing : Bool}
    {ls : List Lexeme} (h : Commas R xs trailing ls) {x : α} (hx : x ∈ xs) :
    ∃ part, part <:+: ls ∧ R x part := by
  induction h with
  | none => cases hx
  | last hr =>
    obtain rfl := List.mem_singleton.1 hx
    exact ⟨_, List.infix_refl _, hr⟩
  | trailing hr hc =>
    obtain rfl := List.mem_singleton.1 hx
    exact ⟨_, (List.prefix_append _ _).isInfix, hr⟩
  | @more _ _ _ _ a b c hr hc _ ih =>
    rcases List.mem_cons.1 hx with rfl | hmem
    · exact ⟨a, (List.prefix_append _ _).isInfix, hr⟩
    · obtain ⟨part, hpart, hrx⟩ := ih hmem
      have hsuffix : b <:+ a ++ c :: b := (List.suffix_cons c b).trans (List.suffix_append _ _)
      exact ⟨part, hpart.trans hsuffix.isInfix, hrx⟩

section

variable {q : Quoting} {P : Span → List Lexeme → Prop} {R : Expr → List Lexeme → Prop}

theorem Args.SpelledBy.value {xs : Args} {ls : List Lexeme} (h : xs.SpelledBy P R ls) {x : Expr}
    (hx : x ∈ xs.values) : ∃ part, part <:+: ls ∧ R x part := by
  cases h with
  | @mk items trailing s o c ls ho h hc hs =>
    obtain ⟨arg, harg, rfl⟩ := List.mem_map.1 hx
    clear hx
    obtain ⟨part, hpart, hspelled⟩ := h.part harg
    have hinside : part <:+: o :: (ls ++ [c]) :=
      (hpart.trans (List.prefix_append _ _).isInfix).trans (List.suffix_cons _ _).isInfix
    cases hspelled with
    | positional hx => exact ⟨part, hinside, hx⟩
    | @named i x l c ls hi hc hx =>
      have hvalue : ls <:+ l :: c :: ls := (List.suffix_cons c ls).trans (List.suffix_cons l _)
      exact ⟨ls, hvalue.isInfix.trans hinside, hx⟩

theorem Filter.SpelledBy.value {f : Filter} {ls : List Lexeme} (h : f.SpelledBy P R ls) {x : Expr}
    (hx : x ∈ f.values) : ∃ part, part <:+: ls ∧ R x part := by
  cases h with
  | plain hi hs => cases hx
  | given hi hxs hs =>
    obtain ⟨part, hpart, hr⟩ := hxs.value hx
    exact ⟨part, hpart.trans (List.suffix_cons _ _).isInfix, hr⟩

theorem FiltersSpelled.value {fs : List Filter} {ls : List Lexeme} (h : FiltersSpelled P R fs ls)
    {x : Expr} (hx : x ∈ fs.flatMap Filter.values) : ∃ part, part <:+: ls ∧ R x part := by
  induction h with
  | nil => cases hx
  | @cons f fs c a b hc hf _ ih =>
    rw [List.flatMap_cons, List.mem_append] at hx
    rcases hx with hx | hx
    · obtain ⟨part, hpart, hr⟩ := hf.value hx
      exact ⟨part, (hpart.trans (List.prefix_append _ _).isInfix).trans (List.suffix_cons _ _).isInfix,
        hr⟩
    · obtain ⟨part, hpart, hr⟩ := ih hx
      exact ⟨part, (hpart.trans (List.suffix_append _ _).isInfix).trans (List.suffix_cons _ _).isInfix,
        hr⟩

namespace Expr.Spelled

variable {e : Expr} {ls : List Lexeme}

theorem place (h : e.Spelled q P ls) : P e.span ls := by
  cases h <;> assumption

/-- What stands directly inside an expression is listed by a stretch of its lexemes. -/
theorem child (h : e.Spelled q P ls) {x : Expr} (hx : x ∈ e.children) :
    ∃ part, part <:+: ls ∧ x.Spelled q P part := by
  cases h with
  | lit hv hs => cases hx
  | var hl hs => cases hx
  | path hp hs => cases hx
  | @binary op x y s a b o hx' ho hy hs =>
    simp only [children, List.mem_cons, List.not_mem_nil, or_false] at hx
    rcases hx with rfl | rfl
    · exact ⟨a, ⟨[], o :: b, rfl⟩, hx'⟩
    · exact ⟨b, ⟨a ++ [o], [], by simp⟩, hy⟩
  | @unary op x s a o ho hx' hs =>
    obtain rfl := List.mem_singleton.1 hx
    exact ⟨a, ⟨[o], [], by simp⟩, hx'⟩
  | @ref x s a o ho hx' hs =>
    obtain rfl := List.mem_singleton.1 hx
    exact ⟨a, ⟨[o], [], by simp⟩, hx'⟩
  | @attempt x s a o hx' ho hs =>
    obtain rfl := List.mem_singleton.1 hx
    exact ⟨a, ⟨[], [o], rfl⟩, hx'⟩
  | @call f xs s a b hf hxs hs =>
    rcases List.mem_cons.1 hx with rfl | hx
    · exact ⟨a, ⟨[], b, rfl⟩, hf⟩
    · obtain ⟨part, hpart, hr⟩ := hxs.value hx
      exact ⟨part, hpart.trans (List.suffix_append _ _).isInfix, hr⟩
  | @field x k s a o l hx' ho hk hs =>
    obtain rfl := List.mem_singleton.1 hx
    exact ⟨a, ⟨[], [o, l], rfl⟩, hx'⟩
  | @index x i s a b o c hx' ho hi hc hs =>
    simp only [children, List.mem_cons, List.not_mem_nil, or_false] at hx
    rcases hx with rfl | rfl
    · exact ⟨a, ⟨[], o :: (b ++ [c]), rfl⟩, hx'⟩
    · exact ⟨b, ⟨a ++ [o], [c], by simp⟩, hi⟩
  | rangeFull ho hs => cases hx
  | @rangeTo y inclusive s b o ho hy hs =>
    obtain rfl := List.mem_singleton.1 hx
    exact ⟨b, ⟨[o], [], by simp⟩, hy⟩
  | @rangeFrom x inclusive s a o hx' ho hs =>
    obtain rfl := List.mem_singleton.1 hx
    exact ⟨a, ⟨[], [o], rfl⟩, hx'⟩
  | @rangeBetween x y inclusive s a b o hx' ho hy hs =>
    simp only [children, Option.toList_some, List.singleton_append, List.mem_cons,
      List.not_mem_nil, or_false] at hx
    rcases hx with rfl | rfl
    · exact ⟨a, ⟨[], o :: b, rfl⟩, hx'⟩
    · exact ⟨b, ⟨a ++ [o], [], by simp⟩, hy⟩
  | @array es trailing s ls o c ho h hc hs =>
    obtain ⟨part, hpart, hr⟩ := h.part hx
    exact ⟨part, hpart.trans ⟨[o], [c], rfl⟩, hr⟩
  | @tuple es trailing s ls o c ho h hc hone hs =>
    obtain ⟨part, hpart, hr⟩ := h.part hx
    exact ⟨part, hpart.trans ⟨[o], [c], rfl⟩, hr⟩
  | unit ho hc hs => cases hx
  | @group x s a o c ho hx' hc hs =>
    obtain rfl := List.mem_singleton.1 hx
    exact ⟨a, ⟨[o], [c], rfl⟩, hx'⟩
  | @filter x fs s a b hx' hfs hs =>
    rcases List.mem_cons.1 hx with rfl | hx
    · exact ⟨a, ⟨[], b, rfl⟩, hx'⟩
    · obtain ⟨part, hpart, hr⟩ := hfs.value hx
      exact ⟨part, hpart.trans (List.suffix_append _ _).isInfix, hr⟩
  | @isDefined x s a o c hx' ho hc hs =>
    obtain rfl := List.mem_singleton.1 hx
    exact ⟨a, ⟨[], [o, c], rfl⟩, hx'⟩
  | @isNotDefined x s a o n c hx' ho hn hc hs =>
    obtain rfl := List.mem_singleton.1 hx
    exact ⟨a, ⟨[], [o, n, c], rfl⟩, hx'⟩
  | @macroCall p xs s a b hp hxs hs =>
    obtain ⟨part, hpart, hr⟩ := hxs.value hx
    exact ⟨part, hpart.trans (List.suffix_append _ _).isInfix, hr⟩

/-- Whatever occurs in an expression is listed by a stretch of its lexemes. -/
theorem part (h : e.Spelled q P ls) {x : Expr} (hx : e.HasPart x) :
    ∃ part, part <:+: ls ∧ x.Spelled q P part := by
  induction hx generalizing ls with
  | self e => exact ⟨ls, List.infix_refl _, h⟩
  | child hc _ ih =>
    obtain ⟨mid, hmid, hspelled⟩ := h.child hc
    obtain ⟨part, hpart, hx⟩ := ih hspelled
    exact ⟨part, hpart.trans hmid, hx⟩

end Expr.Spelled

/-! ## The first token -/

theorem Literal.Spelled.head {v : Literal} {ls : List Lexeme} (h : v.Spelled q ls) :
    ∃ l rest, ls = l :: rest ∧ l.token = v.firstToken := by
  cases h with
  | str ht hv => exact ⟨_, _, rfl, ht⟩
  | char ht hv => exact ⟨_, _, rfl, ht⟩
  | num hn ht hr => exact ⟨_, _, rfl, by rw [ht, Literal.firstToken, hn]; rfl⟩
  | negative hn hm ht hr => exact ⟨_, _, rfl, by rw [hm.1, Literal.firstToken, hn]; rfl⟩
  | bool hb => exact ⟨_, _, rfl, hb.1⟩

theorem PathSpelled.head [Letters] {p : Path} {ls : List Lexeme} (hp : p.IsLong)
    (h : PathSpelled P p.global p.segments ls) :
    ∃ l rest, ls = l :: rest ∧ l.token = p.firstToken .ident := by
  obtain ⟨global, segments, span⟩ := p
  obtain ⟨-, hlength⟩ := hp
  cases h with
  | absolute h =>
    cases h with
    | nil => cases hlength
    | cons hc hi h => exact ⟨_, _, rfl, hc.1⟩
  | relative hi h =>
    cases h with
    | nil => exact absurd hlength (Nat.lt_irrefl 1)
    | cons hc hi' h => exact ⟨_, _, rfl, hi.1.1⟩

theorem MacroSpelled.head {p : Path} {ls : List Lexeme}
    (h : MacroSpelled P p.global p.segments ls) :
    ∃ l rest, ls = l :: rest ∧ l.token = p.firstToken .macroName := by
  obtain ⟨global, segments, span⟩ := p
  dsimp only at h
  cases h with
  | alone hm => exact ⟨_, _, rfl, hm.1⟩
  | qualified h hc hm =>
    cases h with
    | absolute h =>
      cases h with
      | nil => exact ⟨_, _, rfl, hc.1⟩
      | cons hc' hi h => exact ⟨_, _, rfl, hc'.1⟩
    | @relative i more l ls hi h =>
      refine ⟨_, _, rfl, ?_⟩
      cases more <;> exact hi.1.1

/-- The listing of a left operand is followed by a lexeme that joins the rest to it. -/
theorem Expr.Spelled.left [Letters] {e x : Expr} {ls : List Lexeme} (hn : e.Normal) (h : e.Spelled q P ls)
    (hleft : e.left? = some x) :
    ∃ a o b, ls = a ++ o :: b ∧ x.Spelled q P a ∧ o.token ≠ .eq := by
  cases h with
  | @binary op x y s a b o hx ho hy hs =>
    cases hleft
    exact ⟨a, o, b, rfl, hx, by rw [ho.1]; cases op <;> decide⟩
  | @attempt x s a o hx ho hs => cases hleft; exact ⟨a, o, [], rfl, hx, by rw [ho.1]; decide⟩
  | @call f xs s a b hf hxs hs =>
    cases hleft
    cases hxs with
    | @mk items trailing s o c ls ho h hc hs =>
      exact ⟨a, o, ls ++ [c], rfl, hf, by rw [ho.1]; decide⟩
  | @field x k s a o l hx ho hk hs => cases hleft; exact ⟨a, o, [l], rfl, hx, by rw [ho.1]; decide⟩
  | @index x i s a b o c hx ho hi hc hs =>
    cases hleft
    exact ⟨a, o, b ++ [c], rfl, hx, by rw [ho.1]; decide⟩
  | @rangeFrom x inclusive s a o hx ho hs =>
    cases hleft
    exact ⟨a, o, [], rfl, hx, by rw [ho.1]; cases inclusive <;> decide⟩
  | @rangeBetween x y inclusive s a b o hx ho hy hs =>
    cases hleft
    exact ⟨a, o, b, rfl, hx, by rw [ho.1]; cases inclusive <;> decide⟩
  | @filter x fs s a b hx hfs hs =>
    cases hleft
    cases hfs with
    | nil => exact absurd rfl hn.node.2.1
    | @cons f fs c a' b' hc hf h => exact ⟨a, c, a' ++ b', rfl, hx, by rw [hc.1]; decide⟩
  | @isDefined x s a o c hx ho hc hs =>
    cases hleft
    exact ⟨a, o, [c], rfl, hx, by rw [ho.1]; decide⟩
  | @isNotDefined x s a o n c hx ho hn hc hs =>
    cases hleft
    exact ⟨a, o, [n, c], rfl, hx, by rw [ho.1]; decide⟩
  | _ => cases hleft

/-- A listing begins with the first token of the expression. -/
theorem Expr.Spelled.head [Letters] {e : Expr} {ls : List Lexeme} (hn : e.Normal) (h : e.Spelled q P ls) :
    ∃ l rest, ls = l :: rest ∧ l.token = e.firstToken := by
  induction hn using Expr.Normal.left_induction generalizing ls with
  | left e x hn hleft ih =>
    obtain ⟨a, o, b, rfl, hx, -⟩ := h.left hn hleft
    obtain ⟨l, rest, rfl, hl⟩ := ih hx
    exact ⟨l, _, rfl, by rw [hl, Expr.firstToken_left hleft]⟩
  | own e hn hown =>
    cases h with
    | lit hv hs => exact hv.head
    | var hl hs => exact ⟨_, _, rfl, hl.1⟩
    | path hp hs => exact hp.head hn.node
    | unary ho hx hs => exact ⟨_, _, rfl, ho.1⟩
    | ref ho hx hs => exact ⟨_, _, rfl, ho.1⟩
    | rangeFull ho hs => exact ⟨_, _, rfl, ho.1⟩
    | rangeTo ho hy hs => exact ⟨_, _, rfl, ho.1⟩
    | array ho h hc hs => exact ⟨_, _, rfl, ho.1⟩
    | tuple ho h hc hone hs => exact ⟨_, _, rfl, ho.1⟩
    | unit ho hc hs => exact ⟨_, _, rfl, ho.1⟩
    | group ho hx hc hs => exact ⟨_, _, rfl, ho.1⟩
    | macroCall hp hxs hs =>
      obtain ⟨l, rest, rfl, hl⟩ := hp.head
      exact ⟨l, _, rfl, hl⟩
    | _ => cases hown

end

end Stencil
