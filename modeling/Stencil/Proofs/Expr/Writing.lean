/-
  Writing — normal expressions can be written down, and what is written is scanned back.

  A listing says which lexemes an expression is made of; it becomes a text by putting the texts of
  the lexemes in a row with a blank before each of them.  Two facts connect the two:
    * every normal expression has a listing (`Expr.Normal.exists_listed`), with literals quoted the
      way they are printed;
    * the lexemes of every listing are scanned back from the row (`Expr.Spelled.written`).
  The second one has a single trap: a number directly after a dot is scanned as an index, digits only,
  and the blank between them does not change that.  In a listing only a key stands after a dot, so all
  other stretches can be put after anything that does not end in a dot (`Lead`).
-/
import Stencil.Proofs.Expr.Listing
import Stencil.Proofs.Lexer.Quote
import Stencil.Proofs.Lexer.Respell

namespace Stencil

/-- Literals quoted the way they are printed. -/
def Quoting.printed : Quoting where
  text v cs := cs = Quoted.text v.toList
  char c cs := cs = Quoted.char c
  text_quoted := by
    rintro v cs rfl
    exact isQuoted_text v.toList
  char_quoted := by
    rintro c cs rfl
    exact isQuoted_char c

/-- Whether none of the lexemes carries a modifier; inside a tag none does. -/
def Lexeme.Unmarked (ls : List Lexeme) : Prop := ∀ l ∈ ls, l.trim = none

/-! ## Stretches that may stand anywhere but after a dot -/

/-- Whether the lexemes can be written before whatever can be written after them. -/
def Lexeme.Lead [Letters] (ls : List Lexeme) : Prop := ∀ rest, Written false rest → Written false (ls ++ rest)

namespace Lexeme

variable {l : Lexeme} {a b ls : List Lexeme}

theorem Lead.nil [Letters] : Lead [] := fun _ h => h

theorem Lead.append [Letters] (ha : Lead a) (hb : Lead b) : Lead (a ++ b) := by
  intro rest h
  rw [List.append_assoc]
  exact ha _ (hb _ h)

theorem Lead.cons [Letters] (hl : Lead [l]) (h : Lead ls) : Lead (l :: ls) := hl.append h

theorem lead_of_spells [Letters] (hl : l.token.Spells l.text) (hblank : l.token ≠ .blank)
    (hdot : l.token ≠ .dot) : Lead [l] := by
  intro rest h
  refine ⟨hl, hblank, nofun, ?_⟩
  rw [beq_eq_false_iff_ne.2 hdot]
  exact h

theorem Is.spells [Letters] {t : Token} (h : l.Is t) : l.token.Spells l.text ∧ l.token ≠ .blank := by
  obtain ⟨rfl, hsign⟩ := h
  cases ht : l.token with
  | ident => rw [ht] at hsign; cases hsign
  | macroName => rw [ht] at hsign; cases hsign
  | number => rw [ht] at hsign; cases hsign
  | str => rw [ht] at hsign; cases hsign
  | char => rw [ht] at hsign; cases hsign
  | blank => rw [ht] at hsign; cases hsign
  | _ => exact ⟨by rw [ht] at hsign; exact hsign, Token.noConfusion⟩

theorem Is.lead [Letters] {t : Token} (h : l.Is t) (hdot : t ≠ .dot) : Lead [l] :=
  lead_of_spells h.spells.1 h.spells.2 (by rw [h.1]; exact hdot)

theorem IsWord.spells [Letters] {s : String} (hs : isWord s.toList = true) (h : l.IsWord s) :
    l.token.Spells l.text ∧ l.token ≠ .blank ∧ l.token ≠ .dot ∧ l.token ≠ .number := by
  obtain ⟨htoken, htext⟩ := h
  rw [htoken, htext]
  unfold wordToken
  cases hk : Keyword.ofString? s with
  | none =>
    refine ⟨?_, Token.noConfusion, Token.noConfusion, Token.noConfusion⟩
    show isPlainWord (String.ofList s.toList) = true
    rw [String.ofList_toList, isPlainWord, hs, hk]
    rfl
  | some k =>
    refine ⟨?_, Token.noConfusion, Token.noConfusion, Token.noConfusion⟩
    show some k.text.toList = some s.toList
    rw [Keyword.text_of_ofString? hk]

theorem IsWord.lead [Letters] {s : String} (hs : isWord s.toList = true) (h : l.IsWord s) : Lead [l] := by
  obtain ⟨hspells, hblank, hdot, -⟩ := h.spells hs
  exact lead_of_spells hspells hblank hdot

theorem IsMark.lead [Letters] {s : String} (hs : isPlainWord s = true) (h : l.IsMark s) : Lead [l] := by
  obtain ⟨htoken, htext⟩ := h
  refine lead_of_spells ?_ (by rw [htoken]; exact Token.noConfusion)
    (by rw [htoken]; exact Token.noConfusion)
  rw [htoken]
  exact ⟨s.toList, htext, by rw [String.ofList_toList]; exact hs⟩

theorem lead_of_number [Letters] (ht : l.token = .number) (h : isNumeral l.text = true) : Lead [l] :=
  lead_of_spells (by rw [ht]; exact h) (by rw [ht]; exact Token.noConfusion)
    (by rw [ht]; exact Token.noConfusion)

end Lexeme

theorem isWord_of_isName [Letters] {s : String} (h : isName s = true) : isWord s.toList = true := by
  rw [isName, Bool.and_eq_true] at h
  exact h.1

section

open Lexeme

variable {q : Quoting} {P : Span → List Lexeme → Prop} {ls : List Lexeme}

theorem Ident.Spelled.lead [Letters] {i : Ident} {l : Lexeme} (hi : isName i.name = true)
    (h : i.Spelled P l) : Lead [l] :=
  h.1.lead (isWord_of_isName hi)

/-- A dot and the key after it can stand before anything. -/
theorem Key.Spelled.lead [Letters] {k : Key} {o l : Lexeme} (ho : o.Is .dot) (hk : k.IsWritten)
    (h : k.Spelled P l) : Lead [o, l] := by
  have hkey : l.token.Spells l.text ∧ l.token ≠ .blank ∧ l.token ≠ .dot ∧
      (l.token = .number → l.text.all (·.isDigit) = true) := by
    cases h with
    | name hi =>
      obtain ⟨hspells, hblank, hdot, hnumber⟩ := hi.1.spells hk
      exact ⟨hspells, hblank, hdot, fun ht => absurd ht hnumber⟩
    | index ht hne hd hv hs =>
      refine ⟨?_, by rw [ht]; exact Token.noConfusion, by rw [ht]; exact Token.noConfusion,
        fun _ => hd⟩
      obtain ⟨c, cs, htext⟩ := List.exists_cons_of_ne_nil hne
      rw [htext, List.all_cons, Bool.and_eq_true] at hd
      rw [ht, htext]
      exact isNumeral_digits hd.1 hd.2
  obtain ⟨hspells, hblank, hdot, hdigits⟩ := hkey
  intro rest hrest
  refine ⟨ho.spells.1, ho.spells.2, nofun, hspells, hblank, fun _ => hdigits, ?_⟩
  rw [beq_eq_false_iff_ne.2 hdot]
  exact hrest

theorem Literal.Spelled.lead [Letters] {v : Literal} (hn : ∀ n, v = .num n → n.IsWritten)
    (h : v.Spelled q ls) : Lead ls := by
  cases h with
  | str ht hv =>
    exact lead_of_spells (by rw [ht]; exact ⟨_, q.text_quoted hv⟩)
      (by rw [ht]; exact Token.noConfusion) (by rw [ht]; exact Token.noConfusion)
  | char ht hv =>
    exact lead_of_spells (by rw [ht]; exact ⟨_, q.char_quoted hv⟩)
      (by rw [ht]; exact Token.noConfusion) (by rw [ht]; exact Token.noConfusion)
  | num hneg ht hr => exact lead_of_number ht (by rw [hr]; exact (hn _ rfl).1)
  | negative hneg hm ht hr =>
    exact (hm.lead (by decide)).cons (lead_of_number ht (by rw [hr]; exact (hn _ rfl).1))
  | bool hb => exact hb.lead Token.noConfusion

theorem SegmentsSpelled.lead [Letters] {segments : List Ident} (hi : ∀ i ∈ segments, isName i.name = true)
    (h : SegmentsSpelled P segments ls) : Lead ls := by
  induction h with
  | nil => exact .nil
  | cons hc hseg _ ih =>
    obtain ⟨hfirst, hmore⟩ := List.forall_mem_cons.1 hi
    exact (hc.lead (by decide)).cons ((hseg.lead hfirst).cons (ih hmore))

theorem PathSpelled.lead [Letters] {global : Bool} {segments : List Ident}
    (hi : ∀ i ∈ segments, isName i.name = true) (h : PathSpelled P global segments ls) :
    Lead ls := by
  cases h with
  | absolute h => exact h.lead hi
  | relative hseg h =>
    obtain ⟨hfirst, hmore⟩ := List.forall_mem_cons.1 hi
    exact (hseg.lead hfirst).cons (h.lead hmore)

theorem MacroSpelled.lead [Letters] {p : Path} (hp : p.IsMacro)
    (h : MacroSpelled P p.global p.segments ls) : Lead ls := by
  obtain ⟨global, segments, s⟩ := p
  obtain ⟨before, last, hsegments, hnames, hlast⟩ := hp
  dsimp only at h hsegments
  cases h with
  | @alone i m hm =>
    obtain ⟨-, hsame⟩ := List.append_inj' (show [] ++ [i] = before ++ [last] from hsegments) rfl
    obtain rfl := List.singleton_inj.1 hsame
    exact hm.lead hlast
  | qualified h hc hm =>
    obtain ⟨rfl, hsame⟩ := List.append_inj' hsegments rfl
    obtain rfl := List.singleton_inj.1 hsame
    exact (h.lead hnames).append ((hc.lead (by decide)).cons (hm.lead hlast))

/-! ## Lists of expressions -/

theorem Commas.lead [Letters] {α : Type} {R : α → List Lexeme → Prop} {xs : List α} {trailing : Bool}
    (hR : ∀ x ∈ xs, ∀ a, R x a → Lead a) (h : Commas R xs trailing ls) : Lead ls := by
  induction h with
  | none => exact .nil
  | last hx => exact hR _ List.mem_cons_self _ hx
  | trailing hx hc => exact (hR _ List.mem_cons_self _ hx).append (hc.lead (by decide))
  | more hx hc _ ih =>
    obtain ⟨hfirst, hmore⟩ := List.forall_mem_cons.1 hR
    exact (hfirst _ hx).append ((hc.lead (by decide)).cons (ih hmore))

variable {R : Expr → List Lexeme → Prop}

/-- What stands between brackets can be written with its brackets. -/
theorem lead_bracketed [Letters] {o c : Lexeme} {s t : Token} (ho : o.Is s) (hs : s ≠ .dot) (h : Lead ls)
    (hc : c.Is t) (ht : t ≠ .dot) : Lead (o :: (ls ++ [c])) :=
  (ho.lead hs).cons (h.append (hc.lead ht))

theorem Args.SpelledBy.lead [Letters] {xs : Args} (hnames : xs.NamesOk)
    (hR : ∀ x ∈ xs.values, ∀ a, R x a → Lead a) (h : xs.SpelledBy P R ls) : Lead ls := by
  cases h with
  | mk ho h hc hs =>
    refine lead_bracketed ho (by decide) (h.lead fun x hx a ha => ?_) hc (by decide)
    have hvalue := hR x.value (List.mem_map_of_mem hx)
    cases ha with
    | positional hx' => exact hvalue _ hx'
    | named hi heq hx' =>
      exact (hi.lead (hnames _ hx _ rfl)).cons ((heq.lead (by decide)).cons (hvalue _ hx'))

theorem Filter.SpelledBy.lead [Letters] {f : Filter} (hnames : f.NamesOk)
    (hR : ∀ x ∈ f.values, ∀ a, R x a → Lead a) (h : f.SpelledBy P R ls) : Lead ls := by
  cases h with
  | plain hi hs => exact hi.lead hnames.1
  | given hi hxs hs => exact (hi.lead hnames.1).cons (hxs.lead (hnames.2 _ rfl) hR)

theorem FiltersSpelled.lead [Letters] {fs : List Filter} (hnames : ∀ f ∈ fs, f.NamesOk)
    (hR : ∀ x ∈ fs.flatMap Filter.values, ∀ a, R x a → Lead a) (h : FiltersSpelled P R fs ls) :
    Lead ls := by
  induction h with
  | nil => exact .nil
  | cons hc hf _ ih =>
    obtain ⟨hfirst, hmore⟩ := List.forall_mem_cons.1 hnames
    rw [List.flatMap_cons, List.forall_mem_append] at hR
    exact (hc.lead (by decide)).cons ((hf.lead hfirst hR.1).append (ih hmore hR.2))

/-! ## Expressions -/

/-- The listing of a normal expression can stand anywhere but after a dot. -/
theorem Expr.Spelled.lead [Letters] {e : Expr} (hn : e.Normal) (h : e.Spelled q P ls) : Lead ls := by
  induction hn generalizing ls with
  | @mk e node children ih =>
    cases h with
    | lit hv hs =>
      refine hv.lead ?_
      rintro n rfl
      exact node
    | var hl hs => exact hl.lead (isWord_of_isName node)
    | path hp hs => exact hp.lead node.1
    | @binary op x y s a b o hx ho hy hs =>
      have hop : op.token ≠ .dot := by cases op <;> decide
      exact (ih x (by simp [Expr.children]) hx).append
        ((ho.lead hop).cons (ih y (by simp [Expr.children]) hy))
    | @unary op x s a o ho hx hs =>
      have hop : op.token ≠ .dot := by cases op <;> decide
      exact (ho.lead hop).cons (ih x List.mem_cons_self hx)
    | ref ho hx hs => exact (ho.lead (by decide)).cons (ih _ List.mem_cons_self hx)
    | attempt hx ho hs => exact (ih _ List.mem_cons_self hx).append (ho.lead (by decide))
    | call hf hxs hs =>
      refine (ih _ List.mem_cons_self hf).append (hxs.lead node.2 fun x hx a ha => ?_)
      exact ih x (List.mem_cons_of_mem _ hx) ha
    | field hx ho hk hs => exact (ih _ List.mem_cons_self hx).append (hk.lead ho node.2)
    | @index x i s a b o c hx ho hi hc hs =>
      exact (ih x List.mem_cons_self hx).append
        (lead_bracketed ho (by decide) (ih i (by simp [Expr.children]) hi) hc (by decide))
    | @rangeFull inclusive s o ho hs => exact ho.lead (by cases inclusive <;> decide)
    | @rangeTo y inclusive s b o ho hy hs =>
      exact (ho.lead (by cases inclusive <;> decide)).cons (ih y List.mem_cons_self hy)
    | @rangeFrom x inclusive s a o hx ho hs =>
      exact (ih x List.mem_cons_self hx).append (ho.lead (by cases inclusive <;> decide))
    | @rangeBetween x y inclusive s a b o hx ho hy hs =>
      exact (ih x List.mem_cons_self hx).append
        ((ho.lead (by cases inclusive <;> decide)).cons (ih y (by simp [Expr.children]) hy))
    | array ho h hc hs =>
      exact lead_bracketed ho (by decide) (h.lead fun x hx a ha => ih x hx ha) hc (by decide)
    | tuple ho h hc hone hs =>
      exact lead_bracketed ho (by decide) (h.lead fun x hx a ha => ih x hx ha) hc (by decide)
    | unit ho hc hs => exact (ho.lead (by decide)).cons (hc.lead (by decide))
    | group ho hx hc hs =>
      exact lead_bracketed ho (by decide) (ih _ List.mem_cons_self hx) hc (by decide)
    | filter hx hfs hs =>
      refine (ih _ List.mem_cons_self hx).append (hfs.lead node.2.2 fun x hx a ha => ?_)
      exact ih x (List.mem_cons_of_mem _ hx) ha
    | isDefined hx ho hc hs =>
      exact (ih _ List.mem_cons_self hx).append ((ho.lead (by decide)).cons (hc.lead (by decide)))
    | isNotDefined hx ho hnot hc hs =>
      exact (ih _ List.mem_cons_self hx).append
        ((ho.lead (by decide)).cons ((hnot.lead (by decide)).cons (hc.lead (by decide))))
    | macroCall hp hxs hs =>
      exact (hp.lead node.1).append (hxs.lead node.2 fun x hx a ha => ih x hx ha)

theorem Expr.Spelled.written [Letters] {e : Expr} (hn : e.Normal) (h : e.Spelled q P ls) :
    Lexeme.Written false ls := by
  have hlead := h.lead hn [] trivial
  rwa [List.append_nil] at hlead

end

/-! ## Every normal expression has a listing -/

/-- A lexeme of which only the token and the text matter. -/
def Lexeme.ofText (t : Token) (text : List Char) : Lexeme := ⟨t, ⟨0, 0⟩, text, none⟩

/-- The lexeme of a sign or keyword. -/
def Token.lexeme (t : Token) : Lexeme := .ofText t (t.sign?.getD [])

theorem Token.is_lexeme {t : Token} (h : t.sign?.isSome = true) : t.lexeme.Is t := by
  obtain ⟨text, htext⟩ := Option.isSome_iff_exists.1 h
  refine ⟨rfl, ?_⟩
  show t.sign? = some (t.sign?.getD [])
  rw [htext]
  rfl

namespace Lexeme

@[simp] theorem unmarked_nil : Unmarked [] := nofun

@[simp] theorem unmarked_cons {l : Lexeme} {ls : List Lexeme} :
    Unmarked (l :: ls) ↔ l.trim = none ∧ Unmarked ls := List.forall_mem_cons

@[simp] theorem unmarked_append {a b : List Lexeme} :
    Unmarked (a ++ b) ↔ Unmarked a ∧ Unmarked b := List.forall_mem_append

@[simp] theorem trim_ofText (t : Token) (text : List Char) : (ofText t text).trim = none := rfl

@[simp] theorem trim_lexeme (t : Token) : t.lexeme.trim = none := rfl

end Lexeme

open Lexeme

/-- The lexemes list the expression; literals are quoted the way they are printed. -/
def Expr.Listed (e : Expr) (ls : List Lexeme) : Prop :=
  e.Spelled .printed (fun _ => Unmarked) ls

/-- The lexeme of a word. -/
def wordLexeme (s : String) : Lexeme := .ofText (wordToken s) s.toList

theorem Ident.spelled_wordLexeme (i : Ident) :
    i.Spelled (fun _ => Unmarked) (wordLexeme i.name) :=
  ⟨⟨rfl, rfl⟩, by simp [wordLexeme]⟩

theorem exists_segments (segments : List Ident) :
    ∃ ls, SegmentsSpelled (fun _ => Unmarked) segments ls ∧ Unmarked ls := by
  induction segments with
  | nil => exact ⟨[], .nil, unmarked_nil⟩
  | cons i segments ih =>
    obtain ⟨ls, hls, hplain⟩ := ih
    exact ⟨_, .cons (Token.is_lexeme rfl) i.spelled_wordLexeme hls, by simp [wordLexeme, hplain]⟩

theorem exists_path {global : Bool} {segments : List Ident} (h : global = true ∨ segments ≠ []) :
    ∃ ls, PathSpelled (fun _ => Unmarked) global segments ls ∧ Unmarked ls := by
  cases global with
  | true =>
    obtain ⟨ls, hls, hplain⟩ := exists_segments segments
    exact ⟨ls, .absolute hls, hplain⟩
  | false =>
    cases segments with
    | nil => simp at h
    | cons i segments =>
      obtain ⟨ls, hls, hplain⟩ := exists_segments segments
      exact ⟨_, .relative i.spelled_wordLexeme hls, by simp [wordLexeme, hplain]⟩

theorem Path.IsMacro.exists_spelled [Letters] {p : Path} (hp : p.IsMacro) :
    ∃ ls, MacroSpelled (fun _ => Unmarked) p.global p.segments ls ∧ Unmarked ls := by
  obtain ⟨before, last, hsegments, -, -⟩ := hp
  have hmark : (ofText .macroName (last.name.toList ++ ['!'])).IsMark last.name := ⟨rfl, rfl⟩
  rw [hsegments]
  by_cases h : p.global = true ∨ before ≠ []
  · obtain ⟨ls, hls, hplain⟩ := exists_path h
    exact ⟨_, .qualified hls (Token.is_lexeme rfl) hmark, by simp [hplain]⟩
  · rw [not_or, Bool.not_eq_true, not_not] at h
    rw [h.1, h.2]
    exact ⟨_, .alone hmark, by simp⟩

/-- An index is written with its decimal digits. -/
theorem Key.exists_spelled (k : Key) : ∃ l, k.Spelled (fun _ => Unmarked) l ∧ l.trim = none := by
  cases k with
  | name i => exact ⟨_, .name i.spelled_wordLexeme, rfl⟩
  | index v s =>
    refine ⟨.ofText .number (Nat.toDigits 10 v), .index rfl Nat.toDigits_ne_nil ?_ ?_ (by simp), rfl⟩
    · exact List.all_eq_true.2 fun c hc => Nat.isDigit_of_mem_toDigits (by decide) (by decide) hc
    · exact Nat.ofDigitChars_ten_toDigits

theorem Literal.exists_spelled (v : Literal) : ∃ ls, v.Spelled .printed ls ∧ Unmarked ls := by
  cases v with
  | str v => exact ⟨[.ofText .str (Quoted.text v.toList)], .str rfl rfl, by simp⟩
  | char c => exact ⟨[.ofText .char (Quoted.char c)], .char rfl rfl, by simp⟩
  | num n =>
    cases hn : n.negative with
    | false => exact ⟨[.ofText .number n.raw.toList], .num hn rfl rfl, by simp⟩
    | true =>
      exact ⟨[Token.minus.lexeme, .ofText .number n.raw.toList],
        .negative hn (Token.is_lexeme rfl) rfl rfl, by simp⟩
  | bool b => exact ⟨[(boolToken b).lexeme], .bool (Token.is_lexeme (by cases b <;> rfl)), by simp⟩

section

variable {R : Expr → List Lexeme → Prop}

theorem exists_commas {α : Type} {R : α → List Lexeme → Prop} {xs : List α}
    (h : ∀ x ∈ xs, ∃ a, R x a ∧ Unmarked a) : ∃ ls, Commas R xs false ls ∧ Unmarked ls := by
  induction xs with
  | nil => exact ⟨[], .none, unmarked_nil⟩
  | cons x xs ih =>
    obtain ⟨⟨a, ha, hplain⟩, hmore⟩ := List.forall_mem_cons.1 h
    obtain ⟨b, hb, hplain'⟩ := ih hmore
    cases xs with
    | nil => exact ⟨a, .last ha, hplain⟩
    | cons y ys => exact ⟨_, .more ha (Token.is_lexeme rfl) hb, by simp [hplain, hplain']⟩

theorem Args.exists_spelled (xs : Args) (h : ∀ x ∈ xs.values, ∃ a, R x a ∧ Unmarked a) :
    ∃ ls, xs.SpelledBy (fun _ => Unmarked) R ls ∧ Unmarked ls := by
  obtain ⟨items, s⟩ := xs
  have hitems : ∀ x ∈ items, ∃ a, Arg.SpelledBy (fun _ => Unmarked) R x a ∧ Unmarked a := by
    intro x hx
    obtain ⟨a, ha, hplain⟩ := h x.value (List.mem_map_of_mem hx)
    cases x with
    | positional x => exact ⟨a, .positional ha, hplain⟩
    | named i x =>
      exact ⟨_, .named i.spelled_wordLexeme (Token.is_lexeme rfl) ha, by simp [wordLexeme, hplain]⟩
  obtain ⟨ls, hls, hplain⟩ := exists_commas hitems
  have hall : Unmarked (Token.lparen.lexeme :: (ls ++ [Token.rparen.lexeme])) := by simp [hplain]
  exact ⟨_, .mk (Token.is_lexeme rfl) hls (Token.is_lexeme rfl) hall, hall⟩

theorem Filter.exists_spelled (f : Filter) (h : ∀ x ∈ f.values, ∃ a, R x a ∧ Unmarked a) :
    ∃ ls, f.SpelledBy (fun _ => Unmarked) R ls ∧ Unmarked ls := by
  obtain ⟨i, args, s⟩ := f
  cases args with
  | none => exact ⟨_, .plain i.spelled_wordLexeme (by simp [wordLexeme]), by simp [wordLexeme]⟩
  | some xs =>
    obtain ⟨ls, hls, hplain⟩ := xs.exists_spelled h
    have hall : Unmarked (wordLexeme i.name :: ls) := by simp [wordLexeme, hplain]
    exact ⟨_, .given i.spelled_wordLexeme hls hall, hall⟩

theorem exists_filters {fs : List Filter}
    (h : ∀ x ∈ fs.flatMap Filter.values, ∃ a, R x a ∧ Unmarked a) :
    ∃ ls, FiltersSpelled (fun _ => Unmarked) R fs ls ∧ Unmarked ls := by
  induction fs with
  | nil => exact ⟨[], .nil, unmarked_nil⟩
  | cons f fs ih =>
    rw [List.flatMap_cons, List.forall_mem_append] at h
    obtain ⟨a, ha, hplain⟩ := f.exists_spelled h.1
    obtain ⟨b, hb, hplain'⟩ := ih h.2
    exact ⟨_, .cons (Token.is_lexeme rfl) ha hb, by simp [hplain, hplain']⟩

end

/-- Every normal expression can be written down. -/
theorem Expr.Normal.exists_listed [Letters] {e : Expr} (hn : e.Normal) : ∃ ls, e.Listed ls := by
  induction hn with
  | @mk e node children ih =>
    have hpart : ∀ x ∈ e.children, ∃ a, x.Listed a ∧ Unmarked a := by
      intro x hx
      obtain ⟨a, ha⟩ := ih x hx
      exact ⟨a, ha, ha.place⟩
    cases e with
    | lit v s =>
      obtain ⟨ls, hls, hplain⟩ := v.exists_spelled
      exact ⟨ls, .lit hls hplain⟩
    | var n s => exact ⟨[wordLexeme n], .var ⟨rfl, rfl⟩ (by simp [wordLexeme])⟩
    | path p s =>
      have hlong : p.global = true ∨ p.segments ≠ [] := by
        obtain ⟨-, hlength⟩ := node
        rw [← List.length_pos_iff]
        split at hlength
        · exact .inl ‹_›
        · exact .inr (by omega)
      obtain ⟨ls, hls, hplain⟩ := exists_path hlong
      exact ⟨ls, .path hls hplain⟩
    | binary op x y s =>
      obtain ⟨a, ha, hplain⟩ := hpart x (by simp [Expr.children])
      obtain ⟨b, hb, hplain'⟩ := hpart y (by simp [Expr.children])
      have hop : op.token.sign?.isSome = true := by cases op <;> rfl
      exact ⟨_, .binary ha (Token.is_lexeme hop) hb (by simp [hplain, hplain'])⟩
    | unary op x s =>
      obtain ⟨a, ha, hplain⟩ := hpart x (by simp [Expr.children])
      have hop : op.token.sign?.isSome = true := by cases op <;> rfl
      exact ⟨_, .unary (Token.is_lexeme hop) ha (by simp [hplain])⟩
    | ref x s =>
      obtain ⟨a, ha, hplain⟩ := hpart x (by simp [Expr.children])
      exact ⟨_, .ref (Token.is_lexeme rfl) ha (by simp [hplain])⟩
    | attempt x s =>
      obtain ⟨a, ha, hplain⟩ := hpart x (by simp [Expr.children])
      exact ⟨_, .attempt ha (Token.is_lexeme rfl) (by simp [hplain])⟩
    | call f xs s =>
      obtain ⟨a, ha, hplain⟩ := hpart f List.mem_cons_self
      obtain ⟨b, hb, hplain'⟩ :=
        xs.exists_spelled fun x hx => hpart x (List.mem_cons_of_mem f hx)
      exact ⟨_, .call ha hb (by simp [hplain, hplain'])⟩
    | field x k s =>
      obtain ⟨a, ha, hplain⟩ := hpart x (by simp [Expr.children])
      obtain ⟨l, hl, hplain'⟩ := k.exists_spelled
      exact ⟨_, .field ha (Token.is_lexeme rfl) hl (by simp [hplain, hplain'])⟩
    | index x i s =>
      obtain ⟨a, ha, hplain⟩ := hpart x (by simp [Expr.children])
      obtain ⟨b, hb, hplain'⟩ := hpart i (by simp [Expr.children])
      exact ⟨_, .index ha (Token.is_lexeme rfl) hb (Token.is_lexeme rfl) (by simp [hplain, hplain'])⟩
    | range x y inclusive s =>
      have ho : (rangeToken inclusive).lexeme.Is (rangeToken inclusive) :=
        Token.is_lexeme (by cases inclusive <;> rfl)
      cases x with
      | none =>
        cases y with
        | none => exact ⟨_, .rangeFull ho (by simp)⟩
        | some y =>
          obtain ⟨b, hb, hplain⟩ := hpart y (by simp [Expr.children])
          exact ⟨_, .rangeTo ho hb (by simp [hplain])⟩
      | some x =>
        obtain ⟨a, ha, hplain⟩ := hpart x (by simp [Expr.children])
        cases y with
        | none => exact ⟨_, .rangeFrom ha ho (by simp [hplain])⟩
        | some y =>
          obtain ⟨b, hb, hplain'⟩ := hpart y (by simp [Expr.children])
          exact ⟨_, .rangeBetween ha ho hb (by simp [hplain, hplain'])⟩
    | array es s =>
      obtain ⟨ls, hls, hplain⟩ := exists_commas hpart
      exact ⟨_, .array (Token.is_lexeme rfl) hls (Token.is_lexeme rfl) (by simp [hplain])⟩
    | tuple es s =>
      -- A tuple of one item needs the comma after it.
      by_cases hone : ∃ x, es = [x]
      · obtain ⟨x, rfl⟩ := hone
        obtain ⟨a, ha, hplain⟩ := hpart x (by simp [Expr.children])
        exact ⟨_, .tuple (Token.is_lexeme rfl) (.trailing ha (Token.is_lexeme rfl))
          (Token.is_lexeme rfl) (fun _ => rfl) (by simp [hplain])⟩
      · obtain ⟨ls, hls, hplain⟩ := exists_commas hpart
        exact ⟨_, .tuple (Token.is_lexeme rfl) hls (Token.is_lexeme rfl)
          (fun h => absurd (List.length_eq_one_iff.1 h) hone) (by simp [hplain])⟩
    | unit s => exact ⟨_, .unit (Token.is_lexeme rfl) (Token.is_lexeme rfl) (by simp)⟩
    | group x s =>
      obtain ⟨a, ha, hplain⟩ := hpart x (by simp [Expr.children])
      exact ⟨_, .group (Token.is_lexeme rfl) ha (Token.is_lexeme rfl) (by simp [hplain])⟩
    | filter x fs s =>
      obtain ⟨a, ha, hplain⟩ := hpart x List.mem_cons_self
      obtain ⟨b, hb, hplain'⟩ := exists_filters fun y hy => hpart y (List.mem_cons_of_mem x hy)
      exact ⟨_, .filter ha hb (by simp [hplain, hplain'])⟩
    | isDefined x negated s =>
      obtain ⟨a, ha, hplain⟩ := hpart x (by simp [Expr.children])
      cases negated with
      | false => exact ⟨_, .isDefined ha (Token.is_lexeme rfl) (Token.is_lexeme rfl) (by simp [hplain])⟩
      | true =>
        exact ⟨_, .isNotDefined ha (Token.is_lexeme rfl) (Token.is_lexeme rfl) (Token.is_lexeme rfl)
          (by simp [hplain])⟩
    | macroCall p xs s =>
      obtain ⟨a, ha, hplain⟩ := node.1.exists_spelled
      obtain ⟨b, hb, hplain'⟩ := xs.exists_spelled hpart
      exact ⟨_, .macroCall ha hb (by simp [hplain, hplain'])⟩

end Stencil
