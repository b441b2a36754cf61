/-
  Expr — the printed text of an expression is scanned as a listing of what it shows.

  The proof goes over the tree and puts the text of a node together from those of its parts, one lemma
  for each kind of list and one for each construct; what stands next to what is known in each case.
  There is one place where two pieces come too close, the item of a plain number (`item_shows`).
-/
import Stencil.Proofs.Printing.Pieces

namespace Stencil

open Lexeme

namespace Expr

/-- The text of the expression is scanned as a listing of what it shows. -/
def IsShown [Letters] (e : Expr) : Prop := Shows e.isPlainNumber e.shown.Listed e.render.toList

end Expr

/-! ## Lists in the printer -/

theorem Expr.renderList_eq (es : List Expr) :
    Expr.renderList es = joinWith ", " (es.map Expr.render) := by
  match es with
  | [] => rfl
  | [a] => rfl
  | a :: b :: rest =>
    rw [Expr.renderList, Expr.renderList_eq (b :: rest)]
    rfl

theorem Arg.renderList_eq (items : List Arg) :
    Arg.renderList items = joinWith ", " (items.map Arg.render) := by
  match items with
  | [] => rfl
  | [a] => rfl
  | a :: b :: rest =>
    rw [Arg.renderList, Arg.renderList_eq (b :: rest)]
    rfl

/-! ## Keys, arguments and filters -/

/-- A dot and the key after it. -/
theorem Key.prints [Letters] {k : Key} (hk : k.IsWritten) :
    ∃ l, k.Spelled (fun _ => Unmarked) l ∧ l.trim = none ∧
      Prints false ('.' :: k.render.toList) [Token.dot.lexeme, l] := by
  have dot : ∀ {cs : List Char} {ls : List Lexeme}, Opens cs → cs.head? ≠ some '.' →
      (∀ kind tail, Follows false tail → Lexes kind true cs ls false tail) →
      Prints false ('.' :: cs) (Token.dot.lexeme :: ls) := by
    intro cs ls ho hne h kind tail ht
    have hstop : ∀ c ∈ (cs ++ tail).head?, c ∉ ['.'] := by
      obtain ⟨first, rest, rfl, -⟩ := ho
      intro c hc hmem
      cases hc
      exact hne (congrArg some (List.mem_singleton.1 hmem))
    have hdot : Lexes kind false ['.'] [Token.dot.lexeme] true (cs ++ tail) :=
      Lexes.token (l := Token.dot.lexeme) rfl Token.noConfusion rfl (fun h => by cases h) hstop
    exact hdot.append (h kind tail ht)
  cases k with
  | name i =>
    have hword : isWord i.name.toList = true := hk
    have hne : i.name.toList.head? ≠ some '.' := by
      intro hdot
      obtain ⟨rest, hrest⟩ := List.head?_eq_some_iff.1 hdot
      rw [hrest, isWord, Bool.and_eq_true] at hword
      have hdot : isIdentStart '.' = false := isIdentStart_of_isDivider (by decide)
      rw [hdot] at hword
      exact Bool.false_ne_true hword.1
    exact ⟨wordLexeme i.name, .name i.spelled_wordLexeme, rfl,
      dot (opens_word hword) hne fun _ _ ht => lexes_word hword ht⟩
  | index v s =>
    have hdigits : (Nat.toDigits 10 v).all (·.isDigit) = true :=
      List.all_eq_true.2 fun c hc => Nat.isDigit_of_mem_toDigits (by decide) (by decide) hc
    obtain ⟨c, cs, hcons⟩ := List.exists_cons_of_ne_nil (Nat.toDigits_ne_nil (b := 10) (n := v))
    have hnumeral : isNumeral (Nat.toDigits 10 v) = true := by
      rw [hcons, List.all_cons, Bool.and_eq_true] at hdigits
      rw [hcons]
      exact isNumeral_digits hdigits.1 hdigits.2
    have htext : (Key.index v s).render.toList = Nat.toDigits 10 v := by
      simp [Key.render, Nat.repr]
    rw [htext]
    refine ⟨.ofText .number (Nat.toDigits 10 v), .index rfl Nat.toDigits_ne_nil hdigits
      Nat.ofDigitChars_ten_toDigits (by simp), rfl, dot (opens_numeral hnumeral) ?_ ?_⟩
    · intro hdot
      rw [hcons, List.head?_cons, Option.some.injEq] at hdot
      rw [hcons, hdot, List.all_cons, Bool.and_eq_true] at hdigits
      exact absurd hdigits.1 (by decide)
    · exact fun kind tail ht => Lexes.token (l := .ofText .number (Nat.toDigits 10 v)) hnumeral
        Token.noConfusion rfl (fun _ _ => hdigits) (ht.number fun h => by cases h)

theorem Arg.shows [Letters] {a : Arg} (hname : ∀ n ∈ a.name?, isName n.name = true)
    (h : a.value.IsShown) :
    Shows a.value.isPlainNumber (Arg.SpelledBy (fun _ => Unmarked) Expr.Listed (a.map Expr.shown))
      a.render.toList := by
  obtain ⟨hopens, ls, hls, hplain, hprints⟩ := h
  cases a with
  | positional x => exact ⟨hopens, ls, .positional hls, hplain, hprints⟩
  | named n x =>
    have hword := isWord_of_isName (hname n rfl)
    have htext : (Arg.named n x).render.toList = n.name.toList ++ ' ' :: (['='] ++ ' ' :: x.render.toList) := by
      simp [Arg.render]
    rw [htext]
    refine ⟨(opens_word hword).append _, _,
      .named n.spelled_wordLexeme (Token.is_lexeme rfl) hls, by simp [wordLexeme, hplain],
      fun kind tail ht => ?_⟩
    exact (prints_word hword kind _ (.of_cons (by decide) (by decide) _)).append
      (.between (t := .eq) rfl Token.noConfusion hopens (hprints kind tail ht))

theorem Args.shows [Letters] {xs : Args} (hnames : xs.NamesOk) (h : ∀ x ∈ xs.values, x.IsShown) :
    Shows false (Args.SpelledBy (fun _ => Unmarked) Expr.Listed (xs.map Expr.shown))
      xs.render.toList := by
  obtain ⟨items, s⟩ := xs
  have hitems : ∀ a ∈ items, Shows a.value.isPlainNumber
      (Arg.SpelledBy (fun _ => Unmarked) Expr.Listed (a.map Expr.shown)) a.render.toList :=
    fun a ha => a.shows (hnames a ha) (h a.value (List.mem_map_of_mem ha))
  obtain ⟨ls, hls, hplain, hprints⟩ := commas_print _ hitems
  have htext : (Args.mk items s).render.toList =
      '(' :: ((joinWith ", " (items.map Arg.render)).toList ++ [')']) := by
    simp [Args.render, Arg.renderList_eq]
  have hall : Unmarked (Token.lparen.lexeme :: (ls ++ [Token.rparen.lexeme])) := by simp [hplain]
  rw [htext]
  refine ⟨.of_sign (by decide), _, .mk (Token.is_lexeme rfl) hls (Token.is_lexeme rfl) hall, hall,
    fun kind tail _ => ?_⟩
  exact .enclosed rfl rfl (by decide) (by decide)
    (hprints kind _ (.of_cons (by decide) (by decide) tail))

theorem Filter.shows [Letters] {f : Filter} (hnames : f.NamesOk) (h : ∀ x ∈ f.values, x.IsShown) :
    Shows false (Filter.SpelledBy (fun _ => Unmarked) Expr.Listed (f.map Expr.shown))
      f.render.toList := by
  obtain ⟨n, xs, s⟩ := f
  have hword := isWord_of_isName hnames.1
  cases xs with
  | none =>
    have htext : (Filter.mk n none s).render.toList = n.name.toList := by
      simp [Filter.render, Args.renderOption]
    rw [htext]
    exact ⟨opens_word hword, _, .plain n.spelled_wordLexeme (by simp [wordLexeme]),
      by simp [wordLexeme], prints_word hword⟩
  | some xs =>
    obtain ⟨⟨c, rest, hcons, hc⟩, ls, hls, hplain, hprints⟩ := Args.shows (hnames.2 xs rfl) h
    have htext : (Filter.mk n (some xs) s).render.toList = n.name.toList ++ xs.render.toList := by
      simp [Filter.render, Args.renderOption]
    have hall : Unmarked (wordLexeme n.name :: ls) := by simp [wordLexeme, hplain]
    rw [htext]
    refine ⟨(opens_word hword).append _, _, .given n.spelled_wordLexeme hls hall, hall,
      fun kind tail ht => ?_⟩
    have hparen : Follows false (xs.render.toList ++ tail) := by
      obtain ⟨items, s⟩ := xs
      simp only [Args.render, String.toList_append]
      exact .of_cons (by decide) (by decide) _
    exact (lexes_word hword hparen).append (hprints kind tail ht)

/-- What may follow filters may follow what stands before them. -/
theorem Filter.follows_chain (fs : List Filter) {plain : Bool} {tail : List Char}
    (h : Follows true tail) : Follows plain ((Filter.renderChain fs).toList ++ tail) := by
  cases fs with
  | nil => exact h.of_true
  | cons g fs =>
    simp only [Filter.renderChain, String.toList_append]
    exact .of_cons (by decide) (by decide) _

/-- The filters in a row, each after its bar. -/
theorem filters_print [Letters] {fs : List Filter} (hnames : ∀ f ∈ fs, f.NamesOk)
    (h : ∀ x ∈ fs.flatMap Filter.values, x.IsShown) :
    ∃ ls, FiltersSpelled (fun _ => Unmarked) Expr.Listed (fs.map (Filter.map Expr.shown)) ls ∧
      Unmarked ls ∧ Prints true (Filter.renderChain fs).toList ls := by
  induction fs with
  | nil => exact ⟨[], .nil, unmarked_nil, fun kind tail _ => .nil kind false tail⟩
  | cons f fs ih =>
    obtain ⟨hfirst, hmore⟩ := List.forall_mem_cons.1 hnames
    rw [List.flatMap_cons, List.forall_mem_append] at h
    obtain ⟨hopens, a, ha, hplain, hprints⟩ := Filter.shows hfirst h.1
    obtain ⟨b, hb, hplain', hprints'⟩ := ih hmore h.2
    have htext : (Filter.renderChain (f :: fs)).toList =
        ' ' :: (['|'] ++ ' ' :: (f.render.toList ++ (Filter.renderChain fs).toList)) := by
      simp [Filter.renderChain]
    rw [htext]
    refine ⟨_, .cons (Token.is_lexeme rfl) ha hb, by simp [hplain, hplain'], fun kind tail ht => ?_⟩
    exact .between rfl Token.noConfusion (hopens.append _)
      ((hprints kind _ (Filter.follows_chain fs ht)).append (hprints' kind tail ht))

/-! ## Expressions -/

namespace Expr

variable {e : Expr} {plain : Bool} {cs : List Char} {ls : List Lexeme}

/-- An operator application is printed, and shown, in parentheses. -/
theorem shows_wrapped [Letters] (cs : List Char) (hrank : e.rank < 14) (hlisted : (e.mapChildren shown).Listed ls)
    (htext : e.render.toList = '(' :: (cs ++ [')']))
    (h : ∀ kind tail, Lexes kind false cs ls false (')' :: tail)) :
    Shows plain e.shown.Listed e.render.toList := by
  have hplain : Unmarked ls := hlisted.place
  have hall : Unmarked (Token.lparen.lexeme :: (ls ++ [Token.rparen.lexeme])) := by simp [hplain]
  rw [htext, shown_of_lt hrank]
  exact ⟨.of_sign (by decide), _,
    .group (Token.is_lexeme rfl) hlisted (Token.is_lexeme rfl) hall, hall,
    fun kind tail _ => .enclosed rfl rfl (by decide) (by decide) (h kind tail)⟩

/-- A construct that stands for itself is printed as what it is. -/
theorem shows_plain [Letters] (hrank : e.rank = 14) (hindexed : e.isIndexedNumber = false)
    (hlisted : (e.mapChildren shown).Listed ls) (hopens : Opens e.render.toList)
    (h : Prints plain e.render.toList ls) : Shows plain e.shown.Listed e.render.toList := by
  rw [shown_of_eq_false hrank hindexed]
  exact ⟨hopens, ls, hlisted, hlisted.place, h⟩

/-- What may follow within parentheses. -/
theorem follows_paren (plain : Bool) (tail : List Char) : Follows plain (')' :: tail) :=
  .of_cons (by decide) (by decide) tail

theorem follows_blank (plain : Bool) (tail : List Char) : Follows plain (' ' :: tail) :=
  .of_cons (by decide) (by decide) tail

theorem BinOp.sign?_token (op : BinOp) : op.token.sign? = some op.text.toList := by
  cases op <;> rfl

theorem binary_shows [Letters] {op : BinOp} {a b : Expr} {s : Span} (ha : a.IsShown) (hb : b.IsShown) :
    (binary op a b s).IsShown := by
  obtain ⟨-, la, hla, hplain, hprints⟩ := ha
  obtain ⟨hopens, lb, hlb, hplain', hprints'⟩ := hb
  have hop : op.token ≠ .dot := by cases op <;> decide
  have hsign := BinOp.sign?_token op
  have hlisted : ((binary op a b s).mapChildren shown).Listed (la ++ op.token.lexeme :: lb) :=
    .binary hla (Token.is_lexeme (by rw [hsign]; rfl)) hlb (by simp [hplain, hplain'])
  refine shows_wrapped (a.render.toList ++ ' ' :: (op.text.toList ++ ' ' :: b.render.toList))
    ?_ hlisted (by simp [render]) fun kind tail => ?_
  · have := op.level_lt_filterLevel
    show op.level + 1 < 14
    unfold filterLevel at this
    omega
  · exact (hprints kind _ (follows_blank _ _)).append
      (.between hsign hop hopens (hprints' kind _ (follows_paren _ _)))

/-- A unary sign stands directly before its operand, which does not join it. -/
theorem signed_shows [Letters] {a : Expr} {t : Token} {c : Char} (hrank : e.rank < 14)
    (hs : t.sign? = some [c]) (hdot : t ≠ .dot) (hjoins : t.joins.all isApart = true)
    (hstops : ∀ tail : List Char, (∀ c ∈ tail.head?, c ∉ t.joins) → t.Stops false [c] tail)
    (ha : a.IsShown) (htext : e.render.toList = '(' :: ((c :: a.render.toList) ++ [')']))
    (hlisted : ∀ la, a.shown.Listed la → (e.mapChildren shown).Listed (t.lexeme :: la)) :
    Shows plain e.shown.Listed e.render.toList := by
  obtain ⟨hopens, la, hla, -, hprints⟩ := ha
  refine shows_wrapped _ hrank (hlisted la hla) htext fun kind tail => ?_
  have hsign : Lexes kind false [c] [t.lexeme] false (a.render.toList ++ ')' :: tail) :=
    .sign hs hdot (hstops _ (hopens.head hjoins _))
  exact hsign.append (hprints kind _ (follows_paren _ _))

theorem unary_shows [Letters] {op : UnOp} {a : Expr} {s : Span} (ha : a.IsShown) :
    (unary op a s).IsShown := by
  have hlisted : ∀ la, a.shown.Listed la →
      ((unary op a s).mapChildren shown).Listed (op.token.lexeme :: la) := by
    intro la hla
    have hplain : Unmarked la := hla.place
    exact .unary (Token.is_lexeme (by cases op <;> rfl)) hla (by simp [hplain])
  have hrank : (unary op a s).rank < 14 := by show 12 < 14; decide
  cases op with
  | not =>
    exact signed_shows (t := .bang) hrank rfl (by decide) (by decide) (fun _ h => h) ha
      (by simp [render, UnOp.text]) hlisted
  | deref =>
    exact signed_shows (t := .star) hrank rfl (by decide) (by decide) (fun _ h => h) ha
      (by simp [render, UnOp.text]) hlisted
  | neg =>
    exact signed_shows (t := .minus) hrank rfl (by decide) (by decide) (fun _ h => h) ha
      (by simp [render, UnOp.text]) hlisted

theorem ref_shows [Letters] {a : Expr} {s : Span} (ha : a.IsShown) : (ref a s).IsShown := by
  refine signed_shows (t := .amp) (by show 12 < 14; decide) rfl (by decide) (by decide) (fun _ h => h) ha
    (by simp [render]) fun la hla => ?_
  have hplain : Unmarked la := hla.place
  exact .ref (Token.is_lexeme rfl) hla (by simp [hplain])

/-- The sign of a range, before the end of the range or of the parentheses. -/
theorem lexes_rangeSign [Letters] {kind : TagKind} {inclusive : Bool} {tail : List Char}
    (h : ∀ c ∈ tail.head?, c ∉ ['=']) :
    Lexes kind false (if inclusive then "..=" else "..").toList [(rangeToken inclusive).lexeme] false
      tail := by
  cases inclusive with
  | true => exact .mark rfl (by decide)
  | false => exact .sign (t := .dotDot) rfl (by decide) h

theorem follows_rangeSign (plain inclusive : Bool) (tail : List Char) :
    Follows plain ((if inclusive then "..=" else "..").toList ++ tail) := by
  refine ⟨fun c hc => ?_, fun _ => by cases inclusive <;> rfl⟩
  cases inclusive <;> cases hc <;> decide

theorem range_shows [Letters] {a b : Option Expr} {inclusive : Bool} {s : Span} (ha : ∀ x ∈ a, x.IsShown)
    (hb : ∀ x ∈ b, x.IsShown) : (range a b inclusive s).IsShown := by
  have hrank : ∀ a b : Option Expr, (range a b inclusive s).rank < 14 := fun _ _ => Nat.zero_lt_succ 13
  have hsign : (rangeToken inclusive).lexeme.Is (rangeToken inclusive) :=
    Token.is_lexeme (by cases inclusive <;> rfl)
  have hparen : ∀ tail, ∀ c ∈ (')' :: tail).head?, c ∉ ['='] := by
    intro tail c hc
    cases hc
    decide
  cases a with
  | none =>
    cases b with
    | none =>
      exact shows_wrapped _ (hrank _ _) (.rangeFull hsign (by simp)) (by simp [render, renderOption])
        fun kind tail => lexes_rangeSign (hparen tail)
    | some y =>
      obtain ⟨hopens, lb, hlb, hplain, hprints⟩ := hb y rfl
      exact shows_wrapped _ (hrank _ _) (.rangeTo hsign hlb (by simp [hplain]))
        (by simp [render, renderOption]) fun kind tail =>
          (lexes_rangeSign (hopens.head (by decide) _)).append (hprints kind _ (follows_paren _ _))
  | some x =>
    obtain ⟨-, la, hla, hplain, hprints⟩ := ha x rfl
    cases b with
    | none =>
      exact shows_wrapped _ (hrank _ _) (.rangeFrom hla hsign (by simp [hplain]))
        (by simp [render, renderOption]) fun kind tail =>
          (hprints kind _ (follows_rangeSign _ _ _)).append (lexes_rangeSign (hparen tail))
    | some y =>
      obtain ⟨hopens, lb, hlb, hplain', hprints'⟩ := hb y rfl
      refine shows_wrapped
        (x.render.toList ++ ((if inclusive then "..=" else "..").toList ++ y.render.toList))
        (hrank _ _) (.rangeBetween hla hsign hlb (by simp [hplain, hplain']))
        (by simp [render, renderOption]) fun kind tail => ?_
      refine (hprints kind _ ?_).append ((lexes_rangeSign (hopens.head (by decide) (')' :: tail))).append
        (hprints' kind _ (follows_paren _ _)))
      rw [List.append_assoc]
      exact follows_rangeSign _ _ _

theorem filter_shows [Letters] {a : Expr} {fs : List Filter} {s : Span} (ha : a.IsShown)
    (hnames : ∀ f ∈ fs, f.NamesOk) (hfs : ∀ x ∈ fs.flatMap Filter.values, x.IsShown) :
    (filter a fs s).IsShown := by
  obtain ⟨-, la, hla, hplain, hprints⟩ := ha
  obtain ⟨lb, hlb, hplain', hprints'⟩ := filters_print hnames hfs
  refine shows_wrapped (a.render.toList ++ (Filter.renderChain fs).toList)
    (show filterLevel + 1 < 14 by decide) (.filter hla hlb (by simp [hplain, hplain']))
    (by simp [render]) fun kind tail => ?_
  exact (hprints kind _ (Filter.follows_chain fs (follows_paren true tail))).append
    (hprints' kind _ (follows_paren _ _))

theorem isDefined_shows [Letters] {a : Expr} {negated : Bool} {s : Span} (ha : a.IsShown) :
    (isDefined a negated s).IsShown := by
  obtain ⟨-, la, hla, hplain, hprints⟩ := ha
  have hdefined := fun kind tail => prints_keyword .definedKw kind _ (follows_paren false tail)
  have hopens : ∀ k : Keyword, Opens k.text.toList := fun k => opens_word k.isWord_text
  have hrank : (isDefined a negated s).rank < 14 := by show 13 < 14; decide
  cases negated with
  | false =>
    refine shows_wrapped (a.render.toList ++ ' ' :: (Keyword.isKw.text.toList ++ ' ' ::
        Keyword.definedKw.text.toList)) hrank
      (.isDefined hla (Token.is_lexeme rfl) (Token.is_lexeme rfl) (by simp [hplain]))
      (by simp [render, Keyword.text]) fun kind tail => ?_
    exact (hprints kind _ (follows_blank _ _)).append
      (.between rfl Token.noConfusion (hopens _) (hdefined kind tail))
  | true =>
    refine shows_wrapped (a.render.toList ++ ' ' :: (Keyword.isKw.text.toList ++ ' ' ::
        (Keyword.notKw.text.toList ++ ' ' :: Keyword.definedKw.text.toList))) hrank
      (.isNotDefined hla (Token.is_lexeme rfl) (Token.is_lexeme rfl) (Token.is_lexeme rfl)
        (by simp [hplain]))
      (by simp [render, Keyword.text]) fun kind tail => ?_
    have hnot := (prints_keyword .notKw kind _ (follows_blank false _)).append
      ((hdefined kind tail).space_opens (hopens _))
    exact (hprints kind _ (follows_blank _ _)).append
      (.between rfl Token.noConfusion ((hopens _).append _) hnot)

theorem attempt_shows [Letters] {a : Expr} {s : Span} (ha : a.IsShown) : (attempt a s).IsShown := by
  obtain ⟨hopens, la, hla, hplain, hprints⟩ := ha
  have htext : (attempt a s).render.toList = a.render.toList ++ ['?'] := by simp [render]
  refine shows_plain rfl rfl (.attempt hla (Token.is_lexeme rfl) (by simp [hplain])) ?_ ?_
  · rw [htext]; exact hopens.append _
  · rw [htext]
    exact fun kind tail _ =>
      (hprints kind _ (.of_cons (by decide) (by decide) tail)).append (.mark rfl (by decide))

theorem follows_args (xs : Args) (plain : Bool) (tail : List Char) :
    Follows plain (xs.render.toList ++ tail) := by
  obtain ⟨items, s⟩ := xs
  simp only [Args.render, String.toList_append]
  exact .of_cons (by decide) (by decide) _

theorem call_shows [Letters] {f : Expr} {xs : Args} {s : Span} (hf : f.IsShown) (hnames : xs.NamesOk)
    (hxs : ∀ x ∈ xs.values, x.IsShown) : (call f xs s).IsShown := by
  obtain ⟨hopens, la, hla, hplain, hprints⟩ := hf
  obtain ⟨-, lb, hlb, hplain', hprints'⟩ := Args.shows hnames hxs
  have htext : (call f xs s).render.toList = f.render.toList ++ xs.render.toList := by simp [render]
  refine shows_plain rfl rfl (.call hla hlb (by simp [hplain, hplain'])) ?_ ?_
  · rw [htext]; exact hopens.append _
  · rw [htext]
    exact fun kind tail ht => (hprints kind _ (follows_args xs _ tail)).append (hprints' kind tail ht)

/-- Only an index joins a plain number. -/
theorem follows_key [Letters] {a : Expr} {k : Key} {s : Span} (hk : k.IsWritten)
    (h : (field a k s).isIndexedNumber = false) (tail : List Char) :
    Follows a.isPlainNumber ('.' :: k.render.toList ++ tail) := by
  refine ⟨fun c hc => by cases hc; decide, fun hplain => ?_⟩
  cases k with
  | index v s => rw [isIndexedNumber, hplain] at h; cases h
  | name i =>
    obtain ⟨c, rest, hcons, -⟩ := opens_word (show isWord i.name.toList = true from hk)
    have hword : isWord i.name.toList = true := hk
    rw [hcons, isWord, Bool.and_eq_true] at hword
    show Numeral.startsDigit (i.name.toList ++ tail) = false
    rw [hcons]
    exact isDigit_of_isIdentStart hword.1

theorem field_shows [Letters] {a : Expr} {k : Key} {s : Span} (ha : a.IsShown) (hk : k.IsWritten)
    (hnot : (field a k s).isIndexedNumber = false) : (field a k s).IsShown := by
  obtain ⟨hopens, la, hla, hplain, hprints⟩ := ha
  obtain ⟨l, hl, hplain', hlexes⟩ := k.prints hk
  have htext : (field a k s).render.toList = a.render.toList ++ '.' :: k.render.toList := by
    simp [render]
  refine shows_plain rfl hnot (.field hla (Token.is_lexeme rfl) hl (by simp [hplain, hplain'])) ?_ ?_
  · rw [htext]; exact hopens.append _
  · rw [htext]
    exact fun kind tail ht => (hprints kind _ (follows_key hk hnot tail)).append (hlexes kind tail ht)

/-- The item of a plain number is printed as a number. -/
theorem item_shows [Letters] {n : Number} {s t u : Span} {v : Nat} (hn : n.IsWritten)
    (hplain : n.raw.toList.all Numeral.isDigitOrBar = true) :
    (field (lit (.num n) s) (.index v t) u).IsShown := by
  have hshown := shown_of_plain (s := s) (t := t) (u := u) (v := v) hplain
  have hnot : (Literal.num (n.withFraction v)).isPlainNumber = false := by
    have hsame := (field (lit (.num n) s) (.index v t) u).isPlainNumber_shown
    rwa [hshown] at hsame
  have htext : (field (lit (.num n) s) (.index v t) u).render =
      (Literal.num (n.withFraction v)).render := by
    simp [render, Literal.render, Key.render, Number.withFraction, String.append_assoc]
  obtain ⟨hopens, ls, hls, hmarks, hprints⟩ :=
    Literal.shows (v := .num (n.withFraction v)) fun m hm => by
      cases hm
      exact hn.withFraction hplain v
  rw [hnot] at hprints
  unfold IsShown
  rw [hshown, htext]
  exact ⟨hopens, ls, .lit hls hmarks, hmarks, hprints⟩

theorem index_shows [Letters] {a i : Expr} {s : Span} (ha : a.IsShown) (hi : i.IsShown) :
    (index a i s).IsShown := by
  obtain ⟨hopens, la, hla, hplain, hprints⟩ := ha
  obtain ⟨-, lb, hlb, hplain', hprints'⟩ := hi
  have htext : (index a i s).render.toList = a.render.toList ++ '[' :: (i.render.toList ++ [']']) := by
    simp [render]
  refine shows_plain rfl rfl (.index hla (Token.is_lexeme rfl) hlb (Token.is_lexeme rfl)
    (by simp [hplain, hplain'])) ?_ ?_
  · rw [htext]; exact hopens.append _
  · rw [htext]
    exact fun kind tail _ => (hprints kind _ (.of_cons (by decide) (by decide) _)).append
      (.enclosed rfl rfl (by decide) (by decide)
        (hprints' kind _ (.of_cons (by decide) (by decide) tail)))

theorem array_shows [Letters] {es : List Expr} {s : Span} (h : ∀ x ∈ es, x.IsShown) :
    (array es s).IsShown := by
  obtain ⟨ls, hls, hplain, hprints⟩ := commas_print _ h
  have htext : (array es s).render.toList =
      '[' :: ((joinWith ", " (es.map render)).toList ++ [']']) := by
    simp [render, renderList_eq]
  refine shows_plain rfl rfl (.array (Token.is_lexeme rfl) hls (Token.is_lexeme rfl) (by simp [hplain])) ?_ ?_
  · rw [htext]; exact .of_sign (by decide)
  · rw [htext]
    exact fun kind tail _ => .enclosed rfl rfl (by decide) (by decide)
      (hprints kind _ (.of_cons (by decide) (by decide) tail))

theorem tuple_shows [Letters] {es : List Expr} {s : Span} (h : ∀ x ∈ es, x.IsShown) :
    (tuple es s).IsShown := by
  by_cases hone : ∃ x, es = [x]
  · -- A single item keeps the comma after it.
    obtain ⟨x, rfl⟩ := hone
    obtain ⟨-, ls, hls, hplain, hprints⟩ := h x List.mem_cons_self
    have htext : (tuple [x] s).render.toList = '(' :: ((x.render.toList ++ [',']) ++ [')']) := by
      simp [render, renderList]
    refine shows_plain rfl rfl (.tuple (Token.is_lexeme rfl) (.trailing hls (Token.is_lexeme rfl))
      (Token.is_lexeme rfl) (fun _ => rfl) (by simp [hplain])) ?_ ?_
    · rw [htext]; exact .of_sign (by decide)
    · rw [htext]
      exact fun kind tail _ => .enclosed rfl rfl (by decide) (by decide)
        ((hprints kind _ (.of_cons (by decide) (by decide) _)).append (.mark rfl (by decide)))
  · obtain ⟨ls, hls, hplain, hprints⟩ := commas_print _ h
    have hlength : es.length ≠ 1 := fun hlength => hone (List.length_eq_one_iff.1 hlength)
    have htext : (tuple es s).render.toList =
        '(' :: ((joinWith ", " (es.map render)).toList ++ [')']) := by
      simp [render, renderList_eq, hlength]
    refine shows_plain rfl rfl (.tuple (Token.is_lexeme rfl) hls (Token.is_lexeme rfl)
      (fun heq => absurd (by rwa [List.length_map] at heq) hlength) (by simp [hplain])) ?_ ?_
    · rw [htext]; exact .of_sign (by decide)
    · rw [htext]
      exact fun kind tail _ => .enclosed rfl rfl (by decide) (by decide)
        (hprints kind _ (.of_cons (by decide) (by decide) tail))

theorem group_shows [Letters] {a : Expr} {s : Span} (ha : a.IsShown) : (group a s).IsShown := by
  obtain ⟨-, la, hla, hplain, hprints⟩ := ha
  have htext : (group a s).render.toList = '(' :: (a.render.toList ++ [')']) := by simp
  refine shows_plain rfl rfl (.group (Token.is_lexeme rfl) hla (Token.is_lexeme rfl) (by simp [hplain])) ?_ ?_
  · rw [htext]; exact .of_sign (by decide)
  · rw [htext]
    exact fun kind tail _ => .enclosed rfl rfl (by decide) (by decide)
      (hprints kind _ (follows_paren _ tail))

end Expr

/-- The path of a macro call with its mark, before the arguments. -/
theorem Path.IsMacro.lexes [Letters] {p : Path} (hp : p.IsMacro) :
    ∃ ls, MacroSpelled (fun _ => Unmarked) p.global p.segments ls ∧ Unmarked ls ∧
      Opens (p.render.toList ++ ['!']) ∧
      ∀ kind tail, (∀ c ∈ tail.head?, c ≠ '=') →
        Lexes kind false (p.render.toList ++ ['!']) ls false tail := by
  obtain ⟨global, segments, s⟩ := p
  obtain ⟨before, last, hsegments, hnames, hlast⟩ := hp
  have hword : isWord last.name.toList = true := by
    rw [isPlainWord, Bool.and_eq_true] at hlast
    exact hlast.1
  have hmark : (ofText .macroName (last.name.toList ++ ['!'])).IsMark last.name := ⟨rfl, rfl⟩
  dsimp only at hsegments ⊢
  subst hsegments
  unfold Path.render
  dsimp only
  rw [Path.renderSegments_append]
  by_cases halone : global = false ∧ before = []
  · obtain ⟨rfl, rfl⟩ := halone
    have htext : Path.renderSegments false [] ++ Path.renderSegments false [last] = last.name := by
      simp [Path.renderSegments]
    rw [show (false || !([] : List Ident).isEmpty) = false from rfl, htext]
    exact ⟨_, .alone hmark, by simp, (opens_word hword).append _, fun kind tail ht => lexes_mark hlast ht⟩
  · have hsep : (global || !before.isEmpty) = true := by
      cases global <;> cases before <;> simp_all
    have htext : (Path.renderSegments global before ++ Path.renderSegments (global || !before.isEmpty)
        [last]).toList ++ ['!'] = (Path.renderSegments global before).toList ++
          ([':', ':'] ++ (last.name.toList ++ ['!'])) := by
      simp [hsep, Path.renderSegments]
    have hfront : ∃ ls, PathSpelled (fun _ => Unmarked) global before ls ∧ Unmarked ls ∧
        Prints false (Path.renderSegments global before).toList ls := by
      cases before with
      | nil =>
        cases global with
        | true => exact ⟨[], .absolute .nil, unmarked_nil, fun kind tail _ => .nil kind false tail⟩
        | false => exact absurd ⟨rfl, rfl⟩ halone
      | cons i more => exact (path_shows _ hnames (List.cons_ne_nil i more)).2
    obtain ⟨ls, hls, hplain, hprints⟩ := hfront
    rw [htext]
    refine ⟨_, .qualified hls (Token.is_lexeme rfl) hmark, by simp [hplain], ?_, fun kind tail ht => ?_⟩
    · cases before with
      | nil => exact .of_sign (by decide)
      | cons i more => exact (path_shows _ hnames (List.cons_ne_nil i more)).1.append _
    · have hsign : Lexes kind false [':', ':'] [Token.pathSep.lexeme] false
          ((last.name.toList ++ ['!']) ++ tail) := .mark rfl (by decide)
      exact (hprints kind _ (.of_cons (by decide) (by decide) _)).append
        (hsign.append (lexes_mark hlast ht))

namespace Expr

theorem macroCall_shows [Letters] {p : Path} {xs : Args} {s : Span} (hp : p.IsMacro) (hnames : xs.NamesOk)
    (hxs : ∀ x ∈ xs.values, x.IsShown) : (macroCall p xs s).IsShown := by
  obtain ⟨la, hla, hplain, hopens, hlexes⟩ := hp.lexes
  obtain ⟨-, lb, hlb, hplain', hprints'⟩ := Args.shows hnames hxs
  have htext : (macroCall p xs s).render.toList = (p.render.toList ++ ['!']) ++ xs.render.toList := by
    simp [render]
  refine shows_plain rfl rfl (.macroCall hla hlb (by simp [hplain, hplain'])) ?_ ?_
  · rw [htext]; exact hopens.append _
  · rw [htext]
    refine fun kind tail ht => (hlexes kind _ fun c hc heq => ?_).append (hprints' kind tail ht)
    have hnear := (follows_args xs false tail).near c hc
    rw [heq] at hnear
    exact absurd hnear (by decide)

/-- The printed text of a normal expression is scanned as a listing of what it shows. -/
theorem Normal.isShown [Letters] {e : Expr} (hn : e.Normal) : e.IsShown := by
  induction hn with
  | @mk e node children hpart =>
    cases e with
    | lit v s =>
      obtain ⟨hopens, ls, hls, hplain, hprints⟩ := v.shows (by rintro n rfl; exact node)
      exact shows_plain rfl rfl (.lit hls hplain) hopens hprints
    | var n s =>
      have hword := isWord_of_isName (show isName n = true from node)
      exact shows_plain rfl rfl (.var (l := wordLexeme n) ⟨rfl, rfl⟩ (by simp [wordLexeme]))
        (opens_word hword) (prints_word hword)
    | path p s =>
      have hne : p.segments ≠ [] := by
        rw [← List.length_pos_iff]
        have hlength := node.2
        split at hlength <;> omega
      obtain ⟨hopens, ls, hls, hplain, hprints⟩ := path_shows p.global node.1 hne
      exact shows_plain rfl rfl (.path hls hplain) hopens hprints
    | binary op a b s =>
      exact binary_shows (hpart a (by simp [Expr.children])) (hpart b (by simp [Expr.children]))
    | unary op a s => exact unary_shows (hpart a List.mem_cons_self)
    | ref a s => exact ref_shows (hpart a List.mem_cons_self)
    | attempt a s => exact attempt_shows (hpart a List.mem_cons_self)
    | call f xs s =>
      exact call_shows (hpart f List.mem_cons_self) node.2 fun x hx => hpart x (List.mem_cons_of_mem _ hx)
    | field a k s =>
      cases hindexed : (field a k s).isIndexedNumber with
      | false => exact field_shows (hpart a List.mem_cons_self) node.2 hindexed
      | true =>
        obtain ⟨n, s, v, t, u, heq, hplain⟩ := isIndexedNumber_eq_true hindexed
        cases heq
        exact item_shows (children _ List.mem_cons_self).node hplain
    | index a i s =>
      exact index_shows (hpart a (by simp [Expr.children])) (hpart i (by simp [Expr.children]))
    | range a b inclusive s =>
      exact range_shows (fun x hx => hpart x (by simp [Expr.children, Option.mem_def.1 hx]))
        (fun x hx => hpart x (by simp [Expr.children, Option.mem_def.1 hx]))
    | array es s => exact array_shows hpart
    | tuple es s => exact tuple_shows hpart
    | unit s =>
      have htext : (unit s).render.toList = '(' :: ([] ++ [')']) := by simp [render]
      refine shows_plain rfl rfl (.unit (Token.is_lexeme rfl) (Token.is_lexeme rfl) (by simp)) ?_ ?_
      · rw [htext]; exact .of_sign (by decide)
      · rw [htext]
        exact fun kind tail _ => .enclosed rfl rfl (by decide) (by decide) (.nil kind false _)
    | group a s => exact group_shows (hpart a List.mem_cons_self)
    | filter a fs s =>
      exact filter_shows (hpart a List.mem_cons_self) node.2.2
        fun x hx => hpart x (List.mem_cons_of_mem _ hx)
    | isDefined a n s => exact isDefined_shows (hpart a List.mem_cons_self)
    | macroCall p xs s => exact macroCall_shows node.1 node.2 hpart

end Expr

end Stencil
