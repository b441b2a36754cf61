/-
  Stmt — the parts of a statement are read back from their lexemes.

  In a statement an expression may be followed by the end of the tag, by the word `if`, or, in the
  parameters of a macro, by a comma or a parenthesis; a pattern by an equals sign or by the words `in` and
  `with`.  `ReadsAs item x ls` says that the lexemes `ls` are read as `x` up to the end of the tag, with
  every limit larger than their number.  The lemmas of this file put it together for the statements that
  are made of several parts; the keyword before them is `readsAs_stmt`.
-/
import Stencil.Proofs.Reader.Pattern

namespace Stencil

open Reader

/-- The tokens that may follow an expression in a statement. -/
def Token.afterExpr : List Token := [.endBlock, .keyword .ifKw, .comma, .rparen]

namespace Reader

variable {α β : Type} [Placed α] [Placed β] {ls : List Lexeme}

/-- The lexemes are read as `x` up to the end of the tag. -/
def ReadsAs (item : Nat → Reader α) (x : α) (ls : List Lexeme) : Prop :=
  ∀ (limit : Nat) (stop : Lexer.Stop) (c : Lexeme) (more : List Lexeme),
    ls.length < limit → c.token = .endBlock →
    item limit (bareFeed stop (ls ++ c :: more)) = .ok (bare x, bareFeed stop (c :: more))

theorem ReadsAs.map {item : Nat → Reader α} {x : α} (h : ReadsAs item x ls) {f : α → β}
    (hf : bare (f x) = f (bare x)) : ReadsAs (fun limit => f <$> item limit) (f x) ls := by
  intro limit stop c more hlength hc
  show (f <$> item limit) _ = _
  rw [map_of_ok (h limit stop c more hlength hc), hf]

/-- A keyword and what belongs to the statement that it begins. -/
theorem readsAs_stmt {k : Keyword} {body : Nat → Reader StmtKind}
    (hk : ∀ limit, stmtKind? limit k = some (body limit)) {kind : StmtKind} {s : Span}
    (h : ReadsAs body kind ls) : ReadsAs stmt ⟨kind, s⟩ ((Token.keyword k).lexeme :: ls) := by
  intro limit stop c more hlength hc
  rw [List.length_cons] at hlength
  have htoken : (bare (Token.keyword k).lexeme).token = .keyword k := rfl
  unfold stmt
  rw [List.cons_append, bind_of_ok next_bare]
  dsimp only
  rw [htoken]
  dsimp only
  rw [hk]
  dsimp only
  rw [bind_of_ok (h limit stop c more (by omega) hc), bind_of_ok last_bare]
  rfl

/-! ## Names and texts -/

theorem readsAs_ident [Letters] {i : Ident} (h : isName i.name = true) :
    ReadsAs (fun _ => ident) i [wordLexeme i.name] :=
  fun _ _ _ _ _ _ => ident_of_spelled i.spelled_wordLexeme h

theorem readsAs_ident? [Letters] {i : Ident} (h : isName i.name = true) :
    ReadsAs (fun _ => ident?) (some i) [wordLexeme i.name] := by
  intro limit stop c more hlength hc
  have htoken : (wordLexeme i.name).token.isName = true := isName_wordToken h
  show ident? _ = _
  unfold ident?
  rw [List.singleton_append, bind_of_ok peek_bare,
    if_pos (by rw [Option.any_some, token_bare]; exact htoken),
    map_of_ok (ident_of_spelled i.spelled_wordLexeme h)]
  rfl

theorem readsAs_ident?_none : ReadsAs (fun _ => ident?) none [] := by
  intro limit stop c more hlength hc
  show ident? _ = _
  unfold ident?
  rw [List.nil_append, bind_of_ok peek_bare,
    if_neg (by rw [Option.any_some, token_bare, hc]; decide)]
  rfl

theorem textLit_bare {t : TextLit} {q : Quoting} {l : Lexeme} (ht : l.token = .str)
    (hv : q.text t.value l.text) (stop : Lexer.Stop) (rest : List Lexeme) :
    textLit (bareFeed stop (l :: rest)) = .ok (bare t, bareFeed stop rest) := by
  unfold textLit
  rw [bind_of_ok next_bare]
  dsimp only
  rw [token_bare, if_pos ht, bind_of_ok (textOf_bare hv _)]
  rfl

theorem readsAs_textLit {t : TextLit} {q : Quoting} {l : Lexeme} (ht : l.token = .str)
    (hv : q.text t.value l.text) : ReadsAs (fun _ => textLit) t [l] :=
  fun _ stop c more _ _ => textLit_bare ht hv stop (c :: more)

theorem readsAs_importAs [Letters] {t : TextLit} {i : Ident} {q : Quoting} {l m : Lexeme} (ht : l.token = .str)
    (hv : q.text t.value l.text) (hm : m.Is (.keyword .asKw)) (hname : isName i.name = true) :
    ReadsAs (fun _ => importAs) (.importAs t i) [l, m, wordLexeme i.name] := by
  intro limit stop c more hlength hc
  show importAs _ = _
  unfold importAs
  rw [List.cons_append, List.cons_append, List.singleton_append, bind_of_ok (textLit_bare ht hv _ _),
    bind_of_ok (expect_of_eq hm.1), bind_of_ok (ident_of_spelled i.spelled_wordLexeme hname)]
  rfl

end Reader

/-! ## Expressions -/

/-- The lexemes are read as the expression wherever one stands in a statement. -/
def Expr.ReadOperand (e : Expr) (ls : List Lexeme) : Prop :=
  ∀ (limit : Nat) (stop : Lexer.Stop) (c : Lexeme) (more : List Lexeme),
    ls.length < limit → c.token ∈ Token.afterExpr →
    expr limit (bareFeed stop (ls ++ c :: more)) = .ok (bare e, bareFeed stop (c :: more))

/-- What is shown of an expression is an operand, and so ends before all that may follow it. -/
theorem Expr.Normal.readOperand [Letters] {e : Expr} (hn : e.Normal) {ls : List Lexeme}
    (h : e.shown.Listed ls) : e.shown.ReadOperand ls := by
  intro limit stop c more hlength hc
  have hall : ∀ t ∈ Token.afterExpr, (isSuffix t = false ∧ t ≠ .keyword .isKw ∧ t ≠ .pathSep) ∧
      (operator? t).isNone = true ∧ ∀ inclusive, t ≠ rangeToken inclusive := by
    decide
  obtain ⟨⟨hsuffix, htest, hpath⟩, hnone, hrange⟩ := hall c.token hc
  exact exprWithin_operand limit hn.shown (by rw [Expr.rank_shown]; decide) h hlength
    ⟨hsuffix, htest, hpath⟩ (Option.isNone_iff_eq_none.1 hnone) hrange

theorem Expr.ReadOperand.readsAs {e : Expr} {ls : List Lexeme} (h : e.ReadOperand ls) :
    ReadsAs expr e ls :=
  fun limit stop c more hlength hc => h limit stop c more hlength (by rw [hc]; decide)

/-- The lexemes of an expression after a sign or keyword, if there is one. -/
def ListedAfter (t : Token) : Option Expr → List Lexeme → Prop
  | none, ls => ls = []
  | some e, ls => ∃ m a, ls = m :: a ∧ m.Is t ∧ e.shown.Listed a

namespace ListedAfter

variable {t : Token} {o : Option Expr} {ls : List Lexeme}

theorem read [Letters] (h : ListedAfter t o ls) (hn : ∀ e ∈ o, e.Normal) (limit : Nat)
    (hlength : ls.length ≤ limit) {c : Lexeme} (hc : c.token ∈ Token.afterExpr) (hne : c.token ≠ t)
    (stop : Lexer.Stop) (more : List Lexeme) :
    after? t (expr limit) (bareFeed stop (ls ++ c :: more)) =
      .ok (bare (o.map Expr.shown), bareFeed stop (c :: more)) := by
  unfold after?
  cases o with
  | none =>
    obtain rfl : ls = [] := h
    rw [List.nil_append, bind_of_ok (eats_of_ne hne)]
    rfl
  | some e =>
    obtain ⟨m, a, rfl, hm, ha⟩ := h
    rw [List.length_cons] at hlength
    rw [List.cons_append, bind_of_ok (eats_of_eq hm.1), if_pos rfl,
      map_of_ok ((hn e rfl).readOperand ha limit stop c more (by omega) hc)]
    rfl

/-- What comes first is the sign, or what follows the whole. -/
theorem next (h : ListedAfter t o ls) (c : Lexeme) (more : List Lexeme) :
    ∃ l rest, ls ++ c :: more = l :: rest ∧ (l.token = t ∨ l = c) := by
  cases o with
  | none =>
    obtain rfl : ls = [] := h
    exact ⟨c, more, rfl, .inr rfl⟩
  | some e =>
    obtain ⟨m, a, rfl, hm, -⟩ := h
    exact ⟨m, a ++ c :: more, rfl, .inl hm.1⟩

end ListedAfter

/-! ## Conditions -/

namespace Reader

variable {ls : List Lexeme}

/-- An expression that does not begin with `let` is read as a condition. -/
theorem readsAs_cond_expr [Letters] {e : Expr} (hn : e.Normal) (hlet : e.firstToken ≠ .keyword .letKw)
    (h : e.shown.Listed ls) : ReadsAs cond (.expr e.shown) ls := by
  intro limit stop c more hlength hc
  have hread := (hn.readOperand h).readsAs limit stop c more hlength hc
  have hfirst := hn.firstToken_shown_ne (t := .keyword .letKw) (by decide) hlet
  obtain ⟨l, a, rfl, hl⟩ := h.head hn.shown
  rw [← hl] at hfirst
  unfold cond
  rw [List.cons_append, bind_of_ok (eats_of_ne hfirst), if_neg Bool.false_ne_true]
  rw [List.cons_append] at hread
  rw [bind_of_ok hread]
  rfl

theorem readsAs_cond_bind {p : Pattern} {v : Expr} {w m : Lexeme} {a b : List Lexeme}
    (hw : w.Is (.keyword .letKw)) (hp : p.ReadFull a) (hm : m.Is .eq) (hv : v.ReadOperand b) :
    ReadsAs cond (.bind p v) (w :: (a ++ m :: b)) := by
  intro limit stop c more hlength hc
  simp only [List.length_cons, List.length_append] at hlength
  have hpattern : pattern limit (bareFeed stop (a ++ m :: (b ++ c :: more))) =
      .ok (bare p, bareFeed stop (m :: (b ++ c :: more))) :=
    hp limit limit stop m _ (by omega) (by rw [hm.1]; decide)
  unfold cond
  rw [List.cons_append, List.append_assoc, List.cons_append, bind_of_ok (eats_of_eq hw.1), if_pos rfl,
    bind_of_ok hpattern, bind_of_ok (expect_of_eq hm.1),
    bind_of_ok (hv.readsAs limit stop c more (by omega) hc)]
  rfl

/-- The word `if` after `else` begins another condition. -/
theorem readsAs_elseIf {c : Cond} {m : Lexeme} (hm : m.Is (.keyword .ifKw)) (h : ReadsAs cond c ls) :
    ReadsAs elseBranch (.elseIf c) (m :: ls) := by
  intro limit stop c' more hlength hc
  rw [List.length_cons] at hlength
  have hcond : after? (.keyword .ifKw) (cond limit) (bareFeed stop (m :: ls ++ c' :: more)) =
      .ok (some (bare c), bareFeed stop (c' :: more)) := by
    unfold after?
    rw [List.cons_append, bind_of_ok (eats_of_eq hm.1), if_pos rfl,
      map_of_ok (h limit stop c' more (by omega) hc)]
  unfold elseBranch
  rw [bind_of_ok hcond]
  rfl

theorem readsAs_elseCond : ReadsAs elseBranch .elseCond [] := by
  intro limit stop c more hlength hc
  have hif : c.token ≠ .keyword .ifKw := by rw [hc]; decide
  have hcond : after? (.keyword .ifKw) (cond limit) (bareFeed stop (c :: more)) =
      .ok (none, bareFeed stop (c :: more)) := by
    unfold after?
    rw [bind_of_ok (eats_of_ne hif)]
    rfl
  unfold elseBranch
  rw [List.nil_append, bind_of_ok hcond]
  rfl

/-! ## Assignments and loops -/

theorem readsAs_assign [Letters] (word : LetWord) {p : Pattern} {o : Option Expr} {a b : List Lexeme}
    (hp : p.ReadFull a) (ho : ListedAfter .eq o b) (hn : ∀ e ∈ o, e.Normal) :
    ReadsAs (fun limit => assign limit word) (.assign word false p (o.map Expr.shown)) (a ++ b) ∧
      ∀ m : Lexeme, m.Is (.keyword .mutKw) → ReadsAs (fun limit => assign limit word)
        (.assign word true p (o.map Expr.shown)) (m :: (a ++ b)) := by
  -- The pattern and the value are read in the same way with and without the word `mut`.
  have hparts : ∀ (limit : Nat) (stop : Lexer.Stop) (c : Lexeme) (more : List Lexeme)
      (mutable : Bool), (a ++ b).length < limit → c.token = .endBlock →
      (do
        let p ← pattern limit
        return StmtKind.assign word mutable p (← after? .eq (expr limit)) : Reader StmtKind)
          (bareFeed stop (a ++ (b ++ c :: more))) =
        .ok (bare (StmtKind.assign word mutable p (o.map Expr.shown)), bareFeed stop (c :: more)) := by
    intro limit stop c more mutable hlength hc
    rw [List.length_append] at hlength
    have hpattern : pattern limit (bareFeed stop (a ++ (b ++ c :: more))) =
        .ok (bare p, bareFeed stop (b ++ c :: more)) := by
      obtain ⟨l, rest, hnext, hl⟩ := ho.next c more
      rw [hnext]
      refine hp limit limit stop l rest (by omega) ?_
      rcases hl with hl | rfl
      · rw [hl]; decide
      · rw [hc]; decide
    rw [bind_of_ok hpattern, bind_of_ok (ho.read hn limit (by omega) (by rw [hc]; decide)
      (by rw [hc]; decide) stop more)]
    rfl
  refine ⟨fun limit stop c more hlength hc => ?_, fun m hm limit stop c more hlength hc => ?_⟩
  · obtain ⟨l, a', rfl, hl⟩ := hp.head
    have hmut : l.token ≠ .keyword .mutKw := fun heq => hl (heq ▸ by decide)
    have hrest := hparts limit stop c more false hlength hc
    rw [List.append_assoc]
    show assign limit word _ = _
    unfold assign
    rw [List.cons_append] at hrest ⊢
    rw [bind_of_ok (eats_of_ne hmut)]
    exact hrest
  · rw [List.length_cons] at hlength
    show assign limit word _ = _
    unfold assign
    rw [List.cons_append, List.append_assoc, bind_of_ok (eats_of_eq hm.1)]
    exact hparts limit stop c more true (by omega) hc

theorem readsAs_forLoop [Letters] {p : Pattern} {e : Expr} {o : Option Expr} {m : Lexeme} {a b d : List Lexeme}
    (hp : p.ReadFull a) (hm : m.Is (.keyword .inKw)) (he : e.ReadOperand b)
    (ho : ListedAfter (.keyword .ifKw) o d) (hn : ∀ x ∈ o, x.Normal) :
    ReadsAs forLoop (.forLoop p e (o.map Expr.shown)) (a ++ m :: (b ++ d)) := by
  intro limit stop c more hlength hc
  simp only [List.length_append, List.length_cons] at hlength
  have hpattern : pattern limit (bareFeed stop (a ++ m :: (b ++ (d ++ c :: more)))) =
      .ok (bare p, bareFeed stop (m :: (b ++ (d ++ c :: more)))) :=
    hp limit limit stop m _ (by omega) (by rw [hm.1]; decide)
  have hiterable : expr limit (bareFeed stop (b ++ (d ++ c :: more))) =
      .ok (bare e, bareFeed stop (d ++ c :: more)) := by
    obtain ⟨l, rest, hnext, hl⟩ := ho.next c more
    rw [hnext]
    refine he limit stop l rest (by omega) ?_
    rcases hl with hl | rfl
    · rw [hl]; decide
    · rw [hc]; decide
  have hcond := ho.read hn limit (by omega) (c := c) (by rw [hc]; decide)
    (by rw [hc]; decide) stop more
  unfold forLoop
  rw [List.append_assoc, List.cons_append, List.append_assoc, bind_of_ok hpattern,
    bind_of_ok (expect_of_eq hm.1), bind_of_ok hiterable, bind_of_ok hcond]
  rfl

/-! ## Match arms -/

theorem readsAs_arm {p : Pattern} (h : p.ReadFull ls) : ReadsAs armPattern p ls := by
  intro limit stop c more hlength hc
  have hbase : pattern limit (bareFeed stop (ls ++ c :: more)) = .ok (bare p, bareFeed stop (c :: more)) :=
    h limit limit stop c more (Nat.le_of_lt hlength) (by rw [hc]; decide)
  have hwith : c.token ≠ .keyword .withKw := by rw [hc]; decide
  unfold armPattern
  rw [bind_of_ok hbase, bind_of_ok (eats_of_ne hwith)]
  rfl

theorem readsAs_destructured {p : Pattern} {ps : List Pattern} {trailing : Bool} {a : List Lexeme}
    {w o c : Lexeme} {s : Span} (ha : p.ReadFull a) (hw : w.Is (.keyword .withKw)) (ho : o.Is .lparen)
    (h : Commas Pattern.ReadFull ps trailing ls) (hc : c.Is .rparen) :
    ReadsAs armPattern (.destructured p ps s) (a ++ w :: o :: (ls ++ [c])) := by
  intro limit stop c' more hlength _
  simp only [List.length_append, List.length_cons, List.length_nil] at hlength
  have hbase : pattern limit (bareFeed stop (a ++ w :: o :: (ls ++ c :: c' :: more))) =
      .ok (bare p, bareFeed stop (w :: o :: (ls ++ c :: c' :: more))) :=
    ha limit limit stop w _ (by omega) (by rw [hw.1]; decide)
  have hparts : seq .rparen (pattern limit) (bareFeed stop (ls ++ c :: c' :: more)) =
      .ok (⟨bare ps, trailing, ⟨0, 0⟩⟩, bareFeed stop (c' :: more)) :=
    Pattern.list_read h (by decide) hc.1 limit limit (by omega) stop (c' :: more)
  have hclose : closerOf? (bare o).token = some .rparen := by rw [token_bare, ho.1]; rfl
  rw [List.append_assoc, List.cons_append, List.cons_append, List.append_assoc, List.singleton_append]
  unfold armPattern
  rw [bind_of_ok hbase, bind_of_ok (eats_of_eq hw.1), if_pos rfl, bind_of_ok next_bare]
  dsimp only
  rw [hclose]
  dsimp only
  rw [bind_of_ok hparts, Pattern.span_bare,
    show bare (Pattern.destructured p ps s) = .destructured (bare p) (bare ps) ⟨0, 0⟩ from
      Pattern.move_destructured _ p ps s]
  rfl

end Reader

/-! ## Macros, calls and filters -/

/-- The lexemes are read as the parameter of a macro. -/
def Param.ReadParam (p : Param) (ls : List Lexeme) : Prop :=
  (∃ l a, ls = l :: a ∧ l.token ≠ .rparen) ∧
  ∀ (limit : Nat) (stop : Lexer.Stop) (c : Lexeme) (more : List Lexeme),
    ls.length < limit → c.token = .comma ∨ c.token = .rparen →
    param limit (bareFeed stop (ls ++ c :: more)) = .ok (bare p, bareFeed stop (c :: more))

theorem wordToken_ne {s : String} {t : Token} (hident : t ≠ .ident) (hword : ∀ k, t ≠ .keyword k) :
    wordToken s ≠ t := by
  unfold wordToken
  split
  · exact (hword _).symm
  · exact hident.symm

theorem Param.readParam [Letters] {p : Param} {b : List Lexeme} (hn : p.Normal)
    (h : ListedAfter .eq p.default b) : (p.map Expr.shown).ReadParam (wordLexeme p.name.name :: b) := by
  refine ⟨⟨_, _, rfl, wordToken_ne Token.noConfusion fun _ => Token.noConfusion⟩,
    fun limit stop c more hlength hc => ?_⟩
  rw [List.length_cons] at hlength
  have hend : c.token ∈ Token.afterExpr ∧ c.token ≠ .eq := by
    rcases hc with hc | hc <;> rw [hc] <;> decide
  have hdefault := h.read hn.default limit (by omega) hend.1 hend.2 stop more
  unfold param
  rw [List.cons_append, bind_of_ok (ident_of_spelled p.name.spelled_wordLexeme hn.name),
    bind_of_ok hdefault]
  rfl

namespace Reader

variable {ls : List Lexeme}

theorem readsAs_macroDef [Letters] {i : Ident} {ps : List Param} {trailing : Bool} {o c : Lexeme}
    (hname : isName i.name = true) (ho : o.Is .lparen) (h : Commas Param.ReadParam ps trailing ls)
    (hc : c.Is .rparen) :
    ReadsAs macroDef (.macroDef i ps) (wordLexeme i.name :: o :: (ls ++ [c])) := by
  intro limit stop c' more hlength _
  simp only [List.length_append, List.length_cons, List.length_nil] at hlength
  have hparams : seq .rparen (param limit) (bareFeed stop (ls ++ c :: c' :: more)) =
      .ok (⟨bare ps, trailing, ⟨0, 0⟩⟩, bareFeed stop (c' :: more)) := by
    refine seq_bare ?_ ?_ (by decide) h.bounded hc.1
    · rintro p a c'' more' ⟨hp, -, hle⟩ hc''
      exact hp.2 limit stop c'' more' (by omega) hc''
    · rintro p a ⟨hp, -⟩
      exact hp.1
  unfold macroDef
  rw [List.cons_append, List.cons_append, List.append_assoc, List.singleton_append,
    bind_of_ok (ident_of_spelled i.spelled_wordLexeme hname), bind_of_ok (expect_of_eq ho.1),
    bind_of_ok hparams]
  rfl

/-- Without names to hand over, a call is read if it does not begin like a list of names. -/
theorem readsAs_callBlock {e : Expr} (h : e.ReadOperand ls) (hcall : e.isCall = true)
    (hparen : ∃ l a, ls = l :: a ∧ l.token ≠ .lparen) : ReadsAs callBlock (.callBlock [] e) ls := by
  intro limit stop c more hlength hc
  have hread := h.readsAs limit stop c more hlength hc
  obtain ⟨l, a, rfl, hl⟩ := hparen
  have hnone : after? .lparen (seq .rparen ident) (bareFeed stop (l :: a ++ c :: more)) =
      .ok (none, bareFeed stop (l :: a ++ c :: more)) := by
    unfold after?
    rw [List.cons_append, bind_of_ok (eats_of_ne hl)]
    rfl
  have hmoved : (bare e).isCall = true := by rw [← hcall]; exact isCall_move _ e
  unfold callBlock
  rw [bind_of_ok hnone, bind_of_ok hread, if_pos hmoved]
  rfl

theorem readsAs_callBlock_names [Letters] {bs : List Ident} {e : Expr} {trailing : Bool} {o c : Lexeme}
    {a : List Lexeme} (ho : o.Is .lparen)
    (hbs : Commas (fun i ls => ls = [wordLexeme i.name] ∧ isName i.name = true) bs trailing a)
    (hc : c.Is .rparen) (h : e.ReadOperand ls) (hcall : e.isCall = true) :
    ReadsAs callBlock (.callBlock bs e) (o :: (a ++ c :: ls)) := by
  intro limit stop c' more hlength hc'
  simp only [List.length_append, List.length_cons] at hlength
  have hnames : seq .rparen ident (bareFeed stop (a ++ c :: (ls ++ c' :: more))) =
      .ok (⟨bare bs, trailing, ⟨0, 0⟩⟩, bareFeed stop (ls ++ c' :: more)) := by
    refine seq_bare ?_ ?_ (by decide) hbs hc.1
    · rintro i _ c'' more' ⟨rfl, hname⟩ -
      exact ident_of_spelled i.spelled_wordLexeme hname
    · rintro i _ ⟨rfl, -⟩
      exact ⟨_, _, rfl, wordToken_ne Token.noConfusion fun _ => Token.noConfusion⟩
  have hmoved : (bare e).isCall = true := by rw [← hcall]; exact isCall_move _ e
  unfold callBlock after?
  rw [List.cons_append, List.append_assoc, List.cons_append, bind_of_ok
    (bind_of_ok (eats_of_eq ho.1) |>.trans (by rw [if_pos rfl]; exact map_of_ok hnames)),
    bind_of_ok (h.readsAs limit stop c' more (by omega) hc'), if_pos hmoved]
  rfl

theorem readsAs_filterBlock [Letters] {f : Filter} {fs : List Filter} {q : Quoting}
    {P : Span → List Lexeme → Prop} {a b : List Lexeme}
    (hf : f.SpelledBy P (Expr.Spelled q P) a) (hfs : FiltersSpelled P (Expr.Spelled q P) fs b)
    (hn : ∀ g ∈ f :: fs, g.Normal) : ReadsAs filterBlock (.filterBlock (f :: fs)) (a ++ b) := by
  intro limit stop c more hlength hc
  rw [List.length_append] at hlength
  obtain ⟨hfirst, hmore⟩ := List.forall_mem_cons.1 hn
  have hv : ReadsBack q P stop (expr limit) limit := exprWithin_readsBack limit limit
  have hparen : c.token ≠ .lparen := by rw [hc]; decide
  have hpipe : c.token ≠ .pipe := by rw [hc]; decide
  have hread : filter (expr limit) (bareFeed stop (a ++ (b ++ c :: more))) =
      .ok (bare f, bareFeed stop (b ++ c :: more)) := by
    obtain ⟨l, rest, hnext, hl⟩ := hfs.next hparen more
    rw [hnext]
    exact filter_bare hv hf hfirst.values hfirst.names (by omega) hl
  have hreads : many (filter? (expr limit)) (bareFeed stop (b ++ c :: more)) =
      .ok (bare fs, bareFeed stop (c :: more)) :=
    filters_bare hv hfs (fun g hg => (hmore g hg).values) (fun g hg => (hmore g hg).names) (by omega)
      hpipe hparen
  unfold filterBlock
  rw [List.append_assoc, bind_of_ok hread, bind_of_ok hreads]
  rfl

end Reader

end Stencil
