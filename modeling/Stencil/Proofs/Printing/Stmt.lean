/-
  Stmt — the printed text of a statement is scanned as lexemes that are read back.

  A statement is printed as its keyword and what belongs to it, so there is one lemma for a keyword that
  stands alone and one for a keyword with something after it (`shows_alone`, `shows_lead`); the parts are
  put together as in `Stencil.Proofs.Printing.Expr` and handed on to the lemmas of
  `Stencil.Proofs.Reader.Stmt`.

  One text is misread: a call without names to hand over, whose callee begins with a parenthesis.  The
  printer leaves the empty parentheses out, and what stands in those of the callee is taken for the names
  (`StmtKind.opensLikeBindings`).
-/
import Stencil.Proofs.Printing.Expr
import Stencil.Proofs.Printing.Pattern
import Stencil.Proofs.Reader.Stmt

namespace Stencil

open Lexeme Reader

variable [Letters]

/-! ## Parts of statements -/

theorem Shows.weaken {plain : Bool} {R : List Lexeme → Prop} {cs : List Char} (h : Shows plain R cs) :
    Shows true R cs := by
  obtain ⟨hopens, ls, hls, hplain, hprints⟩ := h
  exact ⟨hopens, ls, hls, hplain, hprints.weaken⟩

theorem Shows.imp {plain : Bool} {R S : List Lexeme → Prop} {cs : List Char} (h : Shows plain R cs)
    (himp : ∀ ls, R ls → S ls) : Shows plain S cs := by
  obtain ⟨hopens, ls, hls, hplain, hprints⟩ := h
  exact ⟨hopens, ls, himp ls hls, hplain, hprints⟩

theorem Ident.shows {i : Ident} (h : isName i.name = true) :
    Shows false (fun ls => ls = [wordLexeme i.name]) i.name.toList := by
  have hword := isWord_of_isName h
  exact ⟨opens_word hword, _, rfl, by simp [wordLexeme], prints_word hword⟩

theorem TextLit.shows (t : TextLit) :
    Shows false (fun ls => ∃ l, ls = [l] ∧ l.token = .str ∧ Quoting.printed.text t.value l.text)
      t.render.toList := by
  refine (Literal.shows (v := .str t.value) nofun).imp fun ls hls => ?_
  cases hls with
  | str ht hv => exact ⟨_, rfl, ht, hv⟩

/-- A part that may be left out, after its sign or keyword. -/
theorem after_print {t : Token} {sign : List Char} (hs : t.sign? = some sign) (hdot : t ≠ .dot)
    (lead : String) (hlead : lead.toList = ' ' :: (sign ++ [' '])) {o : Option Expr}
    (hn : ∀ e ∈ o, e.Normal) :
    ∃ ls, ListedAfter t o ls ∧ Unmarked ls ∧ Prints true (renderAfter lead Expr.render o).toList ls := by
  cases o with
  | none => exact ⟨[], rfl, unmarked_nil, fun kind tail _ => .nil kind false tail⟩
  | some e =>
    obtain ⟨hopens, ls, hls, hplain, hprints⟩ := (hn e rfl).isShown
    have htext : (renderAfter lead Expr.render (some e)).toList =
        ' ' :: (sign ++ ' ' :: e.render.toList) := by
      simp [renderAfter, hlead]
    rw [htext]
    exact ⟨_, ⟨_, _, rfl, Token.is_lexeme (by rw [hs]; rfl), hls⟩, by simp [hplain],
      fun kind tail ht => .between hs hdot hopens (hprints kind tail ht.of_true)⟩

omit [Letters] in
/-- What follows a part that may be left out may follow what stands before it. -/
theorem follows_after {lead : String} {cs : List Char} (hlead : lead.toList = ' ' :: cs)
    (o : Option Expr) {plain : Bool} {tail : List Char} (h : Follows true tail) :
    Follows plain ((renderAfter lead Expr.render o).toList ++ tail) := by
  cases o with
  | none => exact h.of_true
  | some e =>
    have htext : (renderAfter lead Expr.render (some e)).toList = ' ' :: (cs ++ e.render.toList) := by
      simp [renderAfter, hlead]
    rw [htext]
    exact .of_cons (by decide) (by decide) _

theorem Cond.Normal.shows {c : Cond} (hn : c.Normal) :
    Shows true (ReadsAs cond (c.mapParts Expr.shown Pattern.flatten)) c.render.toList := by
  cases c with
  | expr e =>
    obtain ⟨hopens, ls, hls, hplain, hprints⟩ := hn.1.isShown
    exact ⟨hopens, ls, readsAs_cond_expr hn.1 hn.2 hls, hplain, hprints.weaken⟩
  | bind p v =>
    obtain ⟨hopens, a, ha, hplain, hprints⟩ := hn.1.shows
    obtain ⟨hopens', b, hb, hplain', hprints'⟩ := hn.2.isShown
    have htext : (Cond.bind p v).render.toList =
        Keyword.letKw.text.toList ++ ' ' :: (p.render.toList ++ ' ' :: (['='] ++ ' ' :: v.render.toList)) := by
      simp [Cond.render, Keyword.text]
    rw [htext]
    refine ⟨(opens_word (Keyword.isWord_text _)).append _, _,
      readsAs_cond_bind (Token.is_lexeme rfl) ha (Token.is_lexeme rfl) (hn.2.readOperand hb),
      by simp [hplain, hplain'], fun kind tail ht => ?_⟩
    have hvalue : Lexes kind false (' ' :: (['='] ++ ' ' :: v.render.toList)) (Token.eq.lexeme :: b)
        false tail := .between rfl Token.noConfusion hopens' (hprints' kind tail ht.of_true)
    have hboth := (hprints kind _ (.of_cons (by decide) (by decide) _)).append hvalue
    exact (prints_keyword .letKw kind _ (.of_cons (by decide) (by decide) _)).append
      (hboth.space_opens (hopens.append _))

theorem Pattern.ArmNormal.shows {p : Pattern} (hn : p.ArmNormal) :
    Shows true (ReadsAs armPattern p.flatten) p.render.toList := by
  by_cases hdestructured : ∃ base parts s, p = .destructured base parts s
  · obtain ⟨base, parts, s, rfl⟩ := hdestructured
    obtain ⟨hbase, hparts⟩ := hn
    obtain ⟨hopens, a, ha, hplain, hprints⟩ := hbase.shows
    obtain ⟨ls, hls, hplain', hprints'⟩ := Pattern.list_print fun q hq => (hparts q hq).shows
    have htext : (Pattern.destructured base parts s).render.toList =
        base.render.toList ++ ' ' :: (Keyword.withKw.text.toList ++
          ' ' :: '(' :: ((Pattern.renderList ", " parts).toList ++ [')'])) := by
      simp [Pattern.render, Keyword.text]
    rw [htext]
    refine ⟨hopens.append _, _, readsAs_destructured ha (Token.is_lexeme (t := .keyword .withKw) rfl)
      (Token.is_lexeme rfl) hls (Token.is_lexeme rfl), by simp [hplain, hplain'], fun kind tail _ => ?_⟩
    have hlist := hprints' kind (')' :: tail) (.of_cons (by decide) (by decide) tail)
    exact (hprints kind _ (.of_cons (by decide) (by decide) _)).append
      (.between rfl Token.noConfusion (.of_sign (by decide))
        (.enclosed rfl rfl (by decide) (by decide) hlist))
  · have hnormal : p.Normal := by
      cases p with
      | destructured base parts s => exact absurd ⟨_, _, _, rfl⟩ hdestructured
      | _ => exact hn
    exact hnormal.shows.imp fun ls hls => readsAs_arm hls

theorem Param.Normal.shows {p : Param} (hn : p.Normal) :
    Shows true (Param.ReadParam (p.map Expr.shown)) p.render.toList := by
  have hword := isWord_of_isName hn.name
  obtain ⟨ls, hls, hplain, hprints⟩ := after_print (t := .eq) rfl Token.noConfusion " = " rfl
    hn.default
  have htext : p.render.toList = p.name.name.toList ++ (renderAfter " = " Expr.render p.default).toList := by
    simp [Param.render]
  rw [htext]
  exact ⟨(opens_word hword).append _, _, Param.readParam hn hls, by simp [wordLexeme, hplain],
    fun kind tail ht => (prints_word hword kind _ (follows_after rfl p.default ht)).append
      (hprints kind tail ht)⟩

omit [Letters] in
theorem Filter.joinWith_render (f : Filter) (fs : List Filter) :
    joinWith " | " ((f :: fs).map Filter.render) = f.render ++ Filter.renderChain fs := by
  induction fs generalizing f with
  | nil => simp [joinWith, Filter.renderChain]
  | cons g fs ih =>
    show f.render ++ " | " ++ joinWith " | " ((g :: fs).map Filter.render) = _
    rw [ih g, Filter.renderChain]
    simp [String.append_assoc]

theorem Filter.Normal.shown {f : Filter} (hn : f.Normal) : (f.map Expr.shown).Normal := by
  refine ⟨hn.names.map _, fun x hx => ?_⟩
  rw [Filter.values_map] at hx
  obtain ⟨y, hy, rfl⟩ := List.mem_map.1 hx
  exact (hn.values y hy).shown

/-! ## Statements -/

namespace StmtKind

/-- The text of the statement is scanned as lexemes that are read as what it shows. -/
def IsShown (k : StmtKind) : Prop := Shows true (ReadsAs stmt ⟨k.shown, ⟨0, 0⟩⟩) k.render.toList

/-- Whether the text of the statement begins like a call with names to hand over and is none. -/
def opensLikeBindings : StmtKind → Bool
  | callBlock [] e => e.firstToken == .lparen
  | _ => false

variable {k : Keyword} {kind : StmtKind} {body : Nat → Reader StmtKind}

attribute [local simp] render Keyword.text

theorem shows_alone (hk : ∀ limit, stmtKind? limit k = some (body limit))
    (htext : kind.render = k.text) (h : ReadsAs body kind.shown []) : kind.IsShown := by
  unfold IsShown
  rw [htext]
  exact ⟨opens_word (Keyword.isWord_text k), _, readsAs_stmt hk h, by simp, (prints_keyword k).weaken⟩

theorem shows_lead (cs : List Char) (hk : ∀ limit, stmtKind? limit k = some (body limit))
    (htext : kind.render.toList = k.text.toList ++ ' ' :: cs)
    (h : Shows true (ReadsAs body kind.shown) cs) : kind.IsShown := by
  obtain ⟨hopens, ls, hls, hplain, hprints⟩ := h
  unfold IsShown
  rw [htext]
  refine ⟨(opens_word (Keyword.isWord_text k)).append _, _, readsAs_stmt hk hls, by simp [hplain],
    fun kind tail ht => ?_⟩
  exact (prints_keyword k kind _ (.of_cons (by decide) (by decide) _)).append
    ((hprints kind tail ht).space_opens hopens)

/-- A statement that is nothing but its keyword. -/
theorem shows_word (hk : ∀ limit, (stmtKind? limit k : Option (Reader StmtKind)) = some (pure kind)) (htext : kind.render = k.text)
    (hshown : kind.shown = kind) (hbare : bare kind = kind) : kind.IsShown := by
  have hread : ReadsAs (fun _ => pure kind) kind.shown [] := by
    intro limit stop c more _ _
    rw [hshown, hbare]
    rfl
  exact shows_alone hk htext hread

/-- The end of a block or macro, with or without its name. -/
theorem shows_end {f : Option Ident → StmtKind} {n : Option Ident}
    (hk : ∀ limit, (stmtKind? limit k : Option (Reader StmtKind)) = some (f <$> ident?))
    (htext : ∀ n, (f n).render = k.text ++ renderAfter " " Ident.name n)
    (hshown : ∀ n, (f n).shown = f n) (hbare : ∀ n, bare (f n) = f (bare n))
    (hn : ∀ i ∈ n, isName i.name = true) : (f n).IsShown := by
  cases n with
  | none =>
    refine shows_alone hk ?_ ?_
    · rw [htext]
      simp [renderAfter]
    · rw [hshown]
      exact readsAs_ident?_none.map (hbare none)
  | some i =>
    refine shows_lead i.name.toList hk ?_ ((Ident.shows (hn i rfl)).weaken.imp fun ls hls => ?_)
    · rw [htext]
      simp [renderAfter]
    · rw [hshown, hls]
      exact (readsAs_ident? (hn i rfl)).map (hbare (some i))

/-! ## Statements of several parts -/

theorem importAs_shows {t : TextLit} {i : Ident} (hname : isName i.name = true) :
    (importAs t i).IsShown := by
  obtain ⟨hopens, _, ⟨l, rfl, ht, hv⟩, hplain, hprints⟩ := t.shows
  obtain ⟨hopens', _, rfl, hplain', hprints'⟩ := Ident.shows hname
  refine shows_lead (k := .importKw)
    (t.render.toList ++ ' ' :: (Keyword.asKw.text.toList ++ ' ' :: i.name.toList)) (fun _ => rfl)
    (by simp) ⟨hopens.append _, [l] ++ (Token.keyword .asKw).lexeme ::
      [wordLexeme i.name], readsAs_importAs ht hv (Token.is_lexeme rfl) hname,
      unmarked_append.2 ⟨hplain, unmarked_cons.2 ⟨rfl, hplain'⟩⟩, fun kind tail ht => ?_⟩
  exact (hprints kind _ (.of_cons (by decide) (by decide) _)).append
    (.between rfl Token.noConfusion hopens' (hprints' kind tail ht.of_true))

theorem assign_shows {word : LetWord} {mutable : Bool} {p : Pattern} {o : Option Expr}
    (hp : p.Normal) (hn : ∀ e ∈ o, e.Normal) : (assign word mutable p o).IsShown := by
  obtain ⟨hopens, a, ha, hplain, hprints⟩ := hp.shows
  obtain ⟨b, hb, hplain', hprints'⟩ := after_print (t := .eq) rfl Token.noConfusion " = " rfl hn
  obtain ⟨hread, hmut⟩ := readsAs_assign word ha hb hn
  let rest := p.render.toList ++ (renderAfter " = " Expr.render o).toList
  have hrest : ∀ kind tail, Follows true tail → Lexes kind false rest (a ++ b) false tail :=
    fun kind tail ht => (hprints kind _ (follows_after rfl o ht)).append (hprints' kind tail ht)
  let k : Keyword := match word with
    | .letWord => .letKw
    | .setWord => .setKw
  have hk : ∀ limit, (stmtKind? limit k : Option (Reader StmtKind)) = some (Reader.assign limit word) := by
    intro limit
    cases word <;> rfl
  cases mutable with
  | false =>
    refine shows_lead rest hk ?_ ⟨hopens.append _, _, hread, by simp [hplain, hplain'], hrest⟩
    cases word <;> simp [LetWord.lead, k, rest]
  | true =>
    refine shows_lead (Keyword.mutKw.text.toList ++ ' ' :: rest) hk ?_
      ⟨(opens_word (Keyword.isWord_text _)).append _, _, hmut _ (Token.is_lexeme rfl),
        by simp [hplain, hplain'], fun kind tail ht => ?_⟩
    · cases word <;> simp [LetWord.lead, k, rest]
    · exact (prints_keyword .mutKw kind _ (.of_cons (by decide) (by decide) _)).append
        ((hrest kind tail ht).space_opens (hopens.append _))

theorem forLoop_shows {p : Pattern} {e : Expr} {o : Option Expr} (hp : p.Normal) (he : e.Normal)
    (hn : ∀ x ∈ o, x.Normal) : (forLoop p e o).IsShown := by
  obtain ⟨hopens, a, ha, hplain, hprints⟩ := hp.shows
  obtain ⟨hopens', b, hb, hplain', hprints'⟩ := he.isShown
  obtain ⟨d, hd, hplain'', hprints''⟩ :=
    after_print (t := .keyword .ifKw) rfl Token.noConfusion " if " rfl hn
  refine shows_lead (k := .forKw) (p.render.toList ++ ' ' :: (Keyword.inKw.text.toList ++
      ' ' :: (e.render.toList ++ (renderAfter " if " Expr.render o).toList))) (fun _ => rfl)
    (by simp) ⟨hopens.append _, _,
      readsAs_forLoop ha (Token.is_lexeme rfl) (he.readOperand hb) hd hn,
      by simp [hplain, hplain', hplain''], fun kind tail ht => ?_⟩
  exact (hprints kind _ (.of_cons (by decide) (by decide) _)).append
    (.between rfl Token.noConfusion (hopens'.append _)
      ((hprints' kind _ (follows_after rfl o ht)).append (hprints'' kind tail ht)))

theorem elseIf_shows {c : Cond} (hn : c.Normal) : (elseIf c).IsShown := by
  obtain ⟨hopens, ls, hls, hplain, hprints⟩ := hn.shows
  refine shows_lead (k := .elseKw) (Keyword.ifKw.text.toList ++ ' ' :: c.render.toList) (fun _ => rfl)
    (by simp) ⟨(opens_word (Keyword.isWord_text _)).append _,
      (Token.keyword .ifKw).lexeme :: ls, readsAs_elseIf (Token.is_lexeme rfl) hls, by simp [hplain],
      fun kind tail ht => ?_⟩
  exact (prints_keyword .ifKw kind _ (.of_cons (by decide) (by decide) _)).append
    ((hprints kind tail ht).space_opens hopens)

theorem macroDef_shows {i : Ident} {ps : List Param} (hname : isName i.name = true)
    (hn : ∀ p ∈ ps, p.Normal) : (macroDef i ps).IsShown := by
  have hword := isWord_of_isName hname
  obtain ⟨ls, hls, hplain, hprints⟩ := commas_print (fun _ => true) fun p hp => (hn p hp).shows
  refine shows_lead (k := .macroKw)
    (i.name.toList ++ '(' :: ((joinWith ", " (ps.map Param.render)).toList ++ [')'])) (fun _ => rfl)
    (by simp) ⟨(opens_word hword).append _, _,
      readsAs_macroDef hname (Token.is_lexeme rfl) hls (Token.is_lexeme rfl),
      by simp [wordLexeme, hplain], fun kind tail _ => ?_⟩
  have hparams : Lexes kind false ('(' :: ((joinWith ", " (ps.map Param.render)).toList ++ [')']))
      (Token.lparen.lexeme :: (ls ++ [Token.rparen.lexeme])) false tail :=
    .enclosed rfl rfl (by decide) (by decide) (hprints kind _ (.of_cons (by decide) (by decide) tail))
  exact (prints_word hword kind _ (.of_cons (by decide) (by decide) _)).append hparams

theorem callBlock_shows {bs : List Ident} {e : Expr} (hbs : ∀ i ∈ bs, isName i.name = true)
    (he : e.Normal) (hcall : e.isCall = true) (h : (callBlock bs e).opensLikeBindings = false) :
    (callBlock bs e).IsShown := by
  obtain ⟨f, xs, s, rfl⟩ : ∃ f xs s, e = .call f xs s := by
    cases e with
    | call f xs s => exact ⟨f, xs, s, rfl⟩
    | _ => cases hcall
  obtain ⟨hopens, ls, hls, hplain, hprints⟩ := he.isShown
  have hshown : (Expr.call f xs s).shown.isCall = true := by
    rw [Expr.shown_of_eq_false rfl rfl]
    rfl
  cases bs with
  | nil =>
    refine shows_lead (k := .callKw) (Expr.call f xs s).render.toList (fun _ => rfl)
      (by simp [renderBindings]) ⟨hopens, ls,
        readsAs_callBlock (he.readOperand hls) hshown ?_, hplain, hprints.weaken⟩
    obtain ⟨l, a, rfl, hl⟩ := hls.head he.shown
    rw [he.firstToken_shown_of_rank rfl] at hl
    exact ⟨l, a, rfl, fun hparen => beq_eq_false_iff_ne.1 h (hl ▸ hparen)⟩
  | cons i bs =>
    have hnames : ∀ x ∈ i :: bs, Shows false
        (fun ls => ls = [wordLexeme x.name] ∧ isName x.name = true) x.name.toList :=
      fun x hx => (Ident.shows (hbs x hx)).imp fun _ hls => ⟨hls, hbs x hx⟩
    obtain ⟨a, ha, hplain', hprints'⟩ := commas_print (g := id)
      (R := fun (x : Ident) ls => ls = [wordLexeme x.name] ∧ isName x.name = true) _ hnames
    rw [List.map_id] at ha
    refine shows_lead (k := .callKw)
      (('(' :: ((joinWith ", " ((i :: bs).map (·.name))).toList ++ [')'])) ++
        ' ' :: (Expr.call f xs s).render.toList) (fun _ => rfl)
      (by simp [renderBindings]) ⟨.of_sign (by decide),
        (Token.lparen.lexeme :: (a ++ [Token.rparen.lexeme])) ++ ls, ?_, by simp [hplain, hplain'],
        fun kind tail ht => ?_⟩
    · rw [List.cons_append, List.append_assoc]
      exact readsAs_callBlock_names (Token.is_lexeme rfl) ha (Token.is_lexeme rfl)
        (he.readOperand hls) hshown
    · exact Lexes.append (.enclosed rfl rfl (by decide) (by decide)
        (hprints' kind _ (.of_cons (by decide) (by decide) _)))
        ((hprints kind tail ht.of_true).space_opens hopens)

theorem filterBlock_shows {fs : List Filter} (hne : fs ≠ []) (hn : ∀ f ∈ fs, f.Normal) :
    (filterBlock fs).IsShown := by
  obtain ⟨f, fs, rfl⟩ := List.exists_cons_of_ne_nil hne
  obtain ⟨hfirst, hmore⟩ := List.forall_mem_cons.1 hn
  obtain ⟨hopens, a, ha, hplain, hprints⟩ :=
    Filter.shows hfirst.names fun x hx => (hfirst.values x hx).isShown
  obtain ⟨b, hb, hplain', hprints'⟩ := filters_print (fun g hg => (hmore g hg).names) fun x hx => by
    obtain ⟨g, hg, hx⟩ := List.mem_flatMap.1 hx
    exact ((hmore g hg).values x hx).isShown
  have hshown : ∀ g ∈ (f :: fs).map (Filter.map Expr.shown), g.Normal := by
    intro g hg
    obtain ⟨g, hmem, rfl⟩ := List.mem_map.1 hg
    exact (hn g hmem).shown
  refine shows_lead (k := .filterKw) (f.render.toList ++ (Filter.renderChain fs).toList)
    (fun _ => rfl) ?_ ⟨hopens.append _, _,
      readsAs_filterBlock ha hb hshown, by simp [hplain, hplain'], fun kind tail ht => ?_⟩
  · rw [render, Filter.joinWith_render]
    simp
  · exact (hprints kind _ (Filter.follows_chain fs ht)).append (hprints' kind tail ht)

/-! ## All statements -/

/-- The printed text of a normal statement is scanned as lexemes that are read as what it shows. -/
theorem Normal.isShown (hn : kind.Normal) (h : kind.opensLikeBindings = false) : kind.IsShown := by
  cases kind with
  | block n =>
    exact shows_lead (k := .blockKw) _ (fun _ => rfl) (by simp)
      ((Ident.shows hn).weaken.imp fun ls hls => hls ▸ (readsAs_ident hn).map rfl)
  | endBlock n => exact shows_end (k := .endBlock) (fun _ => rfl) (fun _ => rfl) (fun _ => rfl) (fun _ => rfl) hn
  | endMacro n => exact shows_end (k := .endMacro) (fun _ => rfl) (fun _ => rfl) (fun _ => rfl) (fun _ => rfl) hn
  | extendFrom t =>
    exact shows_lead (k := .extendsKw) _ (fun _ => rfl) (by simp)
      (t.shows.weaken.imp fun ls ⟨l, hls, ht, hv⟩ => hls ▸ (readsAs_textLit ht hv).map rfl)
  | includeFrom t =>
    exact shows_lead (k := .includeKw) _ (fun _ => rfl) (by simp)
      (t.shows.weaken.imp fun ls ⟨l, hls, ht, hv⟩ => hls ▸ (readsAs_textLit ht hv).map rfl)
  | importAs t n => exact importAs_shows hn
  | assign word mutable p v => exact assign_shows hn.1 hn.2
  | forLoop p e c => exact forLoop_shows hn.1 hn.2.1 hn.2.2
  | ifCond c =>
    exact shows_lead (k := .ifKw) _ (fun _ => rfl) (by simp)
      (hn.shows.imp fun ls hls => hls.map rfl)
  | elseIf c => exact elseIf_shows hn
  | elseCond => exact shows_alone (k := .elseKw) (fun _ => rfl) rfl readsAs_elseCond
  | matchOn e =>
    exact shows_lead (k := .matchKw) _ (fun _ => rfl) (by simp)
      (hn.isShown.weaken.imp fun ls hls => (hn.readOperand hls).readsAs.map rfl)
  | whenArm p =>
    exact shows_lead (k := .whenKw) _ (fun _ => rfl) (by simp)
      (hn.shows.imp fun ls hls => hls.map rfl)
  | macroDef n ps => exact macroDef_shows hn.1 hn.2
  | callBlock bs e => exact callBlock_shows hn.1 hn.2.1 hn.2.2 h
  | filterBlock fs => exact filterBlock_shows hn.1 hn.2
  | endFor => exact shows_word (k := .endFor) (fun _ => rfl) rfl rfl rfl
  | breakLoop => exact shows_word (k := .breakKw) (fun _ => rfl) rfl rfl rfl
  | continueLoop => exact shows_word (k := .continueKw) (fun _ => rfl) rfl rfl rfl
  | endIf => exact shows_word (k := .endIf) (fun _ => rfl) rfl rfl rfl
  | endMatch => exact shows_word (k := .endMatch) (fun _ => rfl) rfl rfl rfl
  | endWhen => exact shows_word (k := .endWhen) (fun _ => rfl) rfl rfl rfl
  | endCall => exact shows_word (k := .endCall) (fun _ => rfl) rfl rfl rfl
  | endFilter => exact shows_word (k := .endFilter) (fun _ => rfl) rfl rfl rfl
  | raw => exact shows_word (k := .rawKw) (fun _ => rfl) rfl rfl rfl
  | endRaw => exact shows_word (k := .endRaw) (fun _ => rfl) rfl rfl rfl

end StmtKind

end Stencil
