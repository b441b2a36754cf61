/-
  Normal — patterns and statements as they come out of a tag.

  For patterns, `Pattern.Normal` plays the part that `Expr.Normal` plays for expressions: it says that
  the names and numbers in a pattern can be written at all, and that the tree has the shape that is
  given to what was read.  A name that stands alone is a binding and not a path, an underscore is never
  a name, alternatives are at least two, and nothing but the pattern of a match arm is taken apart by a
  list after it.  A statement is normal if its names, patterns and expressions are, and its parts are
  where the grammar has them.

  Whatever is read as a pattern or a statement is normal, and so is every statement of a template
  (`Template.stmt_normal`).
-/
import Stencil.Proofs.Limit.Height
import Stencil.Proofs.Reader.Yields
import Stencil.Proofs.Template.Exprs
import Stencil.Proofs.Template.Extent

namespace Stencil

variable [Letters]

/-! ## Normal patterns -/

/-- The path that a pattern begins with.  An underscore that stands first would be a pattern of its
    own. -/
structure Path.IsPattern (p : Path) : Prop where
  names : ∀ i ∈ p.segments, isName i.name = true
  ne_nil : p.segments ≠ []
  first : p.global = false → ∀ i ∈ p.segments.head?, i.name ≠ "_"

/-- The name of the field. -/
def FieldPattern.name? : FieldPattern → Option Ident
  | field n _ => some n
  | rest _ => none

/-- What a node asks of what is written in it. -/
def Pattern.NodeNormal : Pattern → Prop
  | lit v _ => ∀ n, v = .num n → n.IsWritten
  | ident n _ => isName n = true ∧ n ≠ "_"
  | path p _ => p.IsPattern ∧ (p.global = false → p.segments.length ≠ 1)
  | tupleStruct p _ _ => p.IsPattern
  | struct p fs _ => p.IsPattern ∧ ∀ f ∈ fs, ∀ n ∈ f.name?, isName n.name = true
  | alternatives ps _ => 2 ≤ ps.length
  | destructured .. => False
  | placeholder _ | rest _ | tuple .. | slice .. => True

/-- Every node of the tree is normal. -/
inductive Pattern.Normal : Pattern → Prop
  | mk {p : Pattern} (node : p.NodeNormal) (children : ∀ c ∈ p.children, Normal c) : Normal p

/-- The pattern of a match arm, which may be taken apart by a list after it. -/
def Pattern.ArmNormal : Pattern → Prop
  | destructured base parts _ => base.Normal ∧ ∀ p ∈ parts, p.Normal
  | p => p.Normal

theorem Pattern.Normal.arm {p : Pattern} (h : p.Normal) : p.ArmNormal := by
  cases p with
  | destructured base parts s =>
    cases h with
    | mk node children => exact node.elim
  | _ => exact h

/-! ## Normal statements -/

/-- A condition that is an expression does not begin like the other kind. -/
def Cond.Normal : Cond → Prop
  | expr c => c.Normal ∧ c.firstToken ≠ .keyword .letKw
  | bind p v => p.Normal ∧ v.Normal

structure Param.Normal (p : Param) : Prop where
  name : isName p.name.name = true
  default : ∀ e ∈ p.default, e.Normal

structure Filter.Normal (f : Filter) : Prop where
  names : f.NamesOk
  values : ∀ x ∈ f.values, x.Normal

/-- The parts of the statement are normal. -/
def StmtKind.Normal : StmtKind → Prop
  | block n | importAs _ n => isName n.name = true
  | endBlock n | endMacro n => ∀ i ∈ n, isName i.name = true
  | assign _ _ p v => p.Normal ∧ ∀ e ∈ v, e.Normal
  | forLoop p e c => p.Normal ∧ e.Normal ∧ ∀ x ∈ c, x.Normal
  | ifCond c | elseIf c => c.Normal
  | matchOn e => e.Normal
  | whenArm p => p.ArmNormal
  | macroDef n ps => isName n.name = true ∧ ∀ p ∈ ps, p.Normal
  | callBlock bs e => (∀ i ∈ bs, isName i.name = true) ∧ e.Normal ∧ e.isCall = true
  | filterBlock fs => fs ≠ [] ∧ ∀ f ∈ fs, f.Normal
  | _ => True

/-! ## What is read as a pattern -/

omit [Letters] in
/-- An underscore is an ordinary word to the lexer. -/
theorem wordToken_underscore : wordToken "_" = .ident := by decide +kernel

namespace Reader

section

variable {inner : Reader Pattern} (hinner : Yields inner Pattern.Normal)

include hinner

theorem fieldPattern_yields : Yields (fieldPattern inner) fun f =>
    (∀ n ∈ f.name?, isName n.name = true) ∧ ∀ p ∈ f.pattern?, p.Normal := by
  refine (eat_yields _).bind fun found _ => ?_
  cases found with
  | some l => exact .pure ⟨nofun, nofun⟩
  | none =>
    refine ident_yields.bind fun name hname => (eats_yields _).bind fun _ _ => ?_
    have hname' : ∀ n ∈ some name, isName n.name = true := by rintro _ ⟨rfl⟩; exact hname
    refine .ite (fun _ => ?_) fun _ => .pure ⟨hname', nofun⟩
    exact hinner.bind fun p hp => .pure ⟨hname', by rintro _ ⟨rfl⟩; exact hp⟩

theorem structPattern_yields {global : Bool} {first : Ident} (hname : isName first.name = true)
    (hfirst : global = false → first.name ≠ "_") (start : Span) :
    Yields (structPattern inner global first start) Pattern.Normal := by
  have hsegment : Yields pathSegment? fun x => ∀ i ∈ x, isName i.name = true := by
    refine (eats_yields _).bind fun _ _ => .ite (fun _ => ?_) fun _ => .pure nofun
    exact ident_yields.map fun i hi => by rintro _ ⟨rfl⟩; exact hi
  refine (many_yields hsegment).bind fun more hmore => ?_
  have hpath : ∀ s, Path.IsPattern ⟨global, first :: more, s⟩ := fun s =>
    ⟨List.forall_mem_cons.2 ⟨hname, hmore⟩, List.cons_ne_nil _ _,
      fun hglobal => by rintro _ ⟨rfl⟩; exact hfirst hglobal⟩
  dsimp only
  refine (eats_yields _).bind fun _ _ => .ite (fun _ => ?_) fun _ => ?_
  · exact (seq_yields hinner _).bind fun s hs => .pure (.mk (hpath _) hs)
  refine (eats_yields _).bind fun _ _ => .ite (fun _ => ?_) fun _ => .pure ?_
  · refine (seq_yields (fieldPattern_yields hinner) _).bind fun s hs => .pure (.mk ?_ ?_)
    · exact ⟨hpath _, fun f hf => (hs f hf).1⟩
    · intro p hp
      obtain ⟨f, hf, hmem⟩ := List.mem_flatMap.1 hp
      exact (hs f hf).2 p (Option.mem_toList.1 hmem)
  · -- A single name is a binding.
    unfold pathPattern
    split
    · next i hglobal hsegments =>
      cases hsegments
      exact .mk ⟨hname, hfirst hglobal⟩ nofun
    · next hlong =>
      refine .mk ⟨hpath _, fun hglobal hlength => ?_⟩ nofun
      obtain ⟨i, hi⟩ := List.length_eq_one_iff.1 hlength
      exact hlong i hglobal hi

omit hinner in
theorem negativePattern_yields (minus : Lexeme) : Yields (negativePattern minus) Pattern.Normal := by
  refine next_yields.bind fun found hfound => ?_
  cases found with
  | none => exact unexpected_yields _ _
  | some l =>
    refine .ite (fun _ => ?_) fun _ => unexpected_yields _ _
    exact (literalOf_yields (hfound l rfl) true).bind fun v hv => .pure (.mk hv nofun)

theorem tuplePattern_yields (opening : Lexeme) : Yields (tuplePattern inner opening) Pattern.Normal := by
  refine (seq_yields hinner _).bind fun s hs => ?_
  split
  · next p hitems _ =>
    rw [hitems] at hs
    exact .pure (hs p List.mem_cons_self)
  · exact .pure (.mk trivial hs)

theorem patternAtom_yields : Yields (patternAtom inner) Pattern.Normal := by
  refine next_yields.bind fun found hfound => ?_
  cases found with
  | none => exact unexpected_yields _ _
  | some l =>
    have hl : Orderly [l] := hfound l rfl
    dsimp only
    split
    · exact .pure (.mk trivial nofun)
    · exact negativePattern_yields l
    · exact ident_yields.bind fun first hfirst =>
        structPattern_yields hinner hfirst Bool.noConfusion l.span
    · exact tuplePattern_yields hinner l
    · exact (seq_yields hinner _).bind fun s hs => .pure (.mk trivial hs)
    · rw [isUnderscore_bind_feed]
      simp only [decide_eq_true_eq]
      refine .ite (fun _ => .pure (.mk trivial nofun)) fun hbar => .ite (fun _ => ?_) fun _ => ?_
      · exact (literalOf_yields hl false).bind fun v hv => .pure (.mk hv nofun)
      refine .ite (fun hname => ?_) fun _ => unexpected_yields _ _
      obtain ⟨hword, hisName⟩ := hl.name List.mem_cons_self hname
      have hfirst : (identOf l).name ≠ "_" := by
        intro heq
        have heq' : String.ofList l.text = "_" := heq
        rw [heq'] at hword
        exact hbar ⟨hword.1.trans wordToken_underscore, hword.2⟩
      have hidentName : isName (identOf l).name = true := hisName
      exact structPattern_yields hinner hidentName (fun _ => hfirst) l.span

theorem alternatives_yields : Yields (alternatives inner) Pattern.Normal := by
  have halternative : Yields (alternative? inner) fun x => ∀ p ∈ x, p.Normal := by
    have hsome : Yields (some <$> inner) fun x => ∀ p ∈ x, p.Normal :=
      hinner.map fun p hp => by rintro _ ⟨rfl⟩; exact hp
    refine (eats_yields _).bind fun _ _ => .ite (fun _ => hsome) fun _ => ?_
    exact (eats_yields _).bind fun _ _ => .ite (fun _ => hsome) fun _ => .pure nofun
  refine hinner.bind fun first hfirst => (many_yields halternative).bind fun more hmore => ?_
  split
  · exact .pure hfirst
  · next final hfinal =>
    refine .pure (.mk ?_ (List.forall_mem_cons.2 ⟨hfirst, hmore⟩))
    have hpos : 0 < more.length := List.length_pos_iff.2 fun hnil => by rw [hnil] at hfinal; cases hfinal
    show 2 ≤ (first :: more).length
    rw [List.length_cons]
    omega

end

theorem patternWithin_yields (limit budget : Nat) :
    Yields (patternWithin limit budget) Pattern.Normal := by
  induction budget with
  | zero => exact tooDeep_yields limit
  | succ budget ih => exact alternatives_yields (patternAtom_yields ih)

/-! ## What is read as a statement -/

variable (limit : Nat)

theorem pattern_yields : Yields (pattern limit) Pattern.Normal := patternWithin_yields limit limit

theorem armPattern_yields : Yields (armPattern limit) Pattern.ArmNormal := by
  refine (pattern_yields limit).bind fun base hbase => (eats_yields _).bind fun _ _ => ?_
  refine .ite (fun _ => next_yields.bind fun found _ => ?_) fun _ => .pure hbase.arm
  cases found with
  | none => exact unexpected_yields _ _
  | some opening =>
    dsimp only
    split
    · exact unexpected_yields _ _
    · exact (seq_yields (pattern_yields limit) _).bind fun s hs => .pure ⟨hbase, hs⟩

theorem expr_yields : Yields (expr limit) Expr.Normal :=
  .of_takes (expr_takes limit) fun _ _ h => h.normal

theorem filter_yields : Yields (filter (expr limit)) Filter.Normal :=
  .of_takes (filter_takes (expr_takes limit)) fun _ _ h => ⟨h.names, h.normal⟩

theorem after?_yields {α : Type} {P : α → Prop} {item : Reader α} (hitem : Yields item P)
    (token : Token) : Yields (after? token item) fun x => ∀ a ∈ x, P a := by
  refine (eats_yields _).bind fun _ _ => .ite (fun _ => ?_) fun _ => .pure nofun
  exact hitem.map fun a ha => by rintro _ ⟨rfl⟩; exact ha

/-- Where no `let` has been found, what is read as an expression does not begin with one. -/
theorem cond_yields : Yields (cond limit) Cond.Normal := by
  intro feed c rest hord h
  obtain ⟨found, mid, heats, hrest⟩ := bind_eq_ok_iff.1 h
  rcases eats_eq_ok heats with ⟨rfl, rfl, hnot⟩ | ⟨rfl, l, -, hls⟩
  · obtain ⟨e, rest', he, hpure⟩ := bind_eq_ok_iff.1 hrest
    cases hpure
    obtain ⟨used, hls, hread⟩ := expr_takes limit _ _ _ hord he
    obtain ⟨l, more, rfl, hl⟩ := hread.spelled.head hread.normal
    rw [hls] at hord hnot
    exact ⟨⟨hread.normal, hl ▸ hnot l rfl⟩, hord.right⟩
  · rw [hls] at hord
    have hbind : Yields (do
        let p ← pattern limit
        let _ ← expect .eq
        return .bind p (← expr limit)) Cond.Normal :=
      (pattern_yields limit).bind fun p hp => (expect_yields _).bind fun _ _ =>
        (expr_yields limit).bind fun v hv => .pure ⟨hp, hv⟩
    exact hbind _ _ _ hord.tail hrest

theorem param_yields : Yields (param limit) Param.Normal :=
  ident_yields.bind fun _ hname => (after?_yields (expr_yields limit) _).bind fun _ hdefault =>
    .pure ⟨hname, hdefault⟩

theorem assign_yields (word : LetWord) : Yields (assign limit word) StmtKind.Normal := by
  refine (eats_yields _).bind fun _ _ => (pattern_yields limit).bind fun p hp => ?_
  exact (after?_yields (expr_yields limit) _).bind fun v hv => .pure ⟨hp, hv⟩

theorem forLoop_yields : Yields (forLoop limit) StmtKind.Normal := by
  refine (pattern_yields limit).bind fun p hp => (expect_yields _).bind fun _ _ => ?_
  refine (expr_yields limit).bind fun iterable hiterable => ?_
  exact (after?_yields (expr_yields limit) _).bind fun c hc => .pure ⟨hp, hiterable, hc⟩

theorem macroDef_yields : Yields (macroDef limit) StmtKind.Normal :=
  ident_yields.bind fun _ hname => (expect_yields _).bind fun _ _ =>
    (seq_yields (param_yields limit) _).bind fun _ hparams => .pure ⟨hname, hparams⟩

theorem callBlock_yields : Yields (callBlock limit) StmtKind.Normal := by
  refine (after?_yields (seq_yields ident_yields _) _).bind fun bindings hbindings => ?_
  refine (expr_yields limit).bind fun call hcall => .ite (fun his => .pure ⟨?_, hcall, his⟩) fun _ => ?_
  · cases bindings with
    | none => exact nofun
    | some s => exact hbindings s rfl
  · exact peek_yields.bind fun found _ => unexpected_yields _ _

theorem filterBlock_yields : Yields (filterBlock limit) StmtKind.Normal := by
  have hfilter? : Yields (filter? (expr limit)) fun x => ∀ f ∈ x, f.Normal := by
    refine (eats_yields _).bind fun _ _ => .ite (fun _ => ?_) fun _ => .pure nofun
    exact (filter_yields limit).map fun f hf => by rintro _ ⟨rfl⟩; exact hf
  refine (filter_yields limit).bind fun first hfirst => (many_yields hfilter?).bind fun more hmore => ?_
  exact .pure ⟨List.cons_ne_nil _ _, List.forall_mem_cons.2 ⟨hfirst, hmore⟩⟩

theorem stmtKind?_yields {k : Keyword} {body : Reader StmtKind}
    (h : stmtKind? limit k = some body) : Yields body StmtKind.Normal := by
  cases k with
  | blockKw => cases h; exact ident_yields.map fun _ hn => hn
  | endBlock | endMacro => cases h; exact ident?_yields.map fun _ hn => hn
  | extendsKw | includeKw => cases h; exact textLit_yields.map fun _ _ => trivial
  | importKw =>
    cases h
    exact textLit_yields.bind fun _ _ => (expect_yields _).bind fun _ _ =>
      ident_yields.bind fun _ hn => .pure hn
  | letKw | setKw => cases h; exact assign_yields limit _
  | forKw => cases h; exact forLoop_yields limit
  | ifKw | elif => cases h; exact (cond_yields limit).map fun _ hc => hc
  | elseKw =>
    cases h
    refine (after?_yields (cond_yields limit) _).bind fun found hfound => ?_
    cases found with
    | none => exact .pure trivial
    | some c => exact .pure (hfound c rfl)
  | matchKw => cases h; exact (expr_yields limit).map fun _ he => he
  | whenKw => cases h; exact (armPattern_yields limit).map fun _ hp => hp
  | macroKw => cases h; exact macroDef_yields limit
  | callKw => cases h; exact callBlock_yields limit
  | filterKw => cases h; exact filterBlock_yields limit
  | endFor | breakKw | continueKw | endIf | endMatch | endWhen | endCall | endFilter | rawKw
  | endRaw => cases h; exact .pure trivial
  | _ => cases h

theorem stmt_yields : Yields (stmt limit) fun s => s.kind.Normal := by
  refine next_yields.bind fun found _ => ?_
  cases found with
  | none => exact unexpected_yields _ _
  | some l =>
    dsimp only
    split
    · split
      · exact unexpected_yields _ _
      · next body hbody =>
        refine (stmtKind?_yields limit hbody).bind fun kind hkind => ?_
        exact last_yields.bind fun _ _ => .pure hkind
    · exact unexpected_yields _ _

end Reader

/-! ## Statements of a template -/

namespace Region

/-- The statement in the inside of a tag, if there is one, is normal. -/
theorem body_normal {limit : Nat} {kind : TagKind} {feed rest : Feed} {t : Stmt} {closing : Lexeme}
    (hord : Orderly feed.lexemes) (h : body limit kind feed = .ok ((.stmt t, closing), rest)) :
    t.kind.Normal := by
  cases kind with
  | expr =>
    obtain ⟨b, mid, hb, hclose⟩ := Reader.bind_eq_ok_iff.1 h
    obtain ⟨l, rest', -, hpure⟩ := Reader.bind_eq_ok_iff.1 hclose
    cases hpure
    obtain ⟨e, mid', -, hpure⟩ := Reader.bind_eq_ok_iff.1 hb
    cases hpure
  | block =>
    obtain ⟨b, mid, hb, hclose⟩ := Reader.bind_eq_ok_iff.1 h
    obtain ⟨l, rest', -, hpure⟩ := Reader.bind_eq_ok_iff.1 hclose
    cases hpure
    obtain ⟨t', mid', ht, hpure⟩ := Reader.bind_eq_ok_iff.1 hb
    cases hpure
    exact (Reader.stmt_yields limit _ _ _ hord ht).1

/-- Statements come from tags only. -/
theorem Turn.stmt_normal {s : Settings} {lx next : Lexer} {r : Region} (h : Turn s lx r next)
    (hout : lx.inTag = false) {t : Stmt} {trims : Trims} {span : Span}
    (hn : r.node = some (.tag t trims span)) : t.kind.Normal := by
  cases h with
  | @fault diagnostic next h =>
    unfold ofFault at hn
    dsimp only at hn
    split at hn
    · cases hn
    · split at hn <;> cases hn
  | @tag l kind next h hl =>
    obtain ⟨-, hmode⟩ := mode_of_opening hout (Lexer.emits_of_step h) hl
    cases hbody : body s.limit kind (feedOf s l next) with
    | error diagnostic =>
      rw [readTag_of_error hbody] at hn
      cases hn
    | ok result =>
      obtain ⟨⟨b, closing⟩, rest⟩ := result
      rw [readTag_of_ok hbody] at hn
      cases b with
      | expr e => cases hn
      | stmt t' =>
        cases hn
        exact body_normal (orderly_feed hmode) hbody
  | @lexeme l next h hl =>
    unfold ofLexeme at hn
    split at hn <;> cases hn

end Region

/-- Every statement of a template is normal. -/
theorem Template.stmt_normal {s : Settings} {source : String} {t : Stmt} {trims : Trims} {span : Span}
    (hn : .tag t trims span ∈ (s.parse source).template.nodes) : t.kind.Normal := by
  obtain ⟨used, place, r, next, -, hplace, hturn, hr⟩ := exists_turn_of_node hn
  exact hturn.stmt_normal hplace hr

end Stencil
