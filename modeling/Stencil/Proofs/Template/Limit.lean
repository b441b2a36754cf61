/-
  Limit — raising the limit of nesting only takes back complaints about the nesting.

  The same source is read under a limit and under a higher one.  The nodes stand at the same places,
  and node by node both readings agree, unless the lower limit was exceeded there.  So the higher limit
  never changes the reading of a tag that fits the lower one, nor of anything after a tag that does
  not.

  The two runs go through the same places turn by turn (`Turn.relax`).  Inside a tag this is the
  comparison of readers from `Stencil.Proofs.Limit.Relax`; where it leaves room for a difference, the
  lower run skips to the end of the tag and the higher one may read it, and both ends agree since the
  lexemes settle them.  A raw block, which changes how the source is read after its tag, is not among
  these tags: no limit bears on its statement (`stmt_of_isRaw`).
-/
import Mathlib.Data.List.Forall2
import Stencil.Proofs.Limit.Relax
import Stencil.Proofs.Template.Extent

namespace Stencil

/-- The diagnostic of the error node at position `i`: the errors of a source have one each, in their
    order. -/
def Parsed.diagnosticAt (p : Parsed) (i : Nat) : Option Diagnostic :=
  p.diagnostics[(p.template.nodes.take i).countP Node.isError]?

/-! ## Statements of one word -/

/-- The keyword that is the whole statement, if one is. -/
def StmtKind.word? : StmtKind → Option Keyword
  | elseCond => some .elseKw
  | endFor => some .endFor
  | breakLoop => some .breakKw
  | continueLoop => some .continueKw
  | endIf => some .endIf
  | endMatch => some .endMatch
  | endWhen => some .endWhen
  | endCall => some .endCall
  | endFilter => some .endFilter
  | raw => some .rawKw
  | endRaw => some .endRaw
  | _ => none

namespace Reader

/-- Only its own keyword begins a statement of one word. -/
theorem stmtKind?_gives_word {limit : Nat} {k : Keyword} {body : Reader StmtKind}
    (h : stmtKind? limit k = some body) : Gives body fun kind => ∀ w ∈ kind.word?, w = k := by
  have own : ∀ {kind : StmtKind}, kind.word? = some k → ∀ w ∈ kind.word?, w = k := by
    intro kind hk w hw
    rw [hk] at hw
    exact (Option.some.inj hw).symm
  cases k with
  | endFor | breakKw | continueKw | endIf | endMatch | endWhen | endCall | endFilter | rawKw | endRaw =>
    cases h
    exact .pure (own rfl)
  | elseKw =>
    cases h
    refine .after fun found => ?_
    cases found with
    | none => exact .pure (own rfl)
    | some c => exact .pure fun w hw => by cases hw
  | blockKw | endBlock | extendsKw | includeKw | ifKw | elif | matchKw | whenKw | endMacro =>
    cases h
    exact (Gives.any _).map fun _ _ w hw => by cases hw
  | importKw | letKw | setKw | macroKw =>
    cases h
    exact .after fun _ => .after fun _ => .after fun _ => .pure fun w hw => by cases hw
  | forKw =>
    cases h
    exact .after fun _ => .after fun _ => .after fun _ => .after fun _ =>
      .pure fun w hw => by cases hw
  | callKw =>
    cases h
    refine .after fun _ => .after fun _ => .ite (.pure fun w hw => by cases hw) ?_
    exact .after fun found => unexpected_gives _ found
  | filterKw =>
    cases h
    exact .after fun _ => .after fun _ => .pure fun w hw => by cases hw
  | _ => cases h

/-- A statement of one word is read by its keyword. -/
theorem exists_word_of_stmt {limit : Nat} {feed rest : Feed} {st : Stmt} {w : Keyword}
    (h : stmt limit feed = .ok (st, rest)) (hw : w ∈ st.kind.word?) :
    ∃ l mid body, feed.lexemes = l :: mid.lexemes ∧ l.token = .keyword w ∧
      stmtKind? limit w = some body ∧ body mid = .ok (st.kind, rest) := by
  rcases next_bind_eq_ok h with ⟨-, hnone⟩ | ⟨l, mid, hls, -, hk⟩
  · exact (unexpected_ne_ok hnone).elim
  · cases htoken : l.token with
    | keyword k =>
      simp only [htoken] at hk
      cases hbody : (stmtKind? limit k : Option (Reader StmtKind)) with
      | none =>
        rw [hbody] at hk
        exact (unexpected_ne_ok hk).elim
      | some body =>
        rw [hbody] at hk
        obtain ⟨kind, after, hkind, hlast⟩ := bind_eq_ok_iff.1 hk
        cases hlast
        obtain rfl : w = k := stmtKind?_gives_word hbody _ _ _ hkind w hw
        exact ⟨l, mid, body, hls, htoken, hbody, hkind⟩
    | _ =>
      simp only [htoken] at hk
      exact (unexpected_ne_ok hk).elim

/-- The statement of a raw block is read under every limit. -/
theorem stmt_of_isRaw {limit : Nat} {feed rest : Feed} {st : Stmt}
    (h : stmt limit feed = .ok (st, rest)) (hraw : st.isRaw = true) (other : Nat) :
    stmt other feed = .ok (st, rest) := by
  obtain ⟨found, mid, hnext, hk⟩ := bind_eq_ok_iff.1 h
  refine bind_eq_ok_iff.2 ⟨found, mid, hnext, ?_⟩
  cases found with
  | none => exact (unexpected_ne_ok hk).elim
  | some l =>
    cases htoken : l.token with
    | keyword k =>
      simp only [htoken] at hk ⊢
      cases hbody : (stmtKind? limit k : Option (Reader StmtKind)) with
      | none =>
        rw [hbody] at hk
        exact (unexpected_ne_ok hk).elim
      | some body =>
        rw [hbody] at hk
        obtain ⟨kind, after, hkind, hlast⟩ := bind_eq_ok_iff.1 hk
        cases hlast
        have hword : .rawKw ∈ kind.word? := by
          cases kind with
          | raw => rfl
          | _ => cases hraw
        obtain rfl : .rawKw = k := stmtKind?_gives_word hbody _ _ _ hkind _ hword
        cases hbody
        exact hk
    | _ =>
      simp only [htoken] at hk
      exact (unexpected_ne_ok hk).elim

end Reader

/-! ## Regions -/

namespace Region

open Reader

theorem body_relaxes (limit more : Nat) (kind : TagKind) :
    Relaxes limit (body limit kind) (body (more + limit) kind) := by
  cases kind with
  | expr => exact ((expr_relaxes limit more).map Body.expr).bind fun b => .refl limit _
  | block => exact ((stmt_relaxes limit more).map Body.stmt).bind fun b => .refl limit _

/-- A tag that begins a raw block is read under every limit. -/
theorem body_of_isRaw {limit : Nat} {kind : TagKind} {feed rest : Feed} {b : Body}
    {closing : Lexeme} (h : body limit kind feed = .ok ((b, closing), rest)) (hraw : b.isRaw = true)
    (other : Nat) : body other kind feed = .ok ((b, closing), rest) := by
  cases kind with
  | expr =>
    obtain ⟨b', mid, hb, hmid⟩ := bind_eq_ok_iff.1 h
    obtain ⟨e, mid', he, hpure⟩ := bind_eq_ok_iff.1 hb
    cases hpure
    obtain ⟨l, after, -, hpure⟩ := bind_eq_ok_iff.1 hmid
    cases hpure
    cases hraw
  | block =>
    obtain ⟨b', mid, hb, hmid⟩ := bind_eq_ok_iff.1 h
    obtain ⟨st, mid', hst, hpure⟩ := bind_eq_ok_iff.1 hb
    cases hpure
    have hsame : b = .stmt st := by
      obtain ⟨l, after, -, hpure⟩ := bind_eq_ok_iff.1 hmid
      cases hpure
      rfl
    rw [hsame] at hraw
    have hother := stmt_of_isRaw hst hraw other
    exact bind_eq_ok_iff.2 ⟨.stmt st, mid, bind_eq_ok_iff.2 ⟨st, mid, hother, rfl⟩, hmid⟩

/-- The second region is the first, or the first is an error where the nesting is deeper than
    `limit`, and the second has a node at the same place. -/
inductive Relaxed (limit : Nat) : Region → Region → Prop
  | same (r : Region) : Relaxed limit r r
  | tooDeep {place span : Span} {n : Node} {diagnostic : Option Diagnostic} (hspan : span = n.span) :
      Relaxed limit ⟨some (.error span), some ⟨.tooDeep limit, place⟩⟩ ⟨some n, diagnostic⟩

theorem Relaxed.node {limit : Nat} {r r' : Region} (h : Relaxed limit r r') :
    Option.Rel (fun n n' : Node => n.span = n'.span) r.node r'.node := by
  cases h with
  | same r =>
    cases r.node with
    | none => exact .none
    | some n => exact .some rfl
  | tooDeep hspan => exact .some hspan

variable {d : Delims} {limit : Nat} {lx next : Lexer} {r : Region}

/-- A turn under a limit and under a higher one: both go on at the same place. -/
theorem Turn.relax [Letters] (h : Turn ⟨d, limit⟩ lx r next) (hout : lx.inTag = false) (more : Nat) :
    ∃ r', Turn ⟨d, more + limit⟩ lx r' next ∧ Relaxed limit r r' := by
  have hcovers := h.covers hout
  cases h with
  | fault h => exact ⟨_, .fault h, .same _⟩
  | lexeme h hl => exact ⟨_, .lexeme h hl, .same _⟩
  | @tag l kind inside h hl =>
    obtain ⟨-, hinside⟩ := mode_of_opening (s := ⟨d, limit⟩) hout (Lexer.emits_of_step h) hl
    have hturn : Turn ⟨d, more + limit⟩ lx _ _ := .tag h hl
    rcases body_relaxes limit more kind (feedOf ⟨d, limit⟩ l inside) with ⟨place, hdeep⟩ | hsame
    · obtain ⟨used, hcovers⟩ := hcovers
      obtain ⟨used', hcovers'⟩ := hturn.covers hout
      rw [readTag_of_error (s := ⟨d, limit⟩) hdeep] at hcovers ⊢
      cases hbody : body (more + limit) kind (feedOf ⟨d, more + limit⟩ l inside) with
      | error diagnostic =>
        rw [readTag_of_error (s := ⟨d, more + limit⟩) hbody] at hturn
        exact ⟨_, hturn, .tooDeep rfl⟩
      | ok result =>
        -- Read under the higher limit, the tag ends where it was skipped under the lower one.
        obtain ⟨⟨b, closing⟩, rest⟩ := result
        have hraw : ¬ b.isRaw = true := by
          intro hraw
          have hread := body_of_isRaw hbody hraw limit
          rw [show body limit kind (feedOf ⟨d, more + limit⟩ l inside) = _ from hdeep] at hread
          cases hread
        have hend := Lexer.skipTag_of_outside (d := d)
          (outside_of_body (s := ⟨d, more + limit⟩) hinside hbody)
        rw [readTag_of_ok (s := ⟨d, more + limit⟩) hbody, if_neg hraw] at hturn hcovers'
        dsimp only at hturn hcovers hcovers' ⊢
        rw [hend] at hcovers ⊢
        have hspan := (hcovers.node _ rfl).1.trans (hcovers'.node _ rfl).1.symm
        exact ⟨_, hturn, .tooDeep hspan⟩
    · have hread : readTag ⟨d, limit⟩ kind l inside = readTag ⟨d, more + limit⟩ kind l inside := by
        unfold feedOf at hsame
        unfold readTag
        dsimp only
        rw [hsame]
      rw [hread]
      exact ⟨_, hturn, .same _⟩

/-- An error node comes with a diagnostic. -/
theorem Turn.diagnostic_of_isError [Letters] {s : Settings} (h : Turn s lx r next) {n : Node}
    (hn : r.node = some n) (herror : n.isError = true) : ∃ e, r.diagnostic = some e := by
  cases h with
  | fault h => exact ⟨_, rfl⟩
  | @tag l kind inside h hl =>
    cases hbody : body s.limit kind (feedOf s l inside) with
    | error diagnostic =>
      rw [readTag_of_error hbody]
      exact ⟨_, rfl⟩
    | ok result =>
      obtain ⟨⟨b, closing⟩, rest⟩ := result
      rw [readTag_of_ok hbody] at hn
      cases hn
      cases b <;> cases herror
  | lexeme h hl =>
    unfold ofLexeme at hn
    split at hn <;> cases hn <;> cases herror

end Region

/-- A run under a limit and under a higher one. -/
theorem regions_relax [Letters] (d : Delims) (limit more : Nat) (lx : Lexer) (hout : lx.inTag = false) :
    List.Forall₂ (Region.Relaxed limit) (regions ⟨d, limit⟩ lx) (regions ⟨d, more + limit⟩ lx) := by
  refine regions_induction (P := fun lx rs =>
    List.Forall₂ (Region.Relaxed limit) rs (regions ⟨d, more + limit⟩ lx)) ?_ ?_ lx hout
  · intro lx hdone
    rw [regions_of_done (s := ⟨d, more + limit⟩) hdone]
    exact .nil
  · intro lx next r used hlx hturn hcovers ih
    obtain ⟨r', hturn', hrelaxed⟩ := hturn.relax hlx more
    rw [hturn'.regions_eq]
    exact .cons hrelaxed ih

/-! ## The template of a source -/

namespace Template

section

variable [Letters] {s : Settings} {source : String} {before after : List Region} {r : Region}
  (h : regions s (Lexer.start source.toList) = before ++ r :: after)

include h

/-- The node of a region, found by its position. -/
theorem node_of_split {n : Node} (hn : r.node = some n) :
    (s.parse source).template.nodes[(before.filterMap (·.node)).length]? = some n := by
  show ((regions s (Lexer.start source.toList)).filterMap (·.node))[_]? = _
  rw [h, List.filterMap_append, List.filterMap_cons_some hn,
    List.getElem?_append_right (Nat.le_refl _), Nat.sub_self]
  rfl

/-- The diagnostic of a region, found by the position of its node. -/
theorem diagnosticAt_of_split {e : Diagnostic} (he : r.diagnostic = some e) :
    (s.parse source).diagnosticAt (before.filterMap (·.node)).length = some e := by
  obtain ⟨-, -, -, -, -, hcount⟩ :=
    exists_place_of_split (Lexer.start source.toList) rfl before after r h
  have hnodes : (s.parse source).template.nodes =
      before.filterMap (·.node) ++ (r :: after).filterMap (·.node) := by
    show (regions s (Lexer.start source.toList)).filterMap (·.node) = _
    rw [h, List.filterMap_append]
  have hdiagnostics : (s.parse source).diagnostics =
      before.filterMap (·.diagnostic) ++ e :: after.filterMap (·.diagnostic) := by
    show (regions s (Lexer.start source.toList)).filterMap (·.diagnostic) = _
    rw [h, List.filterMap_append, List.filterMap_cons_some he]
  unfold Parsed.diagnosticAt
  rw [hnodes, List.take_left, ← hcount, hdiagnostics, List.getElem?_append_right (Nat.le_refl _),
    Nat.sub_self]
  rfl

end

/-- Where the run under a limit is split, the run under a higher one is split at the same position
    among the nodes. -/
theorem exists_split_of_relaxed {limit : Nat} {before after rs : List Region} {r : Region}
    (h : List.Forall₂ (Region.Relaxed limit) (before ++ r :: after) rs) :
    ∃ before' r' after', rs = before' ++ r' :: after' ∧ Region.Relaxed limit r r' ∧
      (before'.filterMap (·.node)).length = (before.filterMap (·.node)).length := by
  have hfront := List.forall₂_take before.length h
  have hback := List.forall₂_drop before.length h
  rw [List.take_left] at hfront
  rw [List.drop_left] at hback
  obtain ⟨r', after', hrelaxed, -, hdrop⟩ := List.forall₂_cons_left_iff.1 hback
  refine ⟨rs.take before.length, r', after', ?_, hrelaxed, ?_⟩
  · rw [← hdrop, List.take_append_drop]
  · exact (List.rel_filterMap (fun _ _ hnode => hnode.node) hfront).length_eq.symm

/-- Without complaints about the nesting, both runs are the same. -/
theorem eq_of_relaxed {limit : Nat} {rs rs' : List Region}
    (h : List.Forall₂ (Region.Relaxed limit) rs rs')
    (hfits : ∀ e ∈ rs.filterMap (·.diagnostic), e.kind ≠ .tooDeep) : rs = rs' := by
  have hall : ∀ r ∈ rs, ∀ e, r.diagnostic = some e → e.kind ≠ .tooDeep :=
    fun r hr e he => hfits e (List.mem_filterMap.2 ⟨r, hr, he⟩)
  have hsame : List.Forall₂ (· = ·) rs rs' := by
    refine ((List.forall₂_and_left rs rs').2 ⟨hall, h⟩).imp fun r r' hrelaxed => ?_
    obtain ⟨hfits, hrelaxed⟩ := hrelaxed
    cases hrelaxed with
    | same r => rfl
    | tooDeep hspan => exact absurd rfl (hfits _ rfl)
  rwa [List.forall₂_eq_eq_eq] at hsame

/-- Under a higher limit the nodes of a source stand at the same places.  At each position the two
    nodes are the same, errors with the same diagnostic; or the node under the lower limit is an error
    and its diagnostic says that the nesting is too deep.  So a source whose nesting is not too deep
    for the lower limit is read alike under both. -/
theorem nodes_of_higher_limit [Letters] (d : Delims) (source : String) (low high : Nat) (hle : low ≤ high) :
    let a := Settings.parse ⟨d, low⟩ source
    let b := Settings.parse ⟨d, high⟩ source
    a.template.nodes.length = b.template.nodes.length ∧
      a.template.nodes.map Node.span = b.template.nodes.map Node.span ∧
      (∀ (i : Nat) (x y : Node), a.template.nodes[i]? = some x → b.template.nodes[i]? = some y →
        (x = y ∧ (x.isError = true →
          ∃ e, a.diagnosticAt i = some e ∧ b.diagnosticAt i = some e)) ∨
        (x.isError = true ∧ ∃ e, a.diagnosticAt i = some e ∧ e.kind = .tooDeep)) ∧
      ((∀ e ∈ a.diagnostics, e.kind ≠ .tooDeep) →
        a.template = b.template ∧ a.diagnostics = b.diagnostics) := by
  obtain ⟨more, rfl⟩ := Nat.exists_eq_add_of_le' hle
  intro a b
  have hregions := regions_relax d low more (Lexer.start source.toList) rfl
  have hnodes : List.Forall₂ (fun n n' : Node => n.span = n'.span) a.template.nodes
      b.template.nodes :=
    List.rel_filterMap (fun _ _ h => h.node) hregions
  refine ⟨hnodes.length_eq, ?_, ?_, ?_⟩
  · rw [← List.forall₂_eq_eq_eq, List.forall₂_map_left_iff, List.forall₂_map_right_iff]
    exact hnodes
  · intro i x y hx hy
    obtain ⟨before, r, after, hsplit, hr, hbefore, -⟩ := exists_split_of_node hx
    obtain rfl : (before.filterMap (·.node)).length = i := by
      have hi := (List.getElem?_eq_some_iff.1 hx).1
      rw [hbefore, List.length_take]
      exact Nat.min_eq_left (Nat.le_of_lt hi)
    obtain ⟨before', r', after', hsplit', hrelaxed, hlength⟩ :=
      exists_split_of_relaxed (hsplit ▸ hregions)
    cases hrelaxed with
    | same r =>
      have hy' := node_of_split hsplit' hr
      rw [hlength, hy] at hy'
      refine .inl ⟨(Option.some.inj hy').symm, fun herror => ?_⟩
      obtain ⟨_, _, _, -, -, hturn⟩ := exists_turn_of_split hsplit
      obtain ⟨e, he⟩ := hturn.diagnostic_of_isError hr herror
      have hb := diagnosticAt_of_split hsplit' he
      rw [hlength] at hb
      exact ⟨e, diagnosticAt_of_split hsplit he, hb⟩
    | tooDeep hspan =>
      cases hr
      exact .inr ⟨rfl, _, diagnosticAt_of_split hsplit rfl, rfl⟩
  · intro hfits
    have hsame := eq_of_relaxed hregions hfits
    exact ⟨congrArg (fun rs => Template.mk (rs.filterMap Region.node)) hsame,
      congrArg (List.filterMap Region.diagnostic) hsame⟩

/-- Under a limit of one level the group in the first tag is too deep; under a limit of two it is read.
    The second tag fails in the same way under both: where the operand of its operator would be too
    deep for the lower limit, the fault among its lexemes comes first. -/
theorem group_of_higher_limit :
    let source := "\x7b\x7b (a) \x7d\x7d\x7b\x7b ! @ \x7d\x7d"
    let a := Settings.parse ⟨Delims.standard, 1⟩ source
    let b := Settings.parse ⟨Delims.standard, 2⟩ source
    (a.template.nodes.map Node.isError = [true, true] ∧
      b.template.nodes.map Node.isError = [false, true] ∧
      a.diagnosticAt 1 = some ⟨.lex .unexpectedCharacter, ⟨14, 15⟩⟩) ∧ 1 ≤ 2 ∧
    a.template.nodes.length = b.template.nodes.length ∧
      a.template.nodes.map Node.span = b.template.nodes.map Node.span ∧
      (∀ (i : Nat) (x y : Node), a.template.nodes[i]? = some x → b.template.nodes[i]? = some y →
        (x = y ∧ (x.isError = true →
          ∃ e, a.diagnosticAt i = some e ∧ b.diagnosticAt i = some e)) ∨
        (x.isError = true ∧ ∃ e, a.diagnosticAt i = some e ∧ e.kind = .tooDeep)) ∧
      ((∀ e ∈ a.diagnostics, e.kind ≠ .tooDeep) →
        a.template = b.template ∧ a.diagnostics = b.diagnostics) := by
  intro source a b
  refine ⟨by decide +kernel, by decide, ?_⟩
  exact nodes_of_higher_limit Delims.standard source 1 2 (by decide)

end Template

end Stencil
