/-
  Pattern — the printed text of a pattern is scanned as lexemes that are read back.

  The text is put together from those of the patterns inside, as that of an expression is
  (`Stencil.Proofs.Printing.Expr`), and in each case the lexemes are handed on to the lemma of
  `Stencil.Proofs.Reader.Pattern` that reads them.  What comes back is the pattern with its nested
  alternatives run together, since the printer puts no parentheses around them.
-/
import Stencil.Pattern.Printer
import Stencil.Proofs.Printing.Pieces
import Stencil.Proofs.Reader.Pattern

namespace Stencil

open Lexeme

/-! ## Lists in the printer -/

theorem Pattern.renderList_eq (sep : String) (ps : List Pattern) :
    Pattern.renderList sep ps = joinWith sep (ps.map Pattern.render) := by
  match ps with
  | [] => rfl
  | [p] => rfl
  | p :: q :: more =>
    rw [Pattern.renderList, Pattern.renderList_eq sep (q :: more)]
    rfl

theorem FieldPattern.renderList_eq (fs : List FieldPattern) :
    FieldPattern.renderList fs = joinWith ", " (fs.map FieldPattern.render) := by
  match fs with
  | [] => rfl
  | [f] => rfl
  | f :: g :: more =>
    rw [FieldPattern.renderList, FieldPattern.renderList_eq (g :: more)]
    rfl

/-! ## Alternatives -/

variable [Letters]

namespace Pattern

variable {p : Pattern} {s : Span}

theorem Normal.branches_ne_nil (hn : p.Normal) : p.flatten.branches ≠ [] := by
  induction hn with
  | @mk p node children ih =>
    cases p with
    | alternatives ps s =>
      have htwo : 2 ≤ ps.length := node
      cases ps with
      | nil => exact absurd htwo (by decide)
      | cons q ps =>
        show q.flatten.branches ++ flattenBranches ps ≠ []
        exact fun hnil => ih q List.mem_cons_self (List.append_eq_nil_iff.1 hnil).1
    | _ => exact List.cons_ne_nil _ _

/-- Run together, alternatives are at least two as before. -/
theorem Normal.two_branches (hn : p.Normal) {qs : List Pattern} (h : p.flatten = alternatives qs s) :
    2 ≤ qs.length := by
  cases hn with
  | mk node children =>
    cases p with
    | alternatives ps t =>
      cases h
      have htwo : 2 ≤ ps.length := node
      match ps, children with
      | [], _ => exact absurd htwo (by decide)
      | [q], _ => exact absurd htwo (show ¬ 2 ≤ 1 by decide)
      | q :: r :: ps, children =>
        have hq := List.length_pos_iff.2 (children q List.mem_cons_self).branches_ne_nil
        have hr := List.length_pos_iff.2
          (children r (List.mem_cons_of_mem _ List.mem_cons_self)).branches_ne_nil
        simp only [flattenBranches, List.length_append]
        omega
    | _ => cases h

/-- The text of the pattern is scanned as lexemes that are read as its alternatives. -/
def IsShown (p : Pattern) : Prop := Shows true (ReadBranches p.flatten.branches) p.render.toList

theorem IsShown.full (h : p.IsShown) (hn : p.Normal) :
    Shows true p.flatten.ReadFull p.render.toList := by
  obtain ⟨hopens, ls, hls, hplain, hprints⟩ := h
  exact ⟨hopens, ls, hls.full fun qs s heq => hn.two_branches heq, hplain, hprints⟩

/-- Patterns with bars between them are scanned as the alternatives of all of them. -/
theorem bars_show {ps : List Pattern} (hne : ps ≠ []) (h : ∀ p ∈ ps, p.IsShown) :
    Shows true (ReadBranches (flattenBranches ps)) (joinWith " | " (ps.map render)).toList := by
  induction ps with
  | nil => exact absurd rfl hne
  | cons p ps ih =>
    obtain ⟨hfirst, hmore⟩ := List.forall_mem_cons.1 h
    cases ps with
    | nil =>
      rw [flattenBranches, flattenBranches, List.append_nil]
      exact hfirst
    | cons q ps =>
      obtain ⟨hopens, a, ha, hplain, hprints⟩ := hfirst
      obtain ⟨hopens', b, hb, hplain', hprints'⟩ := ih (List.cons_ne_nil _ _) hmore
      have htext : (joinWith " | " ((p :: q :: ps).map render)).toList =
          p.render.toList ++ ' ' :: (['|'] ++ ' ' :: (joinWith " | " ((q :: ps).map render)).toList) := by
        rw [List.map_cons, List.map_cons, toList_joinWith_cons]
        rfl
      rw [htext]
      refine ⟨hopens.append _, _, ha.append (Token.is_lexeme rfl) hb, by simp [hplain, hplain'],
        fun kind tail ht => ?_⟩
      exact (hprints kind _ (.of_cons (by decide) (by decide) _)).append
        (.between rfl Token.noConfusion hopens' (hprints' kind tail ht))

/-- A pattern that has no alternatives is its only one. -/
theorem isShown_of_atom (hatom : p.flatten.branches = [p.flatten])
    (h : Shows true p.flatten.ReadAtom p.render.toList) : p.IsShown := by
  obtain ⟨hopens, ls, hls, hplain, hprints⟩ := h
  unfold IsShown
  rw [hatom]
  exact ⟨hopens, ls, hls.branches, hplain, hprints⟩

/-! ## Patterns with nothing inside -/

theorem lit_shows {v : Literal} (hn : ∀ n, v = .num n → n.IsWritten) : (lit v s).IsShown := by
  obtain ⟨hopens, ls, hls, hplain, hprints⟩ := v.shows hn
  exact isShown_of_atom rfl ⟨hopens, ls, lit_read hls hn, hplain, hprints.weaken⟩

theorem ident_shows {n : String} (hname : isName n = true) (hbar : n ≠ "_") :
    (ident n s).IsShown := by
  have hword := isWord_of_isName hname
  exact isShown_of_atom rfl ⟨opens_word hword, _, ident_read hname hbar, by simp [wordLexeme],
    (prints_word hword).weaken⟩

theorem placeholder_shows : (placeholder s).IsShown := by
  have hword : isWord "_".toList = true := by
    rw [show "_".toList = ['_'] from rfl, isWord, isIdentStart_of_ascii (by decide)]
    rfl
  exact isShown_of_atom rfl ⟨opens_word hword, _, placeholder_read, by simp [wordLexeme],
    (prints_word hword).weaken⟩

theorem rest_shows : (rest s).IsShown := by
  have htext : (rest s).render.toList = ['.', '.'] := by simp [render]
  refine isShown_of_atom rfl ?_
  rw [htext]
  exact ⟨.of_sign (by decide), _, rest_read, by simp, fun _ _ ht =>
    .sign rfl Token.noConfusion (ht.sign (by decide))⟩

theorem path_shows {p : Path} (hp : p.IsPattern) (hlong : p.global = false → p.segments.length ≠ 1) :
    (path p s).IsShown := by
  obtain ⟨hopens, ls, hls, hplain, hprints⟩ := Stencil.path_shows p.global hp.names hp.ne_nil
  exact isShown_of_atom rfl ⟨hopens, ls, path_read hp hlong hls, hplain, hprints.weaken⟩

/-! ## Patterns in brackets -/

theorem list_print {ps : List Pattern} (h : ∀ p ∈ ps, Shows true p.flatten.ReadFull p.render.toList) :
    ∃ ls, Commas ReadFull (flattenList ps) false ls ∧ Unmarked ls ∧
      Prints true (renderList ", " ps).toList ls := by
  rw [flattenList_eq, renderList_eq]
  exact commas_print (fun _ => true) h

theorem tuple_shows {ps : List Pattern} (h : ∀ p ∈ ps, Shows true p.flatten.ReadFull p.render.toList) :
    (tuple ps s).IsShown := by
  refine isShown_of_atom rfl ?_
  obtain ⟨ls, hls, hplain, hprints⟩ := list_print h
  by_cases hone : ps.length = 1
  · -- A single pattern keeps the comma after it.
    obtain ⟨p, rfl⟩ := List.length_eq_one_iff.1 hone
    obtain ⟨-, a, ha, hplain', hprints'⟩ := h p List.mem_cons_self
    have htext : (tuple [p] s).render.toList = '(' :: ((p.render.toList ++ [',']) ++ [')']) := by
      simp [render, renderList]
    rw [htext]
    refine ⟨.of_sign (by decide), _, tuple_read (Token.is_lexeme rfl)
      (.trailing ha (Token.is_lexeme rfl)) (Token.is_lexeme rfl) (fun _ => rfl), by simp [hplain'],
      fun kind tail _ => ?_⟩
    exact .enclosed rfl rfl (by decide) (by decide)
      ((hprints' kind _ (.of_cons (by decide) (by decide) _)).append (.mark rfl (by decide)))
  · have htext : (tuple ps s).render.toList = '(' :: ((renderList ", " ps).toList ++ [')']) := by
      simp [render, hone]
    have hlength : (flattenList ps).length ≠ 1 := by rwa [flattenList_eq, List.length_map]
    rw [htext]
    refine ⟨.of_sign (by decide), _, tuple_read (Token.is_lexeme rfl) hls (Token.is_lexeme rfl)
      (fun heq => absurd heq hlength), by simp [hplain], fun kind tail _ => ?_⟩
    exact .enclosed rfl rfl (by decide) (by decide) (hprints kind _ (.of_cons (by decide) (by decide) tail))

theorem slice_shows {ps : List Pattern} (h : ∀ p ∈ ps, Shows true p.flatten.ReadFull p.render.toList) :
    (slice ps s).IsShown := by
  obtain ⟨ls, hls, hplain, hprints⟩ := list_print h
  have htext : (slice ps s).render.toList = '[' :: ((renderList ", " ps).toList ++ [']']) := by
    simp
  refine isShown_of_atom rfl ?_
  rw [htext]
  refine ⟨.of_sign (by decide), _, slice_read (Token.is_lexeme rfl) hls (Token.is_lexeme rfl),
    by simp [hplain], fun kind tail _ => ?_⟩
  exact .enclosed rfl rfl (by decide) (by decide) (hprints kind _ (.of_cons (by decide) (by decide) tail))

/-! ## Structures taken apart -/

theorem tupleStruct_shows {p : Path} {ps : List Pattern} (hp : p.IsPattern)
    (h : ∀ p ∈ ps, Shows true p.flatten.ReadFull p.render.toList) : (tupleStruct p ps s).IsShown := by
  obtain ⟨hopens, a, ha, hplain, hprints⟩ := Stencil.path_shows p.global hp.names hp.ne_nil
  obtain ⟨ls, hls, hplain', hprints'⟩ := list_print h
  have htext : (tupleStruct p ps s).render.toList =
      p.render.toList ++ '(' :: ((renderList ", " ps).toList ++ [')']) := by
    simp [render]
  refine isShown_of_atom rfl ?_
  rw [htext]
  refine ⟨hopens.append _, _, tupleStruct_read hp ha (Token.is_lexeme rfl) hls (Token.is_lexeme rfl),
    by simp [hplain, hplain'], fun kind tail _ => ?_⟩
  exact (hprints kind _ (.of_cons (by decide) (by decide) _)).append
    (.enclosed rfl rfl (by decide) (by decide) (hprints' kind _ (.of_cons (by decide) (by decide) tail)))

end Pattern

theorem FieldPattern.shows {f : FieldPattern} (hname : ∀ n ∈ f.name?, isName n.name = true)
    (h : ∀ p ∈ f.pattern?, Shows true p.flatten.ReadFull p.render.toList) :
    Shows true f.flatten.ReadField f.render.toList := by
  cases f with
  | rest s =>
    have htext : (FieldPattern.rest s).render.toList = ['.', '.'] := by simp [FieldPattern.render]
    rw [htext]
    exact ⟨.of_sign (by decide), _, rest_read, by simp, fun _ _ ht =>
      .sign rfl Token.noConfusion (ht.sign (by decide))⟩
  | field n p =>
    have hisName : isName n.name = true := hname n rfl
    have hword := isWord_of_isName hisName
    cases p with
    | none =>
      have htext : (field n none).render = n.name := by
        simp [FieldPattern.render, Pattern.renderOption]
      rw [htext]
      exact ⟨opens_word hword, _, name_read hisName, by simp [wordLexeme], (prints_word hword).weaken⟩
    | some p =>
      obtain ⟨hopens, ls, hls, hplain, hprints⟩ := h p rfl
      have htext : (field n (some p)).render.toList =
          n.name.toList ++ ([':'] ++ ' ' :: p.render.toList) := by
        simp [FieldPattern.render, Pattern.renderOption]
      rw [htext]
      refine ⟨(opens_word hword).append _, _, named_read hisName (Token.is_lexeme rfl) hls,
        by simp [wordLexeme, hplain], fun kind tail ht => ?_⟩
      have hcolon : Lexes kind false [':'] [Token.colon.lexeme] false
          ((' ' :: p.render.toList) ++ tail) :=
        .sign rfl Token.noConfusion (Token.stops_blank _ _ _ _)
      exact (prints_word hword kind _ (.of_cons (by decide) (by decide) _)).append
        (hcolon.append ((hprints kind tail ht).space_opens hopens))

namespace Pattern

variable {p : Pattern} {s : Span}

theorem struct_shows {p : Path} {fs : List FieldPattern} (hp : p.IsPattern)
    (h : ∀ f ∈ fs, Shows true f.flatten.ReadField f.render.toList) : (struct p fs s).IsShown := by
  obtain ⟨hopens, a, ha, hplain, hprints⟩ := Stencil.path_shows p.global hp.names hp.ne_nil
  obtain ⟨ls, hls, hplain', hprints'⟩ := commas_print (fun _ => true) h
  have hlisted : (struct p fs s).flatten.ReadAtom
      (a ++ Token.lbrace.lexeme :: (ls ++ [Token.rbrace.lexeme])) := by
    refine struct_read hp ha (Token.is_lexeme rfl) ?_ (Token.is_lexeme rfl)
    rw [FieldPattern.flattenList_eq]
    exact hls
  -- The closing brace stands before what no brace follows.
  have hclose : ∀ kind tail, Follows true tail →
      Lexes kind false ['\x7d'] [Token.rbrace.lexeme] false tail :=
    fun kind tail ht => .sign rfl Token.noConfusion (ht.sign (by decide))
  refine isShown_of_atom rfl ?_
  cases fs with
  | nil =>
    cases hls
    have htext : (struct p [] s).render.toList = p.render.toList ++ ' ' :: '\x7b' :: ['\x7d'] := by
      simp [render]
    rw [htext]
    refine ⟨hopens.append _, _, hlisted, by simp [hplain], fun kind tail ht => ?_⟩
    have hopen : Lexes kind false ['\x7b'] [Token.lbrace.lexeme] false (['\x7d'] ++ tail) :=
      .sign rfl Token.noConfusion fun c hc => by cases hc; decide
    exact (hprints kind _ (.of_cons (by decide) (by decide) _)).append
      ((hopen.append (hclose kind tail ht)).space (by decide))
  | cons f fs =>
    have hfields := opens_joinWith ", " (h f List.mem_cons_self).1 (fs.map FieldPattern.render)
    have htext : (struct p (f :: fs) s).render.toList = p.render.toList ++ ' ' :: (['\x7b'] ++ ' ' ::
        ((joinWith ", " ((f :: fs).map FieldPattern.render)).toList ++ ' ' :: ['\x7d'])) := by
      simp [render, FieldPattern.renderList_eq]
    rw [htext]
    refine ⟨hopens.append _, _, hlisted, by simp [hplain, hplain'], fun kind tail ht => ?_⟩
    have hinside := (hprints' kind _ (.of_cons (by decide) (by decide) _)).append
      ((hclose kind tail ht).space (by decide))
    exact (hprints kind _ (.of_cons (by decide) (by decide) _)).append
      (.between rfl Token.noConfusion (hfields.append _) hinside)

/-! ## All patterns -/

/-- The printed text of a normal pattern is scanned as lexemes that are read as its alternatives. -/
theorem Normal.isShown (hn : p.Normal) : p.IsShown := by
  induction hn with
  | @mk p node children ih =>
    have hfull : ∀ c ∈ p.children, Shows true c.flatten.ReadFull c.render.toList :=
      fun c hc => (ih c hc).full (children c hc)
    cases p with
    | lit v s => exact lit_shows node
    | ident n s => exact ident_shows node.1 node.2
    | path p s => exact path_shows node.1 node.2
    | placeholder s => exact placeholder_shows
    | rest s => exact rest_shows
    | tupleStruct p ps s => exact tupleStruct_shows node hfull
    | struct p fs s =>
      refine struct_shows node.1 fun f hf => f.shows (node.2 f hf) fun q hq => hfull q ?_
      exact List.mem_flatMap.2 ⟨f, hf, Option.mem_toList.2 hq⟩
    | tuple ps s => exact tuple_shows hfull
    | slice ps s => exact slice_shows hfull
    | alternatives ps s =>
      have hne : ps ≠ [] := by
        rintro rfl
        exact absurd (show 2 ≤ 0 from node) (by decide)
      have hbars := bars_show hne ih
      rw [← renderList_eq] at hbars
      exact hbars
    | destructured p ps s => exact node.elim

/-- The printed text of a normal pattern is read back with its alternatives run together. -/
theorem Normal.shows (hn : p.Normal) : Shows true p.flatten.ReadFull p.render.toList :=
  hn.isShown.full hn

end Pattern

end Stencil
