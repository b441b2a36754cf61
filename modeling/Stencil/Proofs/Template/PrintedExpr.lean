/-
  PrintedExpr — a printed expression is read back.

  The text of an expression, put between the delimiters of an expression tag, is read as one expression
  node.  What is read is the expression that the text shows: that is the original one but for groups,
  and with all groups taken away the two are the same.  So the printed text of an expression determines
  it up to groups and places.

  The exception is the item of a plain number: `1 .0` is printed as `1.0`, and read back as the number
  `1.0`.
-/
import Stencil.Proofs.Printing.Expr
import Stencil.Proofs.Printing.Tag
import Stencil.Proofs.Template.Exprs
import Stencil.Proofs.Template.Extent
import Stencil.Template.Equality

namespace Stencil

/-- The source that consists of an expression tag with the text inside. -/
def exprSource (text : String) : String := "\x7b\x7b " ++ text ++ " \x7d\x7d"

theorem toList_exprSource (text : String) :
    (exprSource text).toList = tagText .expr text.toList := by
  simp [exprSource, tagText, Delims.openText, Delims.closeText]

/-- Every expression of a template is normal. -/
theorem Template.normal_of_mem [Letters] {s : Settings} {source : String} {n : Node}
    (hn : n ∈ (s.parse source).template.nodes) {e : Expr} (he : e ∈ n.exprs) : e.Normal := by
  obtain ⟨used, place, r, next, -, hplace, hturn, hr⟩ := exists_turn_of_node hn
  obtain ⟨l, inside, kind, -, -, part, -, hread⟩ := hturn.exprs hplace hr he
  exact hread.normal

/-- The printed text of an expression is read as what it shows, places apart. -/
theorem Expr.Normal.regions_printed [Letters] {e : Expr} (hn : e.Normal) :
    ∃ bound, ∀ limit, bound ≤ limit → ∃ x trims span, bare x = (bare e).shown ∧
      regions ⟨.standard, limit⟩ (Lexer.start (exprSource e.render).toList) =
        [⟨some (.expr x trims span), none⟩] := by
  obtain ⟨hopens, ls, hls, -, hprints⟩ := hn.isShown
  refine ⟨ls.length + 1, fun limit hlimit => ?_⟩
  rw [toList_exprSource]
  obtain ⟨b, trims, span, next, hb, hregions, hend⟩ := regions_of_tag
    (hprints .expr _ (Expr.follows_blank _ _)) hopens fun close hclose stop =>
      ⟨_, _, Region.body_bare hn.shown hls hlimit hclose stop⟩
  cases b with
  | stmt s => cases hb
  | expr x =>
    rw [hend rfl] at hregions
    refine ⟨x, trims, span, ?_, hregions⟩
    rw [show bare x = bare e.shown from Region.Body.expr.inj hb]
    exact e.move_shown

namespace Template

/-- The text of every expression of a template is read back under every sufficiently large limit: as the
    only node and without diagnostics.  The expression that is read is the same up to groups and places
    unless an item of a plain number is among its parts, and only then.  And no two expressions without
    such parts have the same text, unless they are the same up to groups and places. -/
theorem printed_expr_read_back [Letters] (limit : Nat) (source : String) (n : Node)
    (hn : n ∈ (Settings.parse ⟨.standard, limit⟩ source).template.nodes) (e : Expr) (he : e ∈ n.exprs) :
    (∃ bound, ∀ limit, bound ≤ limit →
      let read := Settings.parse ⟨.standard, limit⟩ (exprSource e.render)
      read.diagnostics = [] ∧ ∃ x trims span, read.template.nodes = [.expr x trims span] ∧
        ((bare x).ungroup = (bare e).ungroup ↔ e.Legible)) ∧
    ∀ (limit' : Nat) (source' : String) (n' : Node) (e' : Expr),
      n' ∈ (Settings.parse ⟨.standard, limit'⟩ source').template.nodes → e' ∈ n'.exprs →
      e.Legible → e'.Legible → e'.render = e.render → (bare e').ungroup = (bare e).ungroup := by
  have hsame : ∀ x : Expr, (bare x).shown.ungroup = (bare x).ungroup ↔ x.Legible :=
    fun x => (Expr.ungroup_shown_iff (bare x)).trans Expr.legible_move
  obtain ⟨bound, hregions⟩ := (normal_of_mem hn he).regions_printed
  refine ⟨⟨bound, fun limit hlimit => ?_⟩, fun limit' source' n' e' hn' he' hlegible hlegible' htext => ?_⟩
  · obtain ⟨x, trims, span, hx, hread⟩ := hregions limit hlimit
    unfold Settings.parse
    dsimp only
    rw [hread]
    refine ⟨rfl, x, trims, span, rfl, ?_⟩
    rw [hx]
    exact hsame e
  · -- Under a limit that is large enough for both, the text is read as both of them.
    obtain ⟨bound', hregions'⟩ := (normal_of_mem hn' he').regions_printed
    obtain ⟨x, trims, span, hx, hread⟩ := hregions (max bound bound') (Nat.le_max_left _ _)
    obtain ⟨x', trims', span', hx', hread'⟩ := hregions' (max bound bound') (Nat.le_max_right _ _)
    rw [htext, hread] at hread'
    cases hread'
    calc (bare e').ungroup
        = (bare e').shown.ungroup := ((hsame e').2 hlegible').symm
      _ = (bare e).shown.ungroup := by rw [← hx', hx]
      _ = (bare e).ungroup := (hsame e).2 hlegible

/-- The sum of a number and an item of a variable is read back as it is. -/
theorem printed_sum_read_back :
    let source := "\x7b\x7b 1 + x.0 \x7d\x7d"
    ∃ n ∈ (parse source).template.nodes, ∃ e ∈ n.exprs, e.render = "(1 + x.0)" ∧ e.Legible ∧
      ∃ bound, ∀ limit, bound ≤ limit →
        let read := Settings.parse ⟨.standard, limit⟩ (exprSource e.render)
        read.diagnostics = [] ∧ ∃ x trims span, read.template.nodes = [.expr x trims span] ∧
          ((bare x).ungroup = (bare e).ungroup ↔ e.Legible) := by
  intro source
  have hsum : (parse source).template.nodes.any (fun n =>
      n.exprs.any fun e => e.render == "(1 + x.0)" && decide e.Legible) = true := by
    decide +kernel
  obtain ⟨n, hn, hexprs⟩ := List.any_eq_true.1 hsum
  obtain ⟨e, he, hboth⟩ := List.any_eq_true.1 hexprs
  rw [Bool.and_eq_true, beq_iff_eq, decide_eq_true_eq] at hboth
  exact ⟨n, hn, e, he, hboth.1, hboth.2, (printed_expr_read_back 64 source n hn e he).1⟩

/-- An item of a number is not read back as it is: `1 .0` is printed as `1.0`, which is a number. -/
theorem printed_number_item_read_as_number :
    ∃ n ∈ (parse "\x7b\x7b 1 .0 \x7d\x7d").template.nodes, ∃ e ∈ n.exprs, e.render = "1.0" ∧
      ∃ bound, ∀ limit, bound ≤ limit → ∃ x trims span,
        (Settings.parse ⟨.standard, limit⟩ (exprSource e.render)).template.nodes =
          [.expr x trims span] ∧ (bare x).ungroup ≠ (bare e).ungroup := by
  have hitem : (parse "\x7b\x7b 1 .0 \x7d\x7d").template.nodes.any (fun n =>
      n.exprs.any fun e => e.render == "1.0" && !decide e.Legible) = true := by
    decide +kernel
  obtain ⟨n, hn, hexprs⟩ := List.any_eq_true.1 hitem
  obtain ⟨e, he, hboth⟩ := List.any_eq_true.1 hexprs
  rw [Bool.and_eq_true, beq_iff_eq, Bool.not_eq_true', decide_eq_false_iff_not] at hboth
  obtain ⟨bound, hregions⟩ := (normal_of_mem hn he).regions_printed
  refine ⟨n, hn, e, he, hboth.1, bound, fun limit hlimit => ?_⟩
  obtain ⟨x, trims, span, hx, hread⟩ := hregions limit hlimit
  refine ⟨x, trims, span, ?_, fun hsame => hboth.2 ?_⟩
  · unfold Settings.parse
    dsimp only
    rw [hread]
    rfl
  · rw [hx] at hsame
    exact Expr.legible_move.1 ((Expr.ungroup_shown_iff _).1 hsame)

end Template

end Stencil
