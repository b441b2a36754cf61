/-
  PrintedStmt — a printed statement is read back.

  The text of a statement, put between the delimiters of a control tag, is read as a tag with the
  statement that the text shows: the same kind of statement with the same names, and with a part exactly
  where the original has one.  So the printed text of a statement determines all of it but groups,
  places, and how alternatives are nested in its patterns.

  The exception is a call that hands over no names and whose callee stands in parentheses:
  `call () (f)(x)` is printed as `call (f)(x)`, where `f` is a name that the call hands over and no call
  follows it.
-/
import Stencil.Proofs.Printing.Stmt
import Stencil.Proofs.Printing.Tag
import Stencil.Proofs.Template.Limit
import Stencil.Template.Equality

namespace Stencil

/-- The source that consists of a control tag with the text inside. -/
def stmtSource (text : String) : String := "\x7b% " ++ text ++ " %\x7d"

theorem toList_stmtSource (text : String) :
    (stmtSource text).toList = tagText .block text.toList := by
  simp [stmtSource, tagText, Delims.openText, Delims.closeText]

/-- Lexemes that are read as a statement are the inside of a control tag. -/
theorem Region.body_of_readsAs {t : Stmt} {ls : List Lexeme} (h : Reader.ReadsAs Reader.stmt t ls)
    {limit : Nat} (hlimit : ls.length < limit) {close : Lexeme} (hclose : close.token = .endBlock)
    (stop : Lexer.Stop) :
    body limit .block (bareFeed stop (ls ++ [close])) =
      .ok ((.stmt (bare t), bare close), bareFeed stop []) := by
  have hcloses : close.token = Token.closes .block := hclose
  unfold body
  dsimp only
  rw [Reader.bind_of_ok (Reader.map_of_ok (h limit stop close [] hlimit hclose)),
    Reader.bind_of_ok (Reader.expect_of_eq hcloses)]
  rfl

theorem StmtKind.isRaw_shown {k : StmtKind} {t : Stmt} (h : bare t.kind = (bare k).shown) (s : Span) :
    t.isRaw = Stmt.isRaw ⟨k, s⟩ := by
  obtain ⟨kind, place⟩ := t
  unfold Stmt.isRaw
  cases kind <;> cases k <;> first | rfl | cases h

/-- The printed text of a statement is read as what it shows, places apart. -/
theorem StmtKind.Normal.regions_printed [Letters] {k : StmtKind} (hn : k.Normal)
    (hbindings : k.opensLikeBindings = false) :
    ∃ bound, ∀ limit, bound ≤ limit → ∃ t trims span rest, bare t.kind = (bare k).shown ∧
      regions ⟨.standard, limit⟩ (Lexer.start (stmtSource k.render).toList) =
        ⟨some (.tag t trims span), none⟩ :: rest ∧ (t.isRaw = false → rest = []) := by
  obtain ⟨hopens, ls, hls, -, hprints⟩ := hn.isShown hbindings
  refine ⟨ls.length + 1, fun limit hlimit => ?_⟩
  rw [toList_stmtSource]
  obtain ⟨b, trims, span, next, hb, hregions, hend⟩ := regions_of_tag
    (hprints .block _ (Expr.follows_blank _ _)) hopens fun close hclose stop =>
      ⟨_, _, Region.body_of_readsAs hls hlimit hclose stop⟩
  cases b with
  | expr e => cases hb
  | stmt t =>
    refine ⟨t, trims, span, _, ?_, hregions, hend⟩
    rw [← StmtKind.bare_shown]
    exact congrArg Stmt.kind (Region.Body.stmt.inj hb)

/-- Whether the node is a tag with such a statement. -/
def Node.isStmt (p : Stmt → Bool) : Node → Bool
  | .tag t _ _ => p t
  | _ => false

namespace Template

/-- The text of every statement of a template is read back under every sufficiently large limit, unless
    it begins like a call with names to hand over and is none.  The first node is a tag with the
    statement that the text shows, so it has the same outline: the same kind, words and names, and the
    same parts.  Unless that statement begins a raw block, the tag is the only node and nothing is wrong
    with it. -/
theorem printed_stmt_read_back [Letters] (limit : Nat) (source : String) (t : Stmt) (trims : Trims) (span : Span)
    (hn : .tag t trims span ∈ (Settings.parse ⟨.standard, limit⟩ source).template.nodes)
    (hbindings : t.kind.opensLikeBindings = false) :
    ∃ bound, ∀ limit, bound ≤ limit →
      let read := Settings.parse ⟨.standard, limit⟩ (stmtSource t.render)
      ∃ t' trims' span' more, read.template.nodes = .tag t' trims' span' :: more ∧
        t'.kind.outline = t.kind.outline ∧ bare t'.kind = (bare t.kind).shown ∧
        (t.isRaw = false → more = [] ∧ read.diagnostics = []) := by
  obtain ⟨bound, hregions⟩ := (stmt_normal hn).regions_printed hbindings
  refine ⟨bound, fun limit hlimit => ?_⟩
  obtain ⟨t', trims', span', rest, ht', hread, hend⟩ := hregions limit hlimit
  unfold Settings.parse Stmt.render
  dsimp only
  rw [hread]
  refine ⟨t', trims', span', rest.filterMap (·.node), rfl, StmtKind.outline_of_bare_eq ht', ht',
    fun hraw => ?_⟩
  rw [hend (by rw [StmtKind.isRaw_shown ht' t.span]; exact hraw)]
  exact ⟨rfl, rfl⟩

/-- A call that hands over a name is read back, though its callee stands in parentheses. -/
theorem printed_call_read_back :
    let source := "\x7b% call (row) (f)(x, 1) %\x7d"
    ∃ t trims span, .tag t trims span ∈ (parse source).template.nodes ∧
      t.render = "call (row) (f)(x, 1)" ∧ t.kind.opensLikeBindings = false ∧
      ∃ bound, ∀ limit, bound ≤ limit →
        let read := Settings.parse ⟨.standard, limit⟩ (stmtSource t.render)
        ∃ t' trims' span' more, read.template.nodes = .tag t' trims' span' :: more ∧
          t'.kind.outline = t.kind.outline ∧ bare t'.kind = (bare t.kind).shown ∧
          (t.isRaw = false → more = [] ∧ read.diagnostics = []) := by
  intro source
  have hcall : (parse source).template.nodes.any (Node.isStmt fun t =>
      t.render == "call (row) (f)(x, 1)" && !t.kind.opensLikeBindings) = true := by
    decide +kernel
  obtain ⟨n, hn, hboth⟩ := List.any_eq_true.1 hcall
  cases n with
  | tag t trims span =>
    dsimp only [Node.isStmt] at hboth
    rw [Bool.and_eq_true, beq_iff_eq, Bool.not_eq_true'] at hboth
    exact ⟨t, trims, span, hn, hboth.1, hboth.2, printed_stmt_read_back 64 source t trims span hn hboth.2⟩
  | _ => cases hboth

/-- A call that hands over no names is not read back if its callee stands in parentheses:
    `call () (f)(x)` is printed as `call (f)(x)`, which is an error under every limit from 64 on. -/
theorem printed_call_read_as_error :
    ∃ t trims span, .tag t trims span ∈ (parse "\x7b% call () (f)(x) %\x7d").template.nodes ∧
      t.render = "call (f)(x)" ∧
      ∀ limit, 64 ≤ limit → ∃ place,
        (Settings.parse ⟨.standard, limit⟩ (stmtSource t.render)).template.nodes = [.error place] := by
  have hcall : (parse "\x7b% call () (f)(x) %\x7d").template.nodes.any
      (Node.isStmt fun t => t.render == "call (f)(x)") = true := by
    decide +kernel
  obtain ⟨n, hn, htext⟩ := List.any_eq_true.1 hcall
  cases n with
  | tag t trims span =>
    dsimp only [Node.isStmt] at htext
    rw [beq_iff_eq] at htext
    refine ⟨t, trims, span, hn, htext, fun limit hlimit => ?_⟩
    rw [htext]
    -- The nesting of the text is not too deep for the lowest of these limits, so all read it alike.
    obtain ⟨more, rfl⟩ := Nat.exists_eq_add_of_le' hlimit
    have hfits : ∀ e ∈ (Settings.parse ⟨.standard, 64⟩ (stmtSource "call (f)(x)")).diagnostics,
        e.kind ≠ .tooDeep := by
      decide +kernel
    have hsame := eq_of_relaxed (regions_relax .standard 64 more
      (Lexer.start (stmtSource "call (f)(x)").toList) rfl) hfits
    have herror : (Settings.parse ⟨.standard, 64⟩ (stmtSource "call (f)(x)")).template.nodes.map
        Node.isError = [true] := by
      decide +kernel
    show ∃ place, (regions ⟨.standard, more + 64⟩ _).filterMap (·.node) = [.error place]
    rw [← hsame]
    obtain ⟨node, heq, hnode⟩ := List.map_eq_singleton_iff.1 herror
    cases node with
    | error place => exact ⟨place, heq⟩
    | _ => cases hnode
  | _ => cases htext

end Template

end Stencil
