/-
  Extent — where a tag ends is settled by its lexemes.

  A machine reads a tag lexeme by lexeme, and the grammar may give up anywhere: at a lexeme that does not fit, at a
  malformed one, at too deep a nesting.  By then the closing delimiter may have been taken, it may wait in the queue
  among others, or the lexer may not have come to it yet.  Where the tag ends does not depend on that: skipping from
  behind the opening delimiter, with no grammar involved, ends where the node does.

  For a tag that is read, the closing delimiter is the last lexeme that has been taken, and the lexer stands right
  behind it; for one that is not, `recover_eq` goes through the places where the delimiter may be.  Both are told of
  the machine alone (`comesOut`, `tag_ends`).  The nodes of a source come from machines on their way through it
  (`Machine.Reached`), which between two nodes stand outside a tag with nothing waiting (`Reached.settled`).
-/
import Stencil.Proofs.Checked.Template

namespace Stencil.Checked

open Reader (next)

variable {s : Settings} {source : List Char} {kind : TagKind} {lx inside : Lexer} {opening : Lexeme} {n : Node}
  {m after : Machine s.delims source} {ns : List Node} {fuel : Nat}

/-! ## Out of a tag -/

/-- How the machine behind an opening delimiter comes out of the tag, at the offset. -/
inductive Machine.ComesOut [Letters] (m : Machine s.delims source) (kind : TagKind) (inside : Lexer) (stop : Nat) :
    Prop
  /-- The tag is read; its closing delimiter is the one that has been taken. -/
  | accepted {found : Region.Body × Lexeme} {m' : Machine s.delims source}
      (program : Region.body s.limit kind m.beginTag = .ok (found, m')) (closed : m'.closed = some found.2.span)
      (ends : found.2.span.stop = stop) (cursor : m'.cursor = stop) (peeked : m'.peeked = [])
  /-- The grammar fails somewhere in the tag, and the machine is recovered from there. -/
  | rejected {diagnostic : Diagnostic} {lost m' : Machine s.delims source}
      (program : Region.body s.limit kind m.beginTag = .error (.failed diagnostic lost)) (left : Left inside lost)
      (recover : (lost.blaming diagnostic).recover = some (stop, m')) (cursor : m'.cursor = stop)
      (peeked : m'.peeked = [])

theorem comesOut [Letters] (hm : inside.mode = .tag kind false) (hstands : m.Stands inside)
    (hpeeked : m.peeked = []) :
    m.ComesOut kind inside (inside.skipTag s.delims).pos := by
  cases reads s.limit hm hstands hpeeked with
  | ok reader program closed stop settled => exact .accepted program closed stop settled.stands.cursor settled.peeked
  | failed reader program left recover settled =>
    exact .rejected program left recover settled.stands.cursor settled.peeked

/-- The node of a tag goes from its opening delimiter to where skipping ends, and the machine goes on from there. -/
theorem tag_ends [Letters] (hm : inside.mode = .tag kind false) (hstands : m.Stands inside)
    (hpeeked : m.peeked = [])
    (hstart : opening.span.start ≤ inside.pos) (hstop : opening.span.stop = inside.pos)
    (htag : Machine.tag kind opening m = some (n, after)) :
    n.span = ⟨opening.span.start, (inside.skipTag s.delims).pos⟩ ∧
      after.cursor = (inside.skipTag s.delims).pos ∧ after.peeked = [] := by
  have hreads := reads s.limit hm hstands hpeeked
  unfold Machine.tag at htag
  cases hreads with
  | @ok found m' rest reader program closed stop settled =>
    obtain ⟨b, closing⟩ := found
    obtain ⟨hmem, -⟩ := Region.closing_mem_of_body (Lexer.regular_feed (fun _ _ => rfl) hm _ _) reader
    have hrow := Lexeme.InRow.start_le (Lexer.inRow_feed (by rw [hm]; exact Mode.noConfusion)) hmem
    obtain ⟨used, hreach⟩ := Lexer.reaches_skipTag s.delims inside
    have hle := hreach.pos_le
    have hjoin : opening.span.join closing.span = ⟨opening.span.start, (inside.skipTag s.delims).pos⟩ := by
      rw [Span.join, stop, hstop, Nat.min_eq_left (Nat.le_trans hstart hrow), Nat.max_eq_right hle]
    rw [program] at htag
    obtain ⟨first, -, htag⟩ := Option.bind_eq_some_iff.1 htag
    obtain ⟨final, -, htag⟩ := Option.bind_eq_some_iff.1 htag
    cases htag
    rw [Region.span_toNode, hjoin]
    cases b.isRaw with
    | true => exact ⟨rfl, settled.stands.cursor, settled.peeked⟩
    | false => exact ⟨rfl, settled.stands.cursor, settled.peeked⟩
  | @failed diagnostic lost m' reader program left recover settled =>
    rw [program] at htag
    dsimp only at htag
    rw [recover] at htag
    cases htag
    exact ⟨rfl, settled.stands.cursor, settled.peeked⟩

/-! ## On the way through a source -/

/-- The machine comes by on its way through the source: it is at the start, or behind a node. -/
inductive Machine.Reached [Letters] (s : Settings) (source : List Char) : Machine s.delims source → Prop
  | start : Reached s source (.start s.delims source)
  | node {m mid after : Machine s.delims source} {l : Lexeme} {n : Node} (h : Reached s source m)
      (taken : Machine.next m = .ok (some l, mid)) (node : Machine.node l mid = some (n, after)) : Reached s source after
  | fault {m after : Machine s.delims source} {diagnostic : Diagnostic} (h : Reached s source m)
      (taken : Machine.next m = .error (.failed diagnostic after)) : Reached s source (after.blaming diagnostic)

/-- Between two nodes the lexer stands outside a tag, and nothing waits. -/
theorem Machine.Reached.settled [Letters] (h : Machine.Reached s source m) : ∃ lx, m.Settled lx := by
  induction h with
  | start => exact ⟨Lexer.start source, ⟨At.start _, rfl, rfl⟩, rfl, rfl⟩
  | @node m mid after l n _ taken node ih =>
    obtain ⟨lx, hsettled⟩ := ih
    cases hstep : lx.step s.delims with
    | done => cases (hsettled.next_of_done hstep).symm.trans taken
    | fault diagnostic nx => cases (hsettled.next_of_fault hstep).symm.trans taken
    | token l' nx =>
      cases (hsettled.next_of_token hstep).symm.trans taken
      obtain ⟨r, place, n', m', -, hnode, hplace, -⟩ := node_eq hsettled hstep
      cases hnode.symm.trans node
      exact ⟨place, hplace⟩
  | @fault m after diagnostic _ taken ih =>
    obtain ⟨lx, hsettled⟩ := ih
    cases hstep : lx.step s.delims with
    | done => cases (hsettled.next_of_done hstep).symm.trans taken
    | token l nx => cases (hsettled.next_of_token hstep).symm.trans taken
    | fault diagnostic' nx =>
      cases (hsettled.next_of_fault hstep).symm.trans taken
      have hturn : Region.Turn s lx _ nx := .fault hstep
      obtain ⟨used, hcovers⟩ := hturn.covers hsettled.outside
      exact ⟨nx, hsettled.turn hcovers rfl rfl hsettled.peeked⟩

/-- A node is given by a machine on its way through the source: for a lexeme, or for a fault. -/
theorem exists_reached_of_mem [Letters] (hreached : Machine.Reached s source m)
    (hrun : Machine.templateFrom fuel m = some (ns, after)) (hn : n ∈ ns) :
    ∃ before, Machine.Reached s source before ∧
      ((∃ l mid behind, Machine.next before = .ok (some l, mid) ∧ Machine.node l mid = some (n, behind)) ∨
        ∃ diagnostic behind, Machine.next before = .error (.failed diagnostic behind) ∧
          Machine.unclosed? s.delims source ⟨before.cursor, behind.cursor⟩ diagnostic.fault = some n) := by
  induction fuel generalizing m ns with
  | zero => cases hrun
  | succ fuel ih =>
    rw [Machine.templateFrom] at hrun
    cases hnext : Machine.next m with
    | error halt =>
      rw [hnext] at hrun
      cases halt with
      | stuck => cases hrun
      | failed diagnostic behind =>
        obtain ⟨n', hn', hrun⟩ := Option.bind_eq_some_iff.1 hrun
        split at hrun
        · cases hrun
          cases hn
        · obtain ⟨⟨ns', final⟩, hrest, hrun⟩ := Option.bind_eq_some_iff.1 hrun
          cases hrun
          rcases List.mem_cons.1 hn with rfl | hmem
          · exact ⟨m, hreached, .inr ⟨diagnostic, behind, hnext, hn'⟩⟩
          · exact ih (.fault hreached hnext) hrest hmem
    | ok found =>
      obtain ⟨found, mid⟩ := found
      rw [hnext] at hrun
      cases found with
      | none =>
        cases hrun
        cases hn
      | some l =>
        obtain ⟨⟨n', behind⟩, hnode, hrun⟩ := Option.bind_eq_some_iff.1 hrun
        obtain ⟨⟨ns', final⟩, hrest, hrun⟩ := Option.bind_eq_some_iff.1 hrun
        cases hrun
        rcases List.mem_cons.1 hn with rfl | hmem
        · exact ⟨m, hreached, .inl ⟨l, mid, behind, hnext, hnode⟩⟩
        · exact ih (.node hreached hnext hnode) hrest hmem

/-- Outside tags there are comments, raw text and content. -/
theorem isTag_of_node? {l : Lexeme} (h : Machine.node? s.delims source l = some n) : n.isTag = false := by
  unfold Machine.node? at h
  split at h
  · obtain ⟨text, -, h⟩ := Option.bind_eq_some_iff.1 h
    cases h
    rfl
  · obtain ⟨trims, -, h⟩ := Option.bind_eq_some_iff.1 h
    cases h
    rfl
  · obtain ⟨text, -, h⟩ := Option.bind_eq_some_iff.1 h
    cases h
    rfl
  · cases h

theorem isTag_of_unclosed? [Letters] {nx : Lexer} {diagnostic : Diagnostic} (hsettled : m.Settled lx)
    (hstep : lx.step s.delims = .fault diagnostic nx)
    (h : Machine.unclosed? s.delims source ⟨lx.pos, nx.pos⟩ diagnostic.fault = some n) : n.isTag = false := by
  cases (Lexer.refuses_of_step hstep).outside hsettled.outside with
  | comment hm hr ho hk hc =>
    obtain ⟨trims, -, h⟩ := Option.bind_eq_some_iff.1 h
    cases h
    rfl
  | raw hm hn =>
    obtain ⟨text, -, h⟩ := Option.bind_eq_some_iff.1 h
    cases h
    rfl

/-- The node of a tag is given by a machine behind the opening delimiter of the tag. -/
theorem exists_opening_of_mem [Letters] (hreached : Machine.Reached s source m)
    (hrun : Machine.templateFrom fuel m = some (ns, after)) (hn : n ∈ ns) (htag : n.isTag = true) :
    ∃ before lx opening inside kind behind, Machine.Reached s source before ∧ before.Settled lx ∧
      lx.step s.delims = .token opening inside ∧ opening.token.opens? = some kind ∧
      Machine.tag kind opening ((before.moved inside).taking opening) = some (n, behind) := by
  obtain ⟨before, hbefore, hgiven⟩ := exists_reached_of_mem hreached hrun hn
  obtain ⟨lx, hsettled⟩ := hbefore.settled
  rcases hgiven with ⟨l, mid, behind, hnext, hnode⟩ | ⟨diagnostic, behind, hnext, hunclosed⟩
  · cases hstep : lx.step s.delims with
    | done => cases (hsettled.next_of_done hstep).symm.trans hnext
    | fault diagnostic nx => cases (hsettled.next_of_fault hstep).symm.trans hnext
    | token l inside =>
      cases (hsettled.next_of_token hstep).symm.trans hnext
      unfold Machine.node at hnode
      cases hopens : l.token.opens? with
      | some kind =>
        rw [hopens] at hnode
        exact ⟨before, lx, l, inside, kind, behind, hbefore, hsettled, hstep, hopens, hnode⟩
      | none =>
        rw [hopens] at hnode
        obtain ⟨n', hn', heq⟩ := Option.map_eq_some_iff.1 hnode
        cases heq
        rw [isTag_of_node? hn'] at htag
        cases htag
  · cases hstep : lx.step s.delims with
    | done => cases (hsettled.next_of_done hstep).symm.trans hnext
    | token l nx => cases (hsettled.next_of_token hstep).symm.trans hnext
    | fault diagnostic' nx =>
      cases (hsettled.next_of_fault hstep).symm.trans hnext
      rw [hsettled.stands.cursor] at hunclosed
      rw [isTag_of_unclosed? hsettled hstep hunclosed] at htag
      cases htag

/-! ## Nodes of a source -/

/-- Every expression, statement and error node ends where the lexer alone ends its tag: at the start of its span
    stands the opening delimiter of a tag, and skipping from behind that delimiter stops at the end of the span; so
    does skipping from any other place that the lexer passes in the tag.

    A machine reads the source node by node.  On its way it comes to the place behind the opening delimiter with
    nothing waiting, and gives the node for the tag: either the grammar accepts, and the closing delimiter that has
    been taken ends there; or it fails, and the machine is recovered.  In whatever state of the tag that happens,
    with the closing delimiter taken, among what waits, or not come to, `recover` gives the end of the span, and the
    machine goes on from there with nothing waiting. -/
theorem tag_ends_where_skipped [Letters] (s : Settings) (source : String) (n : Node)
    (hn : n ∈ (s.parse source).template.nodes) (htag : n.isTag = true) :
    (∃ final, Machine.template s source.toList = some ((s.parse source).template.nodes, final)) ∧
    ∃ (front rest : List Char) (o : Opening) (kind : TagKind),
      source.toList = front ++ rest ∧ byteLen front = n.span.start ∧
      s.delims.openingAt rest = some o ∧ o.kind = .tag kind ∧
      let inside := (Lexer.mk n.span.start rest .template).advance o.size (.tag kind false)
      (inside.skipTag s.delims).pos = n.span.stop ∧
      (∀ place, inside.Passes s.delims place → (place.skipTag s.delims).pos = n.span.stop) ∧
      (∃ before opening m after, Machine.Reached s source.toList before ∧
        Machine.next before = .ok (some opening, m) ∧ m.Stands inside ∧ m.peeked = [] ∧
        m.ComesOut kind inside n.span.stop ∧
        Machine.tag kind opening m = some (n, after) ∧ after.cursor = n.span.stop ∧ after.peeked = []) ∧
      ∀ lost : Machine s.delims source.toList, Left inside lost →
        ∃ m, lost.recover = some (n.span.stop, m) ∧ m.cursor = n.span.stop ∧ m.peeked = [] := by
  obtain ⟨final, hrun, -⟩ := template_eq s source
  obtain ⟨before, lx, opening, inside, kind, after, hreached, hsettled, hstep, hopens, hgiven⟩ :=
    exists_opening_of_mem .start hrun hn htag
  have hemits := Lexer.emits_of_step hstep
  obtain ⟨hreach, hspan⟩ := hemits.reaches
  obtain ⟨hmode, o, ho, hk, -, hinside⟩ := hemits.opening_of_opens hopens hsettled.outside
  obtain ⟨front, hsource, hfront⟩ := hsettled.stands.here
  have hlx : Lexer.mk lx.pos lx.rest .template = lx := by rw [← hmode]
  have hm : inside.mode = .tag kind false := by rw [hinside, Lexer.mode_advance]
  have hstands : ((before.moved inside).taking opening).Stands inside :=
    ⟨hsettled.stands.here.reaches hreach, rfl, rfl⟩
  obtain ⟨hnode, hcursor, hpeeked⟩ := tag_ends hm hstands hsettled.peeked (by rw [hspan]; exact hreach.pos_le)
    (by rw [hspan]) hgiven
  have hstart : n.span.start = lx.pos := by rw [hnode, hspan]
  have hstop : n.span.stop = (inside.skipTag s.delims).pos := by rw [hnode]
  refine ⟨⟨final, hrun⟩, front, lx.rest, o, kind, hsource, by rw [hstart, hfront], ho, hk, ?_⟩
  rw [hstart, hstop, hlx, ← hinside]
  dsimp only
  refine ⟨rfl, fun place hplace => by rw [hplace.skipTag_eq], ?_, fun lost hlost => ?_⟩
  · exact ⟨before, opening, _, after, hreached, hsettled.next_of_token hstep, hstands, hsettled.peeked,
      comesOut hm hstands hsettled.peeked, hgiven, hcursor, hpeeked⟩
  · obtain ⟨m, hrecover, hplace, hqueue, -⟩ := recover_eq hlost
    exact ⟨m, hrecover, hplace.cursor, hqueue⟩

/-- A tag in which the grammar fails at its second lexeme, before a text literal without its closing quote and a
    number that is none: skipping goes on to the same closing delimiter. -/
theorem unread_tag_ends_where_skipped :
    let source := "\x7b\x7b a b 1_x \"c \x7d\x7d \x7b\x7b d \x7d\x7d"
    ∃ n ∈ (parse source).template.nodes, n.isTag = true ∧ n.span = ⟨0, 16⟩ ∧
      ∃ (front rest : List Char) (o : Opening) (kind : TagKind),
        source.toList = front ++ rest ∧ byteLen front = n.span.start ∧
        Delims.standard.openingAt rest = some o ∧ o.kind = .tag kind ∧
        let inside := (Lexer.mk n.span.start rest .template).advance o.size (.tag kind false)
        (inside.skipTag Delims.standard).pos = n.span.stop ∧
        ∀ lost : Machine Delims.standard source.toList, Left inside lost →
          ∃ m, lost.recover = some (n.span.stop, m) ∧ m.cursor = n.span.stop ∧ m.peeked = [] := by
  intro source
  have hfirst : (parse source).template.nodes.any (fun n =>
      n.isTag && n.isError && n.span == ⟨0, 16⟩) = true := by
    decide +kernel
  obtain ⟨n, hn, hall⟩ := List.any_eq_true.1 hfirst
  simp only [Bool.and_eq_true, beq_iff_eq] at hall
  obtain ⟨-, front, rest, o, kind, hsource, hfront, ho, hk, hskip, -, -, hlost⟩ :=
    tag_ends_where_skipped Settings.standard source n hn hall.1.1
  exact ⟨n, hn, hall.1.1, hall.2, front, rest, o, kind, hsource, hfront, ho, hk, hskip, hlost⟩

end Stencil.Checked
