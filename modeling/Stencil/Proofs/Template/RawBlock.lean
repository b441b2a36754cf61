/-
  RawBlock — the tag, the body and the end tag of a raw block stand together.

  Three parts of the program have to agree on raw blocks.  The parser turns to a raw body after the tag
  of a raw block and only there; the scanner chooses where the body ends; and the walk over the control
  tags matches the tag with the end tag.  With the standard delimiters they do: where the scanner lets
  the body end, the parser reads an end tag next (`Region.turn_of_isEndRaw`), so the nodes of a template
  are made up of whole raw blocks and of nodes that have nothing to do with any, and only the last block
  can lack its end (`Blocks`, `blocks_regions`).  For the walk a whole block is a tag that is closed at
  once, whatever tags are open around it.
-/
import Stencil.Proofs.Balance.Report
import Stencil.Proofs.Template.Diagnostics
import Stencil.Proofs.Template.EndTag

namespace Stencil

theorem Node.eq_tag_of_isRawTag {n : Node} (h : n.isRawTag = true) :
    ∃ s trims span, n = .tag ⟨.raw, s⟩ trims span := by
  cases n with
  | tag t trims span =>
    obtain ⟨kind, s⟩ := t
    cases kind with
    | raw => exact ⟨s, trims, span, rfl⟩
    | _ => cases h
  | _ => cases h

theorem Node.eq_raw_of_isRaw {n : Node} (h : n.isRaw = true) : ∃ text span, n = .raw text span := by
  cases n with
  | raw text span => exact ⟨text, span, rfl⟩
  | _ => cases h

/-- Whether one of the diagnostics says that a raw block has no end. -/
def lacksEndRaw (reports : List Diagnostic) : Bool := reports.any fun e => e.fault == .unclosedRaw

/-! ## The nodes of a template -/

/-- The nodes are whole raw blocks, and nodes that neither begin one nor are the body of one; if `cut`
    says so, a raw block without its end tag comes last, with its body unless that is empty. -/
inductive Blocks : List Node → Bool → Prop
  | nil : Blocks [] false
  | plain {n : Node} {nodes : List Node} {cut : Bool} (hraw : n.isRaw = false)
      (htag : n.isRawTag = false) (h : Blocks nodes cut) : Blocks (n :: nodes) cut
  | block {start text stop : Node} {nodes : List Node} {cut : Bool} (hstart : start.isRawTag = true)
      (htext : text.isRaw = true) (hstop : stop.isEndRaw = true) (h : Blocks nodes cut) :
      Blocks (start :: text :: stop :: nodes) cut
  | cutBody {start text : Node} (hstart : start.isRawTag = true) (htext : text.isRaw = true) :
      Blocks [start, text] true
  | cutEmpty {start : Node} (hstart : start.isRawTag = true) : Blocks [start] true

namespace Region

variable {s : Settings} {lx next : Lexer} {r : Region} {n : Node}

/-- A node is the body of a raw block exactly if one has begun. -/
theorem Turn.isRaw_of_node [Letters] (h : Turn s lx r next) (hout : lx.inTag = false) (hn : r.node = some n) :
    n.isRaw = true ↔ lx.mode = .raw := by
  have template : n.isRaw = false → lx.mode = .template → (n.isRaw = true ↔ lx.mode = .raw) := by
    intro hraw hm
    rw [hraw, hm]
    exact iff_of_false Bool.noConfusion Mode.noConfusion
  obtain ⟨used, hcovers⟩ := h.covers hout
  cases hraw : n.isRaw with
  | false =>
    rw [← hraw]
    exact template hraw ((hcovers.node n hn).2 hraw).1
  | true =>
    refine iff_of_true rfl ?_
    obtain ⟨text, span, rfl⟩ := Node.eq_raw_of_isRaw hraw
    cases h with
    | fault h =>
      cases (Lexer.refuses_of_step h).outside hout with
      | raw hm => exact hm
      | comment hm =>
        simp only [ofFault] at hn
        split at hn <;> cases hn
    | @tag l kind inside h hl =>
      cases hbody : body s.limit kind (feedOf s l inside) with
      | ok result =>
        obtain ⟨⟨b, closing⟩, rest⟩ := result
        rw [readTag_of_ok hbody] at hn
        cases b <;> cases hn
      | error e =>
        rw [readTag_of_error hbody] at hn
        cases hn
    | @lexeme l next h hl =>
      cases (Lexer.emits_of_step h).outside hout hl with
      | raw hm => exact hm
      | content hm => cases hn
      | comment hm => cases hn

/-- After a turn in content either a raw body comes, and the turn gave the tag of the raw block, or
    content comes. -/
theorem Turn.mode_next [Letters] (h : Turn s lx r next) (hm : lx.mode = .template) :
    ∃ n, r.node = some n ∧ n.isRaw = false ∧
      ((n.isRawTag = true ∧ next.mode = .raw ∧ r.diagnostic = none) ∨
        (n.isRawTag = false ∧ next.mode = .template ∧ ∀ e ∈ r.diagnostic, e.fault ≠ .unclosedRaw)) := by
  have hout : lx.inTag = false := by
    unfold Lexer.inTag
    rw [hm]
  obtain ⟨n, hn⟩ := h.exists_node hm
  have hraw : n.isRaw = false := by
    rw [Bool.eq_false_iff]
    intro hraw
    have hmode := (h.isRaw_of_node hout hn).1 hraw
    rw [hm] at hmode
    cases hmode
  refine ⟨n, hn, hraw, ?_⟩
  obtain ⟨used, hcovers⟩ := h.covers hout
  cases h.told hout with
  | @fine m herror hopen hmode =>
    cases hn
    cases htag : n.isRawTag with
    | true => exact .inl ⟨rfl, hmode.2 htag, rfl⟩
    | false =>
      refine .inr ⟨rfl, Lexer.mode_eq_template ?_ ?_, fun e he => by cases he⟩
      · rw [hcovers.outside]
        exact Bool.false_ne_true
      · intro hnext
        rw [hmode.1 hnext] at htag
        cases htag
  | @failing m e hfails hlast hmode htag howns hpiece =>
    cases hn
    refine .inr ⟨htag, hmode, fun e' he' hfault => ?_⟩
    cases he'
    have howned := howns.fault
    rw [hfault] at howned
    cases n with
    | raw text span => cases hraw
    | _ => cases howned
  | emptyRaw hm' => rw [hm] at hm'; cases hm'

/-- A raw body goes up to its end tag, or to the end of the source with a complaint. -/
theorem turn_of_raw [Letters] (limit : Nat) (hm : lx.mode = .raw) :
    (∃ text span next, Turn ⟨.standard, limit⟩ lx ⟨some (.raw text span), none⟩ next ∧
      next.mode = .template ∧ Delims.standard.isEndRaw next.rest = true) ∨
    ∃ node e next, Turn ⟨.standard, limit⟩ lx ⟨node, some e⟩ next ∧
      (∀ n ∈ node, n.isRaw = true) ∧ e.fault = .unclosedRaw ∧ regions ⟨.standard, limit⟩ next = [] := by
  let s : Settings := ⟨.standard, limit⟩
  cases hlength : Delims.standard.rawLength lx.rest with
  | some n =>
    have hstep : lx.step s.delims = _ := Lexer.step_of_emits (.raw hm hlength)
    exact .inl ⟨_, _, _, .lexeme hstep rfl, rfl, (Delims.rawLength_eq_some_iff.1 hlength).1⟩
  | none =>
    have hstep : lx.step s.delims = _ := Lexer.step_of_refuses (.raw hm hlength)
    refine .inr ⟨_, _, _, .fault hstep, fun n hn => ?_, rfl, ?_⟩
    · simp only [Option.mem_def] at hn
      split at hn <;> cases hn
      rfl
    · rw [Lexer.advance, List.drop_length]
      exact regions_nil s _

end Region

/-- In content, a run reads whole raw blocks and nodes that have nothing to do with any; at its end one
    may lack its end tag, and exactly then this is reported. -/
theorem blocks_regions [Letters] (limit : Nat) (lx : Lexer) (hm : lx.mode = .template) :
    Blocks ((regions ⟨.standard, limit⟩ lx).filterMap (·.node))
      (lacksEndRaw ((regions ⟨.standard, limit⟩ lx).filterMap (·.diagnostic))) := by
  let s : Settings := ⟨.standard, limit⟩
  -- By the weight of the place, since a raw block takes three turns together.
  induction hw : lx.weight using Nat.strongRecOn generalizing lx with
  | ind w ih =>
    rcases done_or_turn s lx with hdone | ⟨r, next, hturn⟩
    · rw [regions_of_done hdone]
      exact .nil
    have hlt := hturn.weight_lt
    obtain ⟨n, hn, hraw, htag | htag⟩ := hturn.mode_next hm
    · -- The body of the block comes next, and if it ends, its end tag after it.
      obtain ⟨htag, hmode, hnone⟩ := htag
      rcases Region.turn_of_raw limit hmode with hbody | hbody
      · obtain ⟨text, span, after, hturn', hmode', hend⟩ := hbody
        obtain ⟨place, trims, span', last, hturn''⟩ := Region.turn_of_isEndRaw limit hmode' hend
        obtain ⟨m, hnode, -, hlast⟩ := hturn''.mode_next hmode'
        cases hnode
        have hlastMode : last.mode = .template := by
          rcases hlast with ⟨htag', -⟩ | ⟨-, hlastMode, -⟩
          · cases htag'
          · exact hlastMode
        have hlt' := hturn'.weight_lt
        have hlt'' := hturn''.weight_lt
        have hrest := ih last.weight (by omega) last hlastMode rfl
        rw [hturn.regions_eq, hturn'.regions_eq, hturn''.regions_eq, List.filterMap_cons_some hn,
          List.filterMap_cons_none hnone]
        exact .block htag rfl rfl hrest
      -- The source ends in the body, which is reported.
      · obtain ⟨node, e, after, hturn', hnode, hfault, hover⟩ := hbody
        rw [hturn.regions_eq, hturn'.regions_eq, hover, List.filterMap_cons_some hn,
          List.filterMap_cons_none hnone]
        have hlacks : lacksEndRaw [e] = true := by
          unfold lacksEndRaw
          rw [List.any_cons, hfault]
          rfl
        cases node with
        | none =>
          show Blocks [n] (lacksEndRaw [e])
          rw [hlacks]
          exact .cutEmpty htag
        | some m =>
          show Blocks [n, m] (lacksEndRaw [e])
          rw [hlacks]
          exact .cutBody htag (hnode m rfl)
    -- No raw block begins, and whatever is reported of the node is about something else.
    · obtain ⟨htag, hmode, hother⟩ := htag
      have hrest := ih next.weight (by omega) next hmode rfl
      have hreports : lacksEndRaw ((r :: regions s next).filterMap (·.diagnostic)) =
          lacksEndRaw ((regions s next).filterMap (·.diagnostic)) := by
        cases hd : r.diagnostic with
        | none => rw [List.filterMap_cons_none hd]
        | some e =>
          rw [List.filterMap_cons_some hd, lacksEndRaw, List.any_cons, beq_false_of_ne (hother e hd)]
          rfl
      rw [hturn.regions_eq, hreports, List.filterMap_cons_some hn]
      exact .plain hraw htag hrest

/-! ## Neighbours -/

theorem Node.isRaw_of_isRawTag {n : Node} (h : n.isRawTag = true) : n.isRaw = false := by
  obtain ⟨s, trims, span, rfl⟩ := eq_tag_of_isRawTag h
  rfl

theorem Node.of_isEndRaw {n : Node} (h : n.isEndRaw = true) : n.isRaw = false ∧ n.isRawTag = false := by
  obtain ⟨s, trims, span, rfl⟩ := eq_tag_of_isEndRaw h
  exact ⟨rfl, rfl⟩

namespace Blocks

variable {nodes before after : List Node} {n : Node} {cut : Bool}

/-- What stands around the body of a raw block. -/
theorem around_raw (h : Blocks nodes cut) (hsplit : nodes = before ++ n :: after)
    (hn : n.isRaw = true) :
    (∃ t, before.getLast? = some t ∧ t.isRawTag = true) ∧
      ((∃ t, after.head? = some t ∧ t.isEndRaw = true) ∨ after = [] ∧ cut = true) := by
  have behind : ∀ {m : Node} {before : List Node},
      (∃ t, before.getLast? = some t ∧ t.isRawTag = true) →
      ∃ t, (m :: before).getLast? = some t ∧ t.isRawTag = true := by
    rintro m before ⟨t, hlast, ht⟩
    exact ⟨t, by rw [List.getLast?_cons, hlast]; rfl, ht⟩
  have other : ∀ {m : Node}, m.isRaw = false → n ≠ m := by
    rintro m hm rfl
    rw [hn] at hm
    cases hm
  -- A block is three nodes in a row, so where the row is split is told by the first nodes of `before`.
  induction h generalizing before with
  | nil => cases before <;> cases hsplit
  | plain hraw _ _ ih =>
    cases before with
    | nil => exact absurd (List.cons.inj hsplit).1.symm (other hraw)
    | cons _ before =>
      obtain ⟨hbefore, hafter⟩ := ih (List.cons.inj hsplit).2
      exact ⟨behind hbefore, hafter⟩
  | @block start text stop nodes cut hstart _ hstop _ ih =>
    rcases before with _ | ⟨a, _ | ⟨b, _ | ⟨c, before⟩⟩⟩
    · cases hsplit
      exact absurd rfl (other (Node.isRaw_of_isRawTag hstart))
    · cases hsplit
      exact ⟨⟨start, rfl, hstart⟩, .inl ⟨stop, rfl, hstop⟩⟩
    · cases hsplit
      exact absurd rfl (other (Node.of_isEndRaw hstop).1)
    · cases hsplit
      obtain ⟨hbefore, hafter⟩ := ih rfl
      exact ⟨behind (behind (behind hbefore)), hafter⟩
  | @cutBody start text hstart _ =>
    rcases before with _ | ⟨a, _ | ⟨b, before⟩⟩
    · cases hsplit
      exact absurd rfl (other (Node.isRaw_of_isRawTag hstart))
    · cases hsplit
      exact ⟨⟨start, rfl, hstart⟩, .inr ⟨rfl, rfl⟩⟩
    · cases before <;> cases hsplit
  | cutEmpty hstart =>
    rcases before with _ | ⟨a, before⟩
    · cases hsplit
      exact absurd rfl (other (Node.isRaw_of_isRawTag hstart))
    · cases before <;> cases hsplit

/-- What stands behind the tag of a raw block. -/
theorem behind_rawTag (h : Blocks nodes cut) (hsplit : nodes = before ++ n :: after)
    (hn : n.isRawTag = true) :
    (∃ t, after.head? = some t ∧ t.isRaw = true) ∨ after = [] ∧ cut = true := by
  have other : ∀ {m : Node}, m.isRawTag = false → n ≠ m := by
    rintro m hm rfl
    rw [hn] at hm
    cases hm
  have notTag : ∀ {m : Node}, m.isRaw = true → m.isRawTag = false := by
    intro m hm
    obtain ⟨text, span, rfl⟩ := Node.eq_raw_of_isRaw hm
    rfl
  induction h generalizing before with
  | nil => cases before <;> cases hsplit
  | plain _ htag _ ih =>
    cases before with
    | nil => exact absurd (List.cons.inj hsplit).1.symm (other htag)
    | cons _ before => exact ih (List.cons.inj hsplit).2
  | @block start text stop nodes cut _ htext hstop _ ih =>
    rcases before with _ | ⟨a, _ | ⟨b, _ | ⟨c, before⟩⟩⟩
    · cases hsplit
      exact .inl ⟨text, rfl, htext⟩
    · cases hsplit
      exact absurd rfl (other (notTag htext))
    · cases hsplit
      exact absurd rfl (other (Node.of_isEndRaw hstop).2)
    · cases hsplit
      exact ih rfl
  | @cutBody start text _ htext =>
    rcases before with _ | ⟨a, _ | ⟨b, before⟩⟩
    · cases hsplit
      exact .inl ⟨text, rfl, htext⟩
    · cases hsplit
      exact absurd rfl (other (notTag htext))
    · cases before <;> cases hsplit
  | cutEmpty _ =>
    rcases before with _ | ⟨a, before⟩
    · cases hsplit
      exact .inr ⟨rfl, rfl⟩
    · cases before <;> cases hsplit

end Blocks

/-! ## The walk over the control tags -/

/-- A raw block that begins at the end of a row stays open. -/
theorem Balance.exists_unclosed_raw (stack : Stack) (span : Span) :
    ∃ e ∈ check stack [(.raw, span)], e.fault = .unbalanced (.unclosed .raw) :=
  ⟨_, mem_finish_iff.2 ⟨⟨.raw, span, none, false⟩, List.mem_cons_self, rfl⟩, rfl⟩

/-- The statement of a control tag and the place of the tag. -/
def Node.stmtAt? : Node → Option (StmtKind × Span)
  | tag t _ span => some (t.kind, span)
  | _ => none

theorem Template.validate_eq (t : Template) :
    t.validate = Balance.check [] (t.nodes.filterMap Node.stmtAt?) := by
  have hrow : ∀ (i : Nat) (nodes : List Node),
      (tagsFrom i nodes).map (fun place => (place.2.1.kind, place.2.2)) =
        nodes.filterMap Node.stmtAt? := by
    intro i nodes
    induction nodes generalizing i with
    | nil => rfl
    | cons n nodes ih =>
      cases n with
      | tag stmt trims span => exact congrArg ((stmt.kind, span) :: ·) (ih (i + 1))
      | _ => exact ih (i + 1)
  exact congrArg (Balance.check []) (hrow 0 t.nodes)

namespace Blocks

variable {nodes : List Node} {cut : Bool}

/-- A raw block is still open at the end of the walk exactly if one lacks its end tag. -/
theorem unclosed_iff (h : Blocks nodes cut) (stack : Balance.Stack)
    (hstack : ∀ o ∈ stack, o.kind ≠ .raw) :
    (∃ e ∈ Balance.check stack (nodes.filterMap Node.stmtAt?),
      e.fault = .unbalanced (.unclosed .raw)) ↔ cut = true := by
  -- Between blocks the stack holds no raw block: only its own tag opens one, and a whole block closes it.
  induction h generalizing stack with
  | nil =>
    refine iff_of_false ?_ Bool.noConfusion
    rintro ⟨e, he, hfault⟩
    obtain ⟨o, ho, rfl⟩ := Balance.mem_finish_iff.1 he
    injection hfault with hfault
    injection hfault with hkind
    exact hstack o ho hkind
  | @plain n nodes cut _ htag _ ih =>
    cases n with
    | tag t trims span =>
      have hkind : t.kind ≠ .raw := by
        intro hkind
        rw [Node.isRawTag, Stmt.isRaw, hkind] at htag
        cases htag
      obtain ⟨hopened, hproblem⟩ := Balance.visit_visits stack t.kind span
      have hstack' : ∀ o ∈ (Balance.visit stack t.kind span).1, o.kind ≠ .raw := by
        intro o ho hraw
        rcases hopened o ho with ⟨o', ho', hsame, -⟩ | ⟨-, hopens⟩
        · exact hstack o' ho' (hsame.trans hraw)
        · exact hkind (hopens hraw)
      rw [← ih _ hstack']
      constructor
      · rintro ⟨e, he, hfault⟩
        rcases List.mem_append.1 he with hmem | hmem
        · exact absurd hfault ((hproblem e (Option.mem_toList.1 hmem)).2 .raw)
        · exact ⟨e, hmem, hfault⟩
      · rintro ⟨e, he, hfault⟩
        exact ⟨e, List.mem_append_right _ he, hfault⟩
    | _ => exact ih stack hstack
  | block hstart htext hstop _ ih =>
    obtain ⟨s, trims, span, rfl⟩ := Node.eq_tag_of_isRawTag hstart
    obtain ⟨text, place, rfl⟩ := Node.eq_raw_of_isRaw htext
    obtain ⟨s', trims', span', rfl⟩ := Node.eq_tag_of_isEndRaw hstop
    exact ih stack hstack
  | cutBody hstart htext =>
    obtain ⟨s, trims, span, rfl⟩ := Node.eq_tag_of_isRawTag hstart
    obtain ⟨text, place, rfl⟩ := Node.eq_raw_of_isRaw htext
    exact iff_of_true (Balance.exists_unclosed_raw stack span) rfl
  | cutEmpty hstart =>
    obtain ⟨s, trims, span, rfl⟩ := Node.eq_tag_of_isRawTag hstart
    exact iff_of_true (Balance.exists_unclosed_raw stack span) rfl

end Blocks

theorem Node.span_of_stmtAt? {n : Node} {place : StmtKind × Span} (h : n.stmtAt? = some place) :
    place.2 = n.span := by
  cases n with
  | tag t trims span => cases h; rfl
  | _ => cases h

/-- The places of the tags are places of nodes. -/
theorem exists_node_of_place {nodes : List Node} {span : Span}
    (h : span ∈ (nodes.filterMap Node.stmtAt?).map Prod.snd) : ∃ n ∈ nodes, n.span = span := by
  obtain ⟨place, hplace, rfl⟩ := List.mem_map.1 h
  obtain ⟨n, hn, hat⟩ := List.mem_filterMap.1 hplace
  exact ⟨n, hn, (Node.span_of_stmtAt? hat).symm⟩

/-- Where nodes stand side by side, no other node has the place of one that is not empty. -/
theorem Template.Tiles.span_ne {p q : Nat} {before after : List Node} {n m : Node}
    (h : Tiles p (before ++ n :: after) q) (hn : n.span.start < n.span.stop)
    (hm : m ∈ before ∨ m ∈ after) : m.span ≠ n.span := by
  have behind : ∀ {p : Nat} {nodes : List Node}, Tiles p nodes q → ∀ m ∈ nodes, p ≤ m.span.start := by
    intro p nodes h
    induction nodes generalizing p with
    | nil => exact List.forall_mem_nil _
    | cons k nodes ih =>
      obtain ⟨hstart, hle, hrest⟩ := h
      intro m hm
      rcases List.mem_cons.1 hm with rfl | hmem
      · exact hstart.ge
      · exact hstart ▸ hle.trans (ih hrest m hmem)
  induction before generalizing p with
  | nil =>
    obtain ⟨-, -, hrest⟩ := h
    have hmem := hm.resolve_left List.not_mem_nil
    have hle := behind hrest m hmem
    intro heq
    rw [heq] at hle
    omega
  | cons k before ih =>
    obtain ⟨-, -, hrest⟩ := h
    rcases hm with hmem | hmem
    · rcases List.mem_cons.1 hmem with rfl | hmem
      · have hle := behind hrest n (List.mem_append_right _ List.mem_cons_self)
        intro heq
        rw [heq] at hle
        omega
      · exact ih hrest (.inl hmem)
    · exact ih hrest (.inr hmem)

namespace Template

variable {nodes before after : List Node} {n t : Node} {cut : Bool}

/-- No complaint of the walk is about the end tag of a raw block that has a body. -/
theorem span_ne_of_endRaw {q : Nat} (hblocks : Blocks nodes cut) (htiles : Tiles 0 nodes q)
    (hsplit : nodes = before ++ n :: t :: after) (hn : n.isRaw = true) (ht : t.isEndRaw = true)
    (hne : t.span.start < t.span.stop) {e : Diagnostic}
    (he : e ∈ Balance.check [] (nodes.filterMap Node.stmtAt?)) : e.span ≠ t.span := by
  -- The tag that opens the block stands right before its body.
  obtain ⟨⟨start, hlast, hstart⟩, -⟩ := hblocks.around_raw hsplit hn
  obtain ⟨front, hfront⟩ := List.getLast?_eq_some_iff.1 hlast
  obtain ⟨s, trims, span, rfl⟩ := Node.eq_tag_of_isRawTag hstart
  obtain ⟨text, place, rfl⟩ := Node.eq_raw_of_isRaw hn
  obtain ⟨s', trims', span', rfl⟩ := Node.eq_tag_of_isEndRaw ht
  have hrow : nodes.filterMap Node.stmtAt? = front.filterMap Node.stmtAt? ++
      (.raw, span) :: (.endRaw, span') :: after.filterMap Node.stmtAt? := by
    rw [hsplit, hfront, List.append_assoc, List.filterMap_append]
    rfl
  -- The walk goes through the block as if it were not there.
  obtain ⟨problems, stack, hcheck, hproblems, hstack⟩ := Balance.check_append []
    (front.filterMap Node.stmtAt?) ((.raw, span) :: (.endRaw, span') :: after.filterMap Node.stmtAt?)
  rw [hrow, hcheck, Balance.check_raw_endRaw] at he
  have hplace : ∃ m, (m ∈ before ++ [.raw text place] ∨ m ∈ after) ∧ m.span = e.span := by
    have infront : e.span ∈ (front.filterMap Node.stmtAt?).map Prod.snd →
        ∃ m, (m ∈ before ++ [.raw text place] ∨ m ∈ after) ∧ m.span = e.span := by
      intro hmem
      obtain ⟨m, hm, hspan⟩ := exists_node_of_place hmem
      rw [hfront]
      exact ⟨m, .inl (List.mem_append_left _ (List.mem_append_left _ hm)), hspan⟩
    rcases List.mem_append.1 he with hmem | hmem
    · exact infront (hproblems e hmem).1
    · rcases Balance.span_of_mem_check hmem with hbehind | ⟨o, ho, hspan⟩
      · obtain ⟨m, hm, hspan⟩ := exists_node_of_place hbehind
        exact ⟨m, .inr hm, hspan⟩
      · rcases hstack o ho with ⟨o', ho', -⟩ | ⟨hmem', -⟩
        · cases ho'
        · exact infront (hspan ▸ hmem')
  obtain ⟨m, hm, hspan⟩ := hplace
  rw [hsplit, List.append_cons] at htiles
  rw [← hspan]
  exact htiles.span_ne hne hm

theorem lacksEndRaw_iff {reports : List Diagnostic} :
    lacksEndRaw reports = true ↔ ∃ e ∈ reports, e.fault = .unclosedRaw := by
  unfold lacksEndRaw
  rw [List.any_eq_true]
  exact exists_congr fun e => and_congr_right fun _ => beq_iff_eq

end Template

/-- The parser and the walk over the control tags agree on the raw blocks of a source. -/
structure Parsed.RawBlocksAgree (parsed : Parsed) : Prop where
  /-- The body of a raw block stands between the tag and an end tag; or it is the last node, and that a
      raw block has no end is reported. -/
  body : ∀ before n after, parsed.template.nodes = before ++ n :: after → n.isRaw = true →
    (∃ t, before.getLast? = some t ∧ t.isRawTag = true) ∧
      ((∃ t, after.head? = some t ∧ t.isEndRaw = true) ∨
        after = [] ∧ ∃ e ∈ parsed.diagnostics, e.fault = .unclosedRaw)
  /-- Behind the tag of a raw block stands a body; or the tag is the last node, and this is reported. -/
  tag : ∀ before n after, parsed.template.nodes = before ++ n :: after → n.isRawTag = true →
    (∃ t, after.head? = some t ∧ t.isRaw = true) ∨
      after = [] ∧ ∃ e ∈ parsed.diagnostics, e.fault = .unclosedRaw
  /-- The walk finds a raw block that is not closed exactly if the parser does. -/
  unclosed : (∃ e ∈ parsed.validate, e.fault = .unbalanced (.unclosed .raw)) ↔
    ∃ e ∈ parsed.diagnostics, e.fault = .unclosedRaw
  /-- The walk never complains about the end tag behind a body. -/
  endTag : ∀ before n t after, parsed.template.nodes = before ++ n :: t :: after →
    n.isRaw = true → t.isEndRaw = true → ∀ e ∈ parsed.validate, e.span ≠ t.span

/-- With the standard delimiters, the parser and the walk over the control tags agree on the raw blocks
    of every source. -/
theorem Template.raw_blocks_agree [Letters] (limit : Nat) (source : String) :
    (Settings.parse ⟨.standard, limit⟩ source).RawBlocksAgree := by
  let parsed := Settings.parse ⟨.standard, limit⟩ source
  have hblocks : Blocks parsed.template.nodes (lacksEndRaw parsed.diagnostics) :=
    blocks_regions limit (Lexer.start source.toList) rfl
  have hcovering : Covering 0 parsed.template.nodes source.toList :=
    covering_parse ⟨.standard, limit⟩ source
  have hvalidate : parsed.validate =
      Balance.check [] (parsed.template.nodes.filterMap Node.stmtAt?) :=
    validate_eq parsed.template
  constructor
  · intro before n after hsplit hn
    rw [← lacksEndRaw_iff]
    exact hblocks.around_raw hsplit hn
  · intro before n after hsplit hn
    rw [← lacksEndRaw_iff]
    exact hblocks.behind_rawTag hsplit hn
  · rw [← lacksEndRaw_iff]
    have hunclosed := hblocks.unclosed_iff [] (List.forall_mem_nil _)
    rw [← hvalidate] at hunclosed
    exact hunclosed
  · intro before n t after hsplit hn ht e he
    have hmem : t ∈ parsed.template.nodes := by
      rw [show parsed.template.nodes = _ from hsplit]
      exact List.mem_append_right _ (List.mem_cons_of_mem n List.mem_cons_self)
    obtain ⟨front, piece, back, -, hspan, hne⟩ := hcovering.piece_of_mem hmem
    have hpos := byteLen_pos (hne (Node.of_isEndRaw ht).1)
    have hlt : t.span.start < t.span.stop := by
      rw [hspan, byteLen_append]
      show 0 + byteLen front < 0 + (byteLen front + byteLen piece)
      omega
    rw [show (Settings.parse ⟨.standard, limit⟩ source).validate = _ from hvalidate] at he
    exact span_ne_of_endRaw hblocks hcovering.tiles hsplit hn ht hlt he

end Stencil
