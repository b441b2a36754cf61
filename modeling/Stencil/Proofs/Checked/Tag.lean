/-
  Tag — a machine reads a tag, and gets out of it.

  Behind an opening delimiter the machine and the feed of the tag are in step, so the inside of the tag is read
  alike (`body_agrees`).  Either that succeeds, and the closing delimiter has been taken; or it fails, and the
  machine is lost somewhere in the tag.  In both cases it comes out at the place where skipping the tag ends, with
  nothing in its queue: in the first case it stands there already, in the second one `recover` leads there.
-/
import Stencil.Proofs.Checked.Stmt
import Stencil.Proofs.Template.Extent
import Stencil.Proofs.Template.Parts

namespace Stencil

namespace Checked

open Reader (next)
open Region (body feedOf readTag)

variable {d : Delims} {s : Settings} {source rest : List Char} {lx : Lexer} {l opening : Lexeme} {kind : TagKind}

/-! ## The lexemes of a tag -/

/-- At the place of a closing delimiter of a feed, the delimiter is found again with its modifier. -/
theorem closingAt_of_mem_feed [Letters] {afterDot : Bool} (hat : At source lx.pos lx.rest)
    (hm : lx.mode = .tag kind afterDot) (hl : l ∈ (lx.feed d).1) (hclose : l.token.isClosing = true) :
    ∃ p rest, d.pair (.tag kind) = some p ∧ At source l.span.start rest ∧
      (p.closingAt rest).bind (·.trim) = l.trim := by
  fun_induction Lexer.feed d lx generalizing afterDot with
  | case1 lx h => cases hl
  | case2 lx diagnostic next h => cases hl
  | case3 lx l' next h hclose' =>
    obtain rfl : l = l' := List.mem_singleton.1 hl
    cases (Lexer.emits_of_step h).inTag hm with
    | @closing close hr hc =>
      obtain ⟨p, hp, hclosing⟩ := Option.bind_eq_some_iff.1 hc
      exact ⟨p, lx.rest, hp, hat, by rw [hclosing]; rfl⟩
    | word hr hc ho hs =>
      rw [Lexer.lexeme, (Scan.spells_of_read hs).isClosing] at hclose
      cases hclose
  | case4 lx l' next h hclose' ls stop after heq ih =>
    rw [heq] at ih
    have hmem : l ∈ ls := by
      dsimp only at hl
      split at hl
      · exact hl
      · rcases List.mem_cons.1 hl with rfl | hmem
        · exact absurd hclose hclose'
        · exact hmem
    have hemits := Lexer.emits_of_step h
    rcases hemits.mode_of_tag hm with ⟨htoken, -⟩ | ⟨-, dot, hnext⟩
    · rw [htoken] at hclose'
      exact absurd (Token.isClosing_closes kind) hclose'
    · exact ih (hat.reaches hemits.reaches.1) hnext hmem

/-- The lexemes of a tag stand in the source. -/
theorem sits_feed [Letters] {afterDot : Bool} (hat : At source lx.pos lx.rest) (hm : lx.mode = .tag kind afterDot)
    (stop : Lexer.Stop) (last : Span) : Feed.Sits d source ⟨(lx.feed d).1, stop, last⟩ := by
  have sits_of_lined : ∀ (ls : List Lexeme) (a : Nat), Lexeme.Lined d source a ls →
      ∀ l ∈ ls, l.Sits d source := by
    intro ls
    induction ls with
    | nil => exact fun _ _ l hl => by cases hl
    | cons l' ls ih =>
      rintro a ⟨-, hsits, hlined⟩
      exact List.forall_mem_cons.2 ⟨hsits, ih _ hlined⟩
  obtain ⟨used, hreach⟩ := hat.reaches_start
  have hblank : BlanksBetween source lx.pos lx.pos :=
    ⟨[], hreach.slice (.refl lx), List.forall_mem_nil _⟩
  exact sits_of_lined _ _ (Lexer.lined_feed hreach hm hblank)

/-- A tag has no more lexemes than there are steps to be made. -/
theorem length_lexemes_le [Letters] (d : Delims) (lx : Lexer) : (lx.feed d).1.length ≤ lx.weight := by
  fun_induction Lexer.feed d lx with
  | case1 lx h => exact Nat.zero_le _
  | case2 lx diagnostic next h => exact Nat.zero_le _
  | case3 lx l next h hclose => exact Nat.lt_of_le_of_lt (Nat.zero_le _) (Lexer.step_token_weight h)
  | case4 lx l next h hclose ls stop after heq ih =>
    rw [heq] at ih
    have hlt := Lexer.step_token_weight h
    dsimp only at ih ⊢
    split
    · omega
    · rw [List.length_cons]
      omega

/-! ## The inside of a tag -/

variable {m : Machine d source}

/-- What is fixed while the tag is read in which the machine stands. -/
def Machine.frame (m : Machine d source) (inside : Lexer) : Frame := ⟨inside, m.errors, m.calls⟩

/-- Where a tag begins, machine and feed are in step. -/
theorem live_beginTag [Letters] (hm : lx.mode = .tag kind false) (hstands : m.Stands lx)
    (hpeeked : m.peeked = []) :
    Live (m.frame lx) 0 m.beginTag ⟨(lx.feed d).1, (lx.feed d).2.1, m.last⟩ where
  keeps := ⟨rfl, fun _ hcall => hcall, fun _ hcall => .inl hcall⟩
  depth := rfl
  last := rfl
  closed := rfl
  sits := sits_feed hstands.here hm _ _
  indexes := (Lexer.indexes_feed hm).1
  bounded := Nat.lt_of_le_of_lt (length_lexemes_le d lx) hstands.here.weight_lt
  ahead := by
    have hqueue : m.beginTag.peeked = [] := hpeeked
    refine .going ⟨hstands.here, hstands.cursor, hstands.mode⟩ (.here lx) hm ?_ ?_ rfl
    · rw [hqueue]
      exact List.forall_mem_nil _
    · rw [hqueue, List.nil_append]

/-- When the closing delimiter is found where it must be, it has been taken. -/
theorem expect_closing_agrees [Letters] {t : Frame} {k : Nat} {feed : Feed} (hlive : Live t k m feed)
    (kind : TagKind) :
    Agrees t m feed (Reader.expect (Token.closes kind) : Program d source _) (Reader.expect (Token.closes kind))
      fun l m' _ => Lost t m' ∧ m'.closed = some l.span ∧ m'.calls = m.calls := by
  refine (next_agrees hlive).bind fun found mid rest _ htook => ?_
  cases htook with
  | none live calls stop => exact .unexpected live.lost fun _ => stop
  | @word l _ _ lexemes inside live calls =>
    have hne : l.token ≠ Token.closes kind := fun ht => by
      rw [ht, Token.isClosing_closes] at inside
      cases inside
    dsimp only
    rw [if_neg hne, if_neg hne]
    exact .unexpected live.lost nofun
  | @closing l _ _ lexemes closing closed lost calls =>
    dsimp only
    by_cases ht : l.token = Token.closes kind
    · rw [if_pos ht, if_pos ht]
      exact .pure ⟨lost, closed, calls⟩
    · rw [if_neg ht, if_neg ht]
      exact .unexpected lost nofun

/-- The inside of a tag and its closing delimiter are read alike. -/
theorem body_agrees [Letters] {t : Frame} {feed : Feed} (limit : Nat) (kind : TagKind) (hlive : Live t 0 m feed) :
    Agrees t m feed (body limit kind : Program d source _) (body limit kind) fun found m' _ =>
      Lost t m' ∧ m'.closed = some found.2.span ∧ AllDecoded m'.calls [found.1.part] := by
  have closes : ∀ {p : Program d source Region.Body} {q : Reader Region.Body},
      Follows t 0 [] p q (fun b => [b.part]) →
      Agrees t m feed (do return (← p, ← Reader.expect (Token.closes kind)) : Program d source _)
        (do return (← q, ← Reader.expect (Token.closes kind))) fun found m' _ =>
          Lost t m' ∧ m'.closed = some found.2.span ∧ AllDecoded m'.calls [found.1.part] := by
    intro p q hp
    refine (hp m feed hlive .nil).bind fun b mid left _ hafter => ?_
    refine (expect_closing_agrees hafter.live kind).bind fun l m' rest _ hclosing => .pure ?_
    obtain ⟨hlost, hclosed, hcalls⟩ := hclosing
    exact ⟨hlost, hclosed, hcalls ▸ hafter.decoded⟩
  cases kind with
  | expr => exact closes (Follows.expr.map fun _ => .give_left rfl)
  | block => exact closes (Follows.stmt.map fun _ => .give_left rfl)

/-! ## Out of the tag -/

/-- Between two nodes: the lexer of the machine stands outside a tag, and nothing waits. -/
structure Machine.Settled (m : Machine d source) (lx : Lexer) : Prop where
  stands : m.Stands lx
  outside : lx.inTag = false
  peeked : m.peeked = []

/-- Once the closing delimiter has been taken, it ends where skipping the tag ends, and the machine stands there. -/
theorem Lost.settled [Letters] {t : Frame} {place : Span} (h : Lost t m) (hclosed : m.closed = some place) :
    place.stop = (t.inside.skipTag d).pos ∧ m.Settled (t.inside.skipTag d) := by
  cases h.left with
  | unseen _ _ closed => rw [closed] at hclosed; cases hclosed
  | waits _ _ _ closed => rw [closed] at hclosed; cases hclosed
  | @taken lx _ stands passes out closed pos queue =>
    cases hclosed.symm.trans closed
    rw [passes.skipTag_of_outside out]
    exact ⟨pos, stands, out, queue⟩

/-- Behind an opening delimiter the inside of the tag is read as the reader does, and either way the machine comes
    out of the tag where skipping it ends. -/
inductive Reads [Letters] (limit : Nat) (kind : TagKind) (inside : Lexer) (m : Machine d source) (feed : Feed) :
    Prop
  | ok {found : Region.Body × Lexeme} {m' : Machine d source} {rest : Feed}
      (reader : body limit kind feed = .ok (found, rest)) (program : body limit kind m.beginTag = .ok (found, m'))
      (closed : m'.closed = some found.2.span) (stop : found.2.span.stop = (inside.skipTag d).pos)
      (settled : m'.Settled (inside.skipTag d)) (keeps : (m.frame inside).Keeps m')
      (decoded : AllDecoded m'.calls [found.1.part])
  | failed {diagnostic : Diagnostic} {lost m' : Machine d source} (reader : body limit kind feed = .error diagnostic)
      (program : body limit kind m.beginTag = .error (.failed diagnostic lost)) (left : Left inside lost)
      (recover : (lost.blaming diagnostic).recover = some ((inside.skipTag d).pos, m'))
      (settled : m'.Settled (inside.skipTag d)) (errors : m'.errors = m.errors ++ [diagnostic])
      (calls : m.calls ⊆ m'.calls) (sound : ∀ call ∈ m'.calls, call ∈ m.calls ∨ call.Sound source)

theorem reads [Letters] (limit : Nat) (hm : lx.mode = .tag kind false) (hstands : m.Stands lx)
    (hpeeked : m.peeked = []) :
    Reads limit kind lx m ⟨(lx.feed d).1, (lx.feed d).2.1, m.last⟩ := by
  cases body_agrees limit kind (live_beginTag hm hstands hpeeked) with
  | @ok found m' rest reader program post =>
    obtain ⟨hlost, hclosed, hdecoded⟩ := post
    obtain ⟨hstop, hsettled⟩ := hlost.settled hclosed
    exact .ok reader program hclosed hstop hsettled hlost.keeps hdecoded
  | @failed diagnostic lost reader program hlost =>
    have hleft : Left lx (lost.blaming diagnostic) := hlost.left.congr rfl rfl rfl rfl
    obtain ⟨m', hrecover, hstands', hpeeked', herrors, hcalls⟩ := recover_eq hleft
    have hmode : (lx.skipTag d).mode = .template := Lexer.mode_skipTag (by rw [hm]; exact Mode.noConfusion)
    have hout : (lx.skipTag d).inTag = false := by rw [Lexer.inTag, hmode]
    refine .failed reader program hlost.left hrecover ⟨hstands', hout, hpeeked'⟩ (herrors.trans ?_) ?_ ?_
    · exact congrArg (· ++ [diagnostic]) hlost.keeps.errors
    · exact hcalls ▸ hlost.keeps.calls
    · exact hcalls ▸ hlost.keeps.sound

/-! ## The node of a tag -/

/-- Every literal in the node was given by one of the calls. -/
def DecodedNode (calls : List Decoding) (n : Node) : Prop :=
  ∀ kind trims part, n.inner? = some (kind, trims, part) → Decoded calls part

/-- The regions have been read: the machine has their nodes and diagnostics, what it has decoded for them it has
    decoded soundly, and the literals in their nodes are among it. -/
structure Covered (m : Machine d source) (rs : List Region) (ns : List Node) (m' : Machine d source) : Prop where
  nodes : ns = rs.filterMap (·.node)
  errors : m'.errors = m.errors ++ rs.filterMap (·.diagnostic)
  calls : m.calls ⊆ m'.calls
  sound : ∀ call ∈ m'.calls, call ∈ m.calls ∨ call.Sound source
  decoded : ∀ n ∈ ns, DecodedNode m'.calls n

theorem decodedNode_toNode {calls : List Decoding} {b : Region.Body} {trims : Trims} {span : Span}
    (h : AllDecoded calls [b.part]) : DecodedNode calls (b.toNode trims span) := by
  intro kind trims' part hpart
  cases b <;> cases hpart <;> exact h _ (List.mem_singleton_self _)

/-- A tag is read as its region is: the same node or the same diagnostic, and the machine goes on where the reader
    does. -/
theorem tag_eq [Letters] {m : Machine s.delims source} (hopen : At source opening.span.start rest)
    (htrim : (s.delims.openingAt rest).bind (·.trim) = opening.trim) (hm : lx.mode = .tag kind false)
    (hstands : m.Stands lx) (hpeeked : m.peeked = []) (hlast : m.last = opening.span) :
    ∃ n m', Machine.tag kind opening m = some (n, m') ∧ m'.Settled (readTag s kind opening lx).2 ∧
      Covered m [(readTag s kind opening lx).1] [n] m' := by
  have hskip := (Lexer.passes_feed (d := s.delims) hm).skipTag_eq
  have hreads := reads s.limit hm hstands hpeeked
  rw [hlast] at hreads
  unfold Machine.tag
  cases hreads with
  | @ok found m' left reader program _ _ settled keeps decoded =>
    obtain ⟨b, closing⟩ := found
    have hread : body s.limit kind (feedOf s opening lx) = .ok ((b, closing), left) := reader
    obtain ⟨hmem, htoken⟩ := Region.closing_mem_of_body (Lexer.regular_feed (fun _ _ => rfl) hm _ _) hread
    -- Both modifiers are read again from the source, at the places of the two delimiters.
    obtain ⟨p, back, hp, hclose, hclosing⟩ := closingAt_of_mem_feed hstands.here hm hmem
      (by rw [htoken]; exact Token.isClosing_closes kind)
    rw [Lexer.skipTag_of_outside (Region.outside_of_body hm hread)] at hskip
    rw [program, Region.readTag_of_ok hread]
    simp only [Option.bind_eq_bind, openingTrim?_eq hopen, htrim, Option.bind_some, closingTrim?_eq hp hclose,
      hclosing, Option.pure_def]
    refine ⟨_, _, rfl, ?_, ?_⟩
    · rw [hskip]
      cases b.isRaw with
      | true => exact ⟨⟨settled.stands.here, settled.stands.cursor, rfl⟩, rfl, settled.peeked⟩
      | false => exact settled
    · have hnode : DecodedNode m'.calls (b.toNode ⟨opening.trim, closing.trim⟩ (opening.span.join closing.span)) :=
        decodedNode_toNode decoded
      have herrors : m'.errors = m.errors ++ [] := keeps.errors.trans (List.append_nil _).symm
      cases b.isRaw with
      | true => exact ⟨rfl, herrors, keeps.calls, keeps.sound, List.forall_mem_singleton.2 hnode⟩
      | false => exact ⟨rfl, herrors, keeps.calls, keeps.sound, List.forall_mem_singleton.2 hnode⟩
  | @failed diagnostic lost m' reader program left recover settled errors calls sound =>
    have hread : body s.limit kind (feedOf s opening lx) = .error diagnostic := reader
    rw [program, Region.readTag_of_error hread, hskip]
    dsimp only
    rw [recover]
    refine ⟨.error ⟨opening.span.start, (lx.skipTag s.delims).pos⟩, m', rfl, settled, rfl, errors, calls, sound, ?_⟩
    exact List.forall_mem_singleton.2 fun _ _ _ h => by cases h

end Checked

end Stencil
