/-
  Literals — what a source decodes, and where its lexical diagnostics come from.

  A machine notes every call that decodes a literal, with what it gave.  All of these calls are sound: a literal that
  the lexer has let pass is never refused later, and a number behind a dot is a row of digits.  The literals in the
  nodes are what the calls gave, so none is decoded past the machine (`lexed_literals_decode`).

  So when a tag fails with a lexical diagnostic, it is either the one that its lexemes stop with, or the refusal of a
  tuple index that is too large.  The lexemes of a tag stop with what a step of the lexer has reported
  (`Reachable.feed`).
-/
import Stencil.Proofs.Checked.Progress
import Stencil.Proofs.Checked.Template
import Stencil.Proofs.Template.Diagnostics

namespace Stencil

/-! ## Lexical diagnostics -/

namespace Lexer

variable {d : Delims} {source : List Char} {lx : Lexer}

/-- At some place that the lexer can come to in the source, its step reports the diagnostic. -/
def Raises [Letters] (d : Delims) (source : List Char) (diagnostic : Diagnostic) : Prop :=
  ∃ place next, Reachable d source place ∧ place.step d = .fault diagnostic next

/-- The lexemes of a tag lead to a place that the lexer can come to, and they stop with nothing but what a step
    reports. -/
theorem Reachable.feed [Letters] (h : Reachable d source lx) :
    Reachable d source (lx.feed d).2.2 ∧
      ∀ diagnostic, (lx.feed d).2.1 = .fault diagnostic → Raises d source diagnostic := by
  fun_induction Lexer.feed d lx with
  | case1 lx hstep => exact ⟨h, fun diagnostic hstop => by cases hstop⟩
  | case2 lx diagnostic next hstep =>
    refine ⟨h.fault hstep, fun diagnostic' hstop => ?_⟩
    cases hstop
    exact ⟨lx, next, h, hstep⟩
  | case3 lx l next hstep hclose => exact ⟨h.token hstep, fun diagnostic hstop => by cases hstop⟩
  | case4 lx l next hstep hclose ls stop after heq ih =>
    rw [heq] at ih
    exact ih (h.token hstep)

end Lexer

/-- Of the complaints that the grammar makes of its own, the one about a tuple index is lexical. -/
theorem Fault.message_of_isGrammar {f : Fault} {fault : LexFault} (h : f.isGrammar = true)
    (hk : f.kind = .lex fault) : f.message = "tuple index out of range" := by
  cases f with
  | indexTooLarge => rfl
  | unexpected => cases hk
  | tooDeep => cases hk
  | _ => cases h

/-- If the diagnostic is lexical and not about a tuple index, then the lexer raises it in the source. -/
def Diagnostic.FromLexer [Letters] (d : Delims) (source : List Char) (diagnostic : Diagnostic) : Prop :=
  ∀ fault, diagnostic.kind = .lex fault → diagnostic.message ≠ "tuple index out of range" →
    Lexer.Raises d source diagnostic

namespace Region

open Lexer (Reachable)

variable {s : Settings} {source : List Char} {lx next : Lexer} {l : Lexeme} {kind : TagKind} {r : Region}

/-- What a tag complains about: a fault among its lexemes, or something that the grammar finds. -/
theorem fromLexer_of_explains [Letters] {opening : Lexeme} {diagnostic : Diagnostic}
    (h : Reachable s.delims source lx)
    (hexplains : (feedOf s opening lx).Explains diagnostic) : diagnostic.FromLexer s.delims source := by
  intro fault hk hmessage
  cases hexplains with
  | lexeme hl hf => exact absurd (Fault.message_of_isGrammar hf hk) hmessage
  | atEnd hstop hf => exact absurd (Fault.message_of_isGrammar hf hk) hmessage
  | fault hstop => exact h.feed.2 diagnostic hstop

/-- A tag leads to a place that the lexer can come to, and its lexical diagnostic comes from the lexer. -/
theorem readTag_fromLexer [Letters] (h : Reachable s.delims source lx) (hm : lx.mode = .tag kind false)
    (opening : Lexeme) :
    Reachable s.delims source (readTag s kind opening lx).2 ∧
      ∀ diagnostic ∈ (readTag s kind opening lx).1.diagnostic, diagnostic.FromLexer s.delims source := by
  obtain ⟨hafter, -⟩ := h.feed
  cases hbody : body s.limit kind (feedOf s opening lx) with
  | ok result =>
    obtain ⟨⟨b, closing⟩, rest⟩ := result
    rw [readTag_of_ok hbody]
    refine ⟨?_, nofun⟩
    dsimp only
    split
    · exact hafter.enterRaw
    · exact hafter
  | error diagnostic =>
    have hord : Orderly (feedOf s opening lx).lexemes := orderly_feed hm
    have hexplains := (body_blames hord s.limit kind _ (.refl _)).1 diagnostic hbody
    rw [readTag_of_error hbody]
    refine ⟨hafter.skipTag, fun diagnostic' hmem => ?_⟩
    cases hmem
    exact fromLexer_of_explains h hexplains

/-- One turn leads from a place that the lexer can come to to another one. -/
theorem Turn.fromLexer [Letters] (hturn : Turn s lx r next) (hout : lx.inTag = false)
    (h : Reachable s.delims source lx) :
    Reachable s.delims source next ∧ ∀ diagnostic ∈ r.diagnostic, diagnostic.FromLexer s.delims source := by
  cases hturn with
  | @fault diagnostic next hstep =>
    refine ⟨h.fault hstep, fun diagnostic' hmem => ?_⟩
    cases hmem
    exact fun _ _ _ => ⟨lx, next, h, hstep⟩
  | tag hstep hl =>
    obtain ⟨-, hinside⟩ := mode_of_opening hout (Lexer.emits_of_step hstep) hl
    exact readTag_fromLexer (h.token hstep) hinside _
  | @lexeme l next hstep hl =>
    refine ⟨h.token hstep, fun diagnostic hmem => ?_⟩
    unfold ofLexeme at hmem
    split at hmem <;> cases hmem

end Region

/-- From a place outside a tag on, the lexical diagnostics come from the lexer. -/
theorem regions_fromLexer [Letters] (s : Settings) (source : List Char) (lx : Lexer) (hout : lx.inTag = false)
    (h : Lexer.Reachable s.delims source lx) :
    ∀ diagnostic ∈ (regions s lx).filterMap (·.diagnostic), diagnostic.FromLexer s.delims source := by
  refine regions_induction (s := s) (P := fun lx rs => Lexer.Reachable s.delims source lx →
    ∀ diagnostic ∈ rs.filterMap (·.diagnostic), diagnostic.FromLexer s.delims source) ?_ ?_ lx hout h
  · intro lx _ _
    exact List.forall_mem_nil _
  · intro lx next r used hlx hturn _ ih hreach diagnostic hmem
    obtain ⟨hnext, hown⟩ := hturn.fromLexer hlx hreach
    rcases List.mem_filterMap.1 hmem with ⟨r', hr', hdiagnostic⟩
    rcases List.mem_cons.1 hr' with rfl | hlater
    · exact hown diagnostic hdiagnostic
    · exact ih hnext diagnostic (List.mem_filterMap.2 ⟨r', hlater, hdiagnostic⟩)

/-- Whatever the delimiters, the limit and the source: a machine reads the nodes and the diagnostics of the source,
    and the calls by which it decodes literals are all sound.  So a text, character or number literal is never
    refused when it is decoded again, and a number that is the member of a tuple is a row of digits, refused only if
    it has more than 64 bits.  Every literal in an expression or a statement was given by one of the calls.  Every
    lexical diagnostic but the refusal of a member is raised by a step of the lexer. -/
theorem lexed_literals_decode [Letters] (s : Settings) (source : String) :
    (∃ m, Checked.Machine.template s source.toList = some ((s.parse source).template.nodes, m) ∧
      m.errors = (s.parse source).diagnostics ∧
      (∀ call ∈ m.calls, call.Sound source.toList) ∧
      ∀ n ∈ (s.parse source).template.nodes, ∀ kind trims part, n.inner? = some (kind, trims, part) →
        ∀ literal, part.HasPart literal → literal.isLiteral = true → ∃ call ∈ m.calls, call.Gives literal) ∧
    ∀ diagnostic ∈ (s.parse source).diagnostics, diagnostic.FromLexer s.delims source.toList :=
  ⟨Checked.template_eq s source, regions_fromLexer s source.toList _ rfl .start⟩

/-- The same text is one number, and two members behind a dot. -/
example : (Checked.Machine.template .standard "\x7b\x7b 1.0 \x7d\x7d".toList).map (·.2.calls.length) = some 1 ∧
    (Checked.Machine.template .standard "\x7b\x7b a. 1.0 \x7d\x7d".toList).map (·.2.calls.length) = some 2 := by
  constructor <;> cbv

end Stencil
