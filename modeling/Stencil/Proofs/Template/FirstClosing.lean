/-
  FirstClosing — a tag ends at the first closing delimiter outside of its literals.

  What a step of the lexer uses up inside a tag hides no delimiter, unless it is a literal with its
  closing quote (`Lexer.StepsTo.cases_of_tag`).  So the whole tag is a row of such pieces up to where it
  ends, and where it ends can be told from the text alone: at the first closing delimiter that does not
  begin inside of a literal, at an opening delimiter before that, or with the source.  This is so for
  every tag of a source, whether it could be read or not.
-/
import Stencil.Proofs.Lexer.StaysOpen
import Stencil.Proofs.Template.Extent

namespace Stencil

/-- The place after a tag is the one that skipping from behind its opening delimiter leads to. -/
theorem Region.Turn.ends_of_isTag [Letters] {limit : Nat} {lx next : Lexer} {r : Region}
    (h : Region.Turn ⟨.standard, limit⟩ lx r next) (hout : lx.inTag = false) {n : Node}
    (hn : r.node = some n) (htag : n.isTag = true) :
    ∃ opening used last rest o kind, lx.rest = opening ++ (used ++ (last ++ rest)) ∧
      next.pos = lx.pos + byteLen (opening ++ (used ++ last)) ∧
      Delims.standard.openingAt lx.rest = some o ∧ o.kind = .tag kind ∧
      lx.rest.take o.size = opening ∧ StaysOpen kind used (last ++ rest) ∧
      Lexer.Ends kind last rest := by
  obtain ⟨l, kind, inside, hstep, hl, rfl⟩ := h.tag_of_isTag hout hn htag
  obtain ⟨-, hinside⟩ := Region.mode_of_opening hout (Lexer.emits_of_step hstep) hl
  obtain ⟨used, last, hreach, hopen, hends⟩ := Lexer.skipTag_staysOpen hinside
  have hbehind := (Lexer.emits_of_step hstep).reaches.1.trans hreach
  have hpos : (Region.readTag ⟨.standard, limit⟩ kind l inside).2.pos =
      (inside.skipTag .standard).pos := Region.pos_readTag hinside
  rw [hpos]
  obtain ⟨-, o, ho, hk, rfl, -⟩ := (Lexer.emits_of_step hstep).opening_of_opens hl hout
  refine ⟨lx.rest.take o.size, used, last, _, o, kind, ?_, hbehind.pos, ho, hk, rfl, hopen, hends⟩
  have htext := hbehind.text
  rw [List.append_assoc, List.append_assoc] at htext
  exact htext

namespace Template

/-- No lexeme hides a delimiter.  Whatever a step inside a tag uses up is the closing delimiter itself,
    or a literal complete with its closing quote, or no closing delimiter begins at any of its bytes;
    and no opening delimiter does, unless it begins with a quote or is the closing delimiter.

    So every tag goes from its opening delimiter along a text that leaves it open to the first closing
    delimiter, with any modifier, that begins outside of the literals, unless an opening delimiter or
    the end of the source comes first. -/
theorem first_closing_ends_tag [Letters] :
    (∀ (kind : TagKind) (afterDot : Bool) (lx next : Lexer), lx.mode = .tag kind afterDot →
      lx.StepsTo .standard next → lx.pos < next.pos →
      (∃ l, lx.step .standard = .token l next ∧ l.token = Token.closes kind) ∨
      ((∃ text, lx.Reaches text next ∧ IsLiteral text) ∨ ∀ p, lx.pos ≤ p → p < next.pos →
        (lx.textAt? p).bind (Delims.standard.closingAt kind) = none) ∧
      ((∀ c ∈ lx.rest.head?, ¬ IsQuote c) → ∀ p, lx.pos ≤ p → p < next.pos →
        (lx.textAt? p).bind Delims.standard.openingAt = none)) ∧
    ∀ (limit : Nat) (source : String) (n : Node),
      n ∈ (Settings.parse ⟨.standard, limit⟩ source).template.nodes → n.isTag = true →
      ∃ front opening used last rest o kind,
        source.toList = front ++ (opening ++ (used ++ (last ++ rest))) ∧
        n.span = ⟨byteLen front, byteLen (front ++ (opening ++ (used ++ last)))⟩ ∧
        Delims.standard.openingAt (opening ++ (used ++ (last ++ rest))) = some o ∧
        o.kind = .tag kind ∧ (opening ++ (used ++ (last ++ rest))).take o.size = opening ∧
        StaysOpen kind used (last ++ rest) ∧ Lexer.Ends kind last rest := by
  refine ⟨fun kind afterDot lx next hm hstep hlt => ?_, fun limit source n hn htag => ?_⟩
  · rcases hstep.cases_of_tag hm with ⟨l, close, hl, htoken, -, -⟩ | ⟨-, -, rfl⟩ |
      ⟨text, dot, hreach, -, hpiece⟩
    · exact .inl ⟨l, hl, htoken⟩
    · -- Stopping before an opening delimiter does not move.
      exact absurd hlt (Nat.lt_irrefl lx.pos)
    · refine .inr ⟨?_, fun hquote p hfrom hto => ?_⟩
      · rcases hpiece.noneIn_closing with hliteral | hnone
        · exact .inl ⟨text, hreach, hliteral⟩
        · exact .inr fun p hfrom hto => hreach.none_at hnone hfrom hto
      · refine hreach.none_at (hpiece.noneIn_opening fun c hc => hquote c ?_) hfrom hto
        rw [hreach.text, List.head?_append, hc]
        rfl
  · obtain ⟨front, lx, r, next, hreach, hout, hturn, hr⟩ := exists_turn_of_node hn
    obtain ⟨opening, used, last, rest, o, kind, hrest, hpos, ho, hk, htake, hopen, hends⟩ :=
      hturn.ends_of_isTag hout hr htag
    obtain ⟨text, hcovers⟩ := hturn.covers hout
    have hstart : byteLen front = lx.pos := by rw [hreach.pos]; exact (Nat.zero_add _).symm
    rw [hrest] at ho htake
    refine ⟨front, opening, used, last, rest, o, kind, ?_, ?_, ho, hk, htake, hopen, hends⟩
    · rw [← hrest]
      exact hreach.text
    · rw [(hcovers.node n hr).1, hpos, byteLen_append front, hstart]

/-- A minus sign that is no modifier, and a tag that ends at the closing delimiter with a modifier, behind
    a sign in an exponent and a literal that holds another closing delimiter. -/
theorem first_closing_behind_literal :
    let lx : Lexer := ⟨3, ['-', ' ', '}', '}'], .tag .expr false⟩
    let next : Lexer := ⟨4, [' ', '}', '}'], .tag .expr false⟩
    let source := "\x7b\x7b 1e-5 ~ \x22\x7d\x7d\x22 -\x7d\x7d \x7d\x7d"
    (lx.StepsTo .standard next ∧ lx.pos < next.pos ∧
      ((∃ l, lx.step .standard = .token l next ∧ l.token = Token.closes .expr) ∨
      ((∃ text, lx.Reaches text next ∧ IsLiteral text) ∨ ∀ p, lx.pos ≤ p → p < next.pos →
        (lx.textAt? p).bind (Delims.standard.closingAt .expr) = none) ∧
      ((∀ c ∈ lx.rest.head?, ¬ IsQuote c) → ∀ p, lx.pos ≤ p → p < next.pos →
        (lx.textAt? p).bind Delims.standard.openingAt = none))) ∧
    ∃ n ∈ (parse source).template.nodes, n.isTag = true ∧ n.span = ⟨0, 18⟩ ∧
      ∃ front opening used last rest o kind,
        source.toList = front ++ (opening ++ (used ++ (last ++ rest))) ∧
        n.span = ⟨byteLen front, byteLen (front ++ (opening ++ (used ++ last)))⟩ ∧
        Delims.standard.openingAt (opening ++ (used ++ (last ++ rest))) = some o ∧
        o.kind = .tag kind ∧ (opening ++ (used ++ (last ++ rest))).take o.size = opening ∧
        StaysOpen kind used (last ++ rest) ∧ Lexer.Ends kind last rest := by
  intro lx next source
  have hnone : Delims.standard.closingAt .expr ['-', ' ', '}', '}'] = none ∧
      Delims.standard.openingAt ['-', ' ', '}', '}'] = none := by decide
  have hread : lx.step .standard = .token (lx.lexeme .minus 1 none) (lx.advance 1
      (.tag .expr (Token.minus == .dot || (false && Token.minus == .blank)))) :=
    Lexer.step_of_read rfl rfl hnone rfl
  have hstep : lx.StepsTo .standard next := .inl ⟨_, hread⟩
  have hlt : lx.pos < next.pos := by decide
  have hfirst : (parse source).template.nodes.any (fun n => n.isTag && n.span == ⟨0, 18⟩) = true := by
    decide +kernel
  obtain ⟨n, hn, hall⟩ := List.any_eq_true.1 hfirst
  rw [Bool.and_eq_true, beq_iff_eq] at hall
  exact ⟨⟨hstep, hlt, first_closing_ends_tag.1 .expr false lx next rfl hstep hlt⟩,
    n, hn, hall.1, hall.2, first_closing_ends_tag.2 64 source n hn hall.1⟩

end Template

end Stencil
