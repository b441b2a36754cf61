/-
  QuotedLiteral — a value that is written between quotes is read back as the value.

  Quoting writes a text or a character so that it can be read: what cannot stand for itself becomes an
  escape.  Put into a tag of its own, the literal goes through three steps that know nothing of how it
  was written.  The scanner has to find the closing quote, the one that was put at the end and no other,
  whatever delimiters, quotes and line ends the value holds; the escapes have to be found valid; and
  reading the literal resolves them once more.

  One level of nesting is enough for this (`exprWithin_literal`).
-/
import Stencil.Proofs.Template.PrintedExpr
import Stencil.Proofs.Template.PrintedStmt

namespace Stencil

/-! ## Reading a constant -/

namespace Reader

variable {stop : Lexer.Stop} {l c : Lexeme} {rest : List Lexeme}

/-- A constant of one lexeme is read as a full expression with any budget but none, before a token that
    goes on with no expression. -/
theorem exprWithin_literal {q : Quoting} {v : Literal} (hl : v.Spelled q [l])
    (hn : ∀ n, v = .num n → n.IsWritten) (hc : c.token.isStop = true) (limit budget : Nat) :
    exprWithin limit (budget + 1) (bareFeed stop (l :: c :: rest)) =
      .ok (.lit v ⟨0, 0⟩, bareFeed stop (c :: rest)) := by
  obtain ⟨hends, hnone, -⟩ := Token.of_isStop hc
  have hrange : ∀ inclusive, c.token ≠ rangeToken inclusive := by
    intro inclusive h
    rw [h] at hc
    cases inclusive <;> cases hc
  obtain ⟨hliteral, hvalue⟩ := literalOf_bare hl hn (bareFeed stop (c :: rest))
  have hne : ∀ {t : Token}, isLiteral t = false → l.token ≠ t := by
    rintro t ht rfl
    rw [hliteral] at ht
    cases ht
  have hprimary : ∀ value : Reader Expr, primary value (bareFeed stop (l :: c :: rest)) =
      .ok (.lit v ⟨0, 0⟩, bareFeed stop (c :: rest)) := by
    intro value
    rw [primary_of_literal hliteral, bind_of_ok hvalue]
    rfl
  have hoperation : ∀ full, operation limit full budget (bareFeed stop (l :: c :: rest)) =
      .ok (.lit v ⟨0, 0⟩, bareFeed stop (c :: rest)) := by
    intro full
    have hunary : unary limit full budget (bareFeed stop (l :: c :: rest)) =
        .ok (.lit v ⟨0, 0⟩, bareFeed stop (c :: rest)) := by
      unfold unary
      rw [bind_of_ok (unary?_of_ne (hne rfl) (hne rfl) (hne rfl) (hne rfl))]
      dsimp only
      unfold tested
      rw [bind_of_ok (hprimary _), bind_of_ok (suffixes_done hends.suffix),
        bind_of_ok (eats_of_ne hends.test)]
      rfl
    unfold operation
    rw [bind_of_ok hunary]
    exact operators_done fun op hop => by rw [hnone] at hop; cases hop
  rw [exprWithin_succ, within_feed]
  unfold ranged
  rw [bind_of_ok (range?_of_ne fun inclusive => hne (by cases inclusive <;> rfl))]
  dsimp only
  rw [bind_of_ok (hoperation _), bind_of_ok (range?_of_ne hrange)]
  rfl

/-- An include statement is read without regard to the limit. -/
theorem stmt_include {q : Quoting} {t : TextLit} (hl : l.token = .str) (hv : q.text t.value l.text)
    (s : Span) (limit : Nat) :
    stmt limit (bareFeed stop ((Token.keyword .includeKw).lexeme :: l :: rest)) =
      .ok (bare ⟨.includeFrom t, s⟩, bareFeed stop rest) := by
  unfold stmt
  rw [bind_of_ok next_bare]
  dsimp only
  show ((StmtKind.includeFrom <$> textLit) >>= _) _ = _
  rw [bind_of_ok (map_of_ok (textLit_bare hl hv stop rest)), bind_of_ok last_bare]
  rfl

end Reader

/-! ## Whole sources -/

/-- A constant without a sign is read back from a source that consists of it. -/
theorem regions_of_constant [Letters] {v : Literal} (hwritten : ∀ n, v = .num n → n.IsWritten)
    (hsign : ∀ n, v = .num n → n.negative = false) {limit : Nat} (hlimit : 1 ≤ limit) :
    ∃ place trims span, regions ⟨.standard, limit⟩ (Lexer.start (exprSource v.render).toList) =
      [⟨some (.expr (.lit v place) trims span), none⟩] := by
  obtain ⟨hopens, ls, hls, -, hprints⟩ := Literal.shows hwritten
  obtain ⟨l, rfl⟩ : ∃ l, ls = [l] := by
    cases hls with
    | negative hneg => rw [hsign _ rfl] at hneg; cases hneg
    | _ => exact ⟨_, rfl⟩
  obtain ⟨budget, rfl⟩ : ∃ budget, limit = budget + 1 := ⟨limit - 1, by omega⟩
  have hbody : ∀ close : Lexeme, close.token = Token.closes .expr → ∀ stop, ∃ closing rest,
      Region.body (budget + 1) .expr (bareFeed stop ([l] ++ [close])) =
        .ok ((.expr (.lit v ⟨0, 0⟩), closing), rest) := by
    intro close hclose stop
    have hstop : close.token.isStop = true := by rw [hclose]; rfl
    have hread : Reader.expr (budget + 1) (bareFeed stop [l, close]) =
        .ok (.lit v ⟨0, 0⟩, bareFeed stop [close]) :=
      Reader.exprWithin_literal hls hwritten hstop (budget + 1) budget
    refine ⟨bare close, bareFeed stop [], ?_⟩
    unfold Region.body
    dsimp only
    rw [List.singleton_append, Reader.bind_of_ok (Reader.map_of_ok hread),
      Reader.bind_of_ok (Reader.expect_of_eq hclose)]
    rfl
  rw [toList_exprSource]
  obtain ⟨b, trims, span, next, hb, hregions, hend⟩ :=
    regions_of_tag (hprints .expr _ (Expr.follows_blank _ _)) hopens hbody
  cases b with
  | stmt s => cases hb
  | expr e =>
    rw [hend rfl] at hregions
    cases e with
    | lit v' place =>
      cases hb
      exact ⟨place, trims, span, hregions⟩
    | _ => cases hb

/-- A text or a character is read back from a source that consists of it. -/
theorem regions_of_literal [Letters] {v : Literal} (hn : ∀ n, v ≠ .num n) {limit : Nat} (hlimit : 1 ≤ limit) :
    ∃ place trims span, regions ⟨.standard, limit⟩ (Lexer.start (exprSource v.render).toList) =
      [⟨some (.expr (.lit v place) trims span), none⟩] :=
  regions_of_constant (fun n h => absurd h (hn n)) (fun n h => absurd h (hn n)) hlimit

/-- An include statement is read back from a source that consists of it. -/
theorem regions_of_include [Letters] (v : String) (limit : Nat) :
    ∃ place span trims span', regions ⟨.standard, limit⟩
        (Lexer.start (stmtSource ("include " ++ Quoted.string v)).toList) =
      [⟨some (.tag ⟨.includeFrom ⟨v, place⟩, span⟩ trims span'), none⟩] := by
  obtain ⟨hopens, ls, ⟨l, rfl, hl, hv⟩, -, hprints⟩ := TextLit.shows ⟨v, ⟨0, 0⟩⟩
  have htext : ("include " ++ Quoted.string v).toList =
      Keyword.includeKw.text.toList ++ ' ' :: (TextLit.render ⟨v, ⟨0, 0⟩⟩).toList := by
    simp [TextLit.render, Keyword.text]
  have hlexes : Lexes .block false ("include " ++ Quoted.string v).toList
      ([(Token.keyword .includeKw).lexeme] ++ [l]) false (' ' :: Delims.closeText .block) := by
    rw [htext]
    exact (prints_keyword .includeKw .block _ (.of_cons (by decide) (by decide) _)).append
      ((hprints .block _ (Expr.follows_blank _ _)).space_opens hopens)
  have hfirst : Opens ("include " ++ Quoted.string v).toList := by
    rw [htext]
    exact (opens_word (Keyword.isWord_text _)).append _
  have hbody : ∀ close : Lexeme, close.token = Token.closes .block → ∀ stop, ∃ closing rest,
      Region.body limit .block
          (bareFeed stop (([(Token.keyword .includeKw).lexeme] ++ [l]) ++ [close])) =
        .ok ((.stmt (bare ⟨.includeFrom ⟨v, ⟨0, 0⟩⟩, ⟨0, 0⟩⟩), closing), rest) := by
    intro close hclose stop
    have hread : Reader.stmt limit
          (bareFeed stop (([(Token.keyword .includeKw).lexeme] ++ [l]) ++ [close])) =
        .ok (bare ⟨.includeFrom ⟨v, ⟨0, 0⟩⟩, ⟨0, 0⟩⟩, bareFeed stop [close]) :=
      Reader.stmt_include hl hv ⟨0, 0⟩ limit
    refine ⟨bare close, bareFeed stop [], ?_⟩
    unfold Region.body
    dsimp only
    rw [Reader.bind_of_ok (Reader.map_of_ok hread), Reader.bind_of_ok (Reader.expect_of_eq hclose)]
    rfl
  rw [toList_stmtSource]
  obtain ⟨b, trims, span, next, hb, hregions, hend⟩ := regions_of_tag hlexes hfirst hbody
  cases b with
  | expr e => cases hb
  | stmt t =>
    obtain ⟨kind, place⟩ := t
    cases kind with
    | includeFrom path =>
      obtain ⟨value, place'⟩ := path
      cases hb
      rw [hend rfl] at hregions
      exact ⟨place', place, trims, span, hregions⟩
    | _ => cases hb

namespace Template

/-- Every text and every character, written between quotes, is read back as itself under every limit
    but zero: from an expression tag as the only node, and a text from an include statement as its
    path.  Nothing is wrong with these sources. -/
theorem quoted_read_back [Letters] (limit : Nat) (hlimit : 1 ≤ limit) :
    (∀ v : String,
      let read := Settings.parse ⟨.standard, limit⟩ (exprSource (Quoted.string v))
      read.diagnostics = [] ∧
        ∃ place trims span, read.template.nodes = [.expr (.lit (.str v) place) trims span]) ∧
    (∀ c : Char,
      let read := Settings.parse ⟨.standard, limit⟩ (exprSource (String.ofList (Quoted.char c)))
      read.diagnostics = [] ∧
        ∃ place trims span, read.template.nodes = [.expr (.lit (.char c) place) trims span]) ∧
    ∀ v : String,
      let read := Settings.parse ⟨.standard, limit⟩ (stmtSource ("include " ++ Quoted.string v))
      read.diagnostics = [] ∧ ∃ place span trims span',
        read.template.nodes = [.tag ⟨.includeFrom ⟨v, place⟩, span⟩ trims span'] := by
  have hliteral : ∀ v : Literal, (∀ n, v ≠ .num n) →
      let read := Settings.parse ⟨.standard, limit⟩ (exprSource v.render)
      read.diagnostics = [] ∧
        ∃ place trims span, read.template.nodes = [.expr (.lit v place) trims span] := by
    intro v hv
    obtain ⟨place, trims, span, hregions⟩ := regions_of_literal hv hlimit
    unfold Settings.parse
    dsimp only
    rw [hregions]
    exact ⟨rfl, place, trims, span, rfl⟩
  refine ⟨fun v => hliteral (.str v) nofun, fun c => hliteral (.char c) nofun, fun v => ?_⟩
  obtain ⟨place, span, trims, span', hregions⟩ := regions_of_include v limit
  unfold Settings.parse
  dsimp only
  rw [hregions]
  exact ⟨rfl, place, span, trims, span', rfl⟩

/-- One level of nesting is enough to read back a text that holds a closing delimiter, quotes, a line
    end and a character that cannot be shown. -/
theorem quoted_delimiter_read_back :
    let v := "\x7d\x7d \x22\n\u0301"
    let source := "\x7b\x7b \x22\x7d\x7d \\\x22\\n\\u\x7b301\x7d\x22 \x7d\x7d"
    1 ≤ 1 ∧ exprSource (Quoted.string v) = source ∧
      (Settings.parse ⟨.standard, 1⟩ source).diagnostics = [] ∧ ∃ place trims span,
        (Settings.parse ⟨.standard, 1⟩ source).template.nodes =
          [.expr (.lit (.str v) place) trims span] := by
  intro v source
  have hsource : exprSource (Quoted.string v) = source := by decide +kernel
  refine ⟨Nat.le_refl 1, hsource, ?_⟩
  rw [← hsource]
  exact (quoted_read_back 1 (Nat.le_refl 1)).1 v

end Template

end Stencil
