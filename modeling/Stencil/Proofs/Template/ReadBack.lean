/-
  ReadBack — every normal expression is read back from its listing.

  The listing of an expression, its texts separated by single blanks, is put between the standard
  delimiters of an expression tag (`Lexeme.tagText`).  Reading that source goes three ways in a row:
    * the scanner gives back the lexemes of the listing and the closing delimiter
      (`Lexer.feed_of_written`);
    * the reader of expressions gives back the expression, on lexemes without places
      (`Reader.exprWithin_readsBack`);
    * where the lexemes stand does not matter (`Region.body_moves`).
  So the template is one node with that expression.  The listing is all that was used of the
  expression: two normal expressions with the same listing are the same up to their places.
-/
import Stencil.Parse
import Stencil.Proofs.Expr.Completeness
import Stencil.Proofs.Expr.Writing
import Stencil.Proofs.Template.Turn

namespace Stencil

/-! ## The source -/

/-- An expression tag with the texts inside, single blanks between them and the delimiters. -/
def exprTag (texts : List (List Char)) : String :=
  "\x7b\x7b " ++ " ".intercalate (texts.map String.ofList) ++ " \x7d\x7d"

theorem Lexeme.toList_intercalate (l : Lexeme) (ls : List Lexeme) :
    ' ' :: (" ".intercalate (((l :: ls).map Lexeme.text).map String.ofList)).toList =
      Lexeme.spaced (l :: ls) := by
  induction ls generalizing l with
  | nil => simp [spaced]
  | cons l' ls ih =>
    simp only [List.map_cons] at ih ⊢
    rw [String.intercalate_cons_cons, String.toList_append, String.toList_append,
      String.toList_ofList, List.append_assoc]
    show ' ' :: (l.text ++ _) = ' ' :: (l.text ++ spaced (l' :: ls))
    rw [← ih]
    rfl

theorem Lexeme.toList_exprTag {ls : List Lexeme} (h : ls ≠ []) :
    (exprTag (ls.map Lexeme.text)).toList =
      '\x7b' :: '\x7b' :: (spaced ls ++ [' ', '\x7d', '\x7d']) := by
  obtain ⟨l, ls, rfl⟩ := List.exists_cons_of_ne_nil h
  rw [← toList_intercalate, exprTag, String.toList_append, String.toList_append]
  rfl

/-! ## The tag -/

namespace Region

variable {q : Quoting} {P : Span → List Lexeme → Prop} {e : Expr} {ls : List Lexeme}

/-- A listing before a closing delimiter is the inside of a tag. -/
theorem body_bare [Letters] (hn : e.Normal) (h : e.Spelled q P ls) {limit : Nat} (hlimit : ls.length < limit)
    {close : Lexeme} (hclose : close.token = .endExpr) (stop : Lexer.Stop) :
    body limit .expr (bareFeed stop (ls ++ [close])) =
      .ok ((.expr (bare e), bare close), bareFeed stop []) := by
  have hstop : close.token.isStop = true := by rw [hclose]; rfl
  have hcloses : close.token = Token.closes .expr := hclose
  have hexpr : Reader.expr limit (bareFeed stop (ls ++ [close])) =
      .ok (bare e, bareFeed stop [close]) :=
    Reader.exprWithin_readsBack limit limit e ls close [] hn h hlimit hstop
  unfold body
  dsimp only
  rw [Reader.bind_of_ok (Reader.map_of_ok hexpr), Reader.bind_of_ok (Reader.expect_of_eq hcloses)]
  rfl

/-- So it is wherever the lexemes stand. -/
theorem body_of_bare [Letters] (hn : e.Normal) (h : e.Spelled q P ls) {limit : Nat}
    (hlimit : ls.length < limit) {close : Lexeme} (hclose : close.token = .endExpr) (feed : Feed)
    (hregular : feed.Regular fun _ => 0) (hfeed : bare feed.lexemes = bare (ls ++ [close])) :
    ∃ x closing rest, body limit .expr feed = .ok ((.expr x, closing), rest) ∧ bare x = bare e := by
  have hmoves := body_moves (g := fun _ => 0) monotone_const limit .expr
  have hbare : bare feed = bareFeed (bare feed.stop) (ls ++ [close]) := by
    show Feed.mk _ _ _ = Feed.mk _ _ _
    rw [← hfeed]
    rfl
  have hbody := body_bare hn h hlimit hclose (bare feed.stop)
  rw [← hbare] at hbody
  cases hfound : body limit .expr feed with
  | error diagnostic =>
    have hmoved := hmoves.of_error hregular hfound
    rw [show move (fun _ => 0) feed = bare feed from rfl, hbody] at hmoved
    cases hmoved
  | ok result =>
    obtain ⟨⟨b, closing⟩, rest⟩ := result
    have hmoved := (hmoves.of_ok hregular hfound).1
    rw [show move (fun _ => 0) feed = bare feed from rfl, hbody] at hmoved
    have hsame : Body.expr (bare e) = bare b := congrArg (·.1.1) (Except.ok.inj hmoved)
    cases b with
    | expr x => exact ⟨x, closing, rest, rfl, (Body.expr.inj hsame).symm⟩
    | stmt s => cases hsame

end Region

/-- Where content would be read and no text is left, the run is over. -/
theorem regions_of_rest [Letters] {s : Settings} {lx : Lexer} (hrest : lx.rest = [])
    (hmode : lx.mode = .template) : regions s lx = [] := by
  obtain ⟨pos, rest, mode⟩ := lx
  obtain rfl : rest = [] := hrest
  obtain rfl : mode = .template := hmode
  exact regions_nil s pos

/-- The source of a listing is one region, an expression tag without a diagnostic. -/
theorem regions_of_listed [Letters] {e : Expr} {ls : List Lexeme} (hn : e.Normal) (h : e.Listed ls)
    {limit : Nat} (hlimit : ls.length < limit) :
    ∃ x trims span, bare x = bare e ∧
      regions ⟨.standard, limit⟩ (Lexer.start (exprTag (ls.map Lexeme.text)).toList) =
        [⟨some (.expr x trims span), none⟩] := by
  obtain ⟨l, more, hcons, -⟩ := h.head hn
  rw [Lexeme.toList_exprTag (by rw [hcons]; exact List.cons_ne_nil _ _)]
  let start : Lexer := .start ('\x7b' :: '\x7b' :: (Lexeme.spaced ls ++ [' ', '\x7d', '\x7d']))
  let opening : Lexeme := start.lexeme .beginExpr 2 none
  let next : Lexer := start.advance 2 (.tag .expr false)
  -- The opening delimiter has no modifier, since the blank before the first text follows it.
  have hstep : start.step .standard = .token opening next := by
    subst hcons
    rfl
  have hturn : Region.Turn ⟨.standard, limit⟩ start _ _ := .tag hstep rfl
  obtain ⟨close, hclose, hfeed, hrest, hmode⟩ :=
    Lexer.feed_of_written (h.written hn) h.place (show next.mode = .tag .expr false from rfl) rfl
  obtain ⟨x, closing, left, hbody, hx⟩ := Region.body_of_bare hn h hlimit hclose
    (Region.feedOf ⟨.standard, limit⟩ opening next)
    (Lexer.regular_feed (fun _ _ => rfl) rfl _ _) hfeed
  refine ⟨x, ⟨opening.trim, closing.trim⟩, opening.span.join closing.span, hx, ?_⟩
  rw [hturn.regions_eq, Region.readTag_of_ok hbody]
  show _ :: regions _ (next.feed .standard).2.2 = _
  rw [regions_of_rest hrest hmode]
  rfl

namespace Template

/-- Every normal expression has a listing.  From each of its listings, between the standard
    delimiters, it is read back as the only node, without diagnostics and with the places of that
    source, as long as the nesting limit exceeds the length of the listing.  And no other normal
    expression has a listing with the same texts. -/
theorem parse_listed [Letters] (e : Expr) (hn : e.Normal) :
    (∃ ls, e.Listed ls) ∧ ∀ ls, e.Listed ls →
      (∀ limit, ls.length < limit →
        (Settings.parse ⟨.standard, limit⟩ (exprTag (ls.map Lexeme.text))).diagnostics = [] ∧
        ∃ x trims span, bare x = bare e ∧
          (Settings.parse ⟨.standard, limit⟩ (exprTag (ls.map Lexeme.text))).template.nodes =
            [.expr x trims span]) ∧
      ∀ e' ls', e'.Normal → e'.Listed ls' → ls'.map Lexeme.text = ls.map Lexeme.text →
        bare e' = bare e := by
  refine ⟨hn.exists_listed, fun ls h => ⟨fun limit hlimit => ?_, fun e' ls' hn' h' htexts => ?_⟩⟩
  · obtain ⟨x, trims, span, hx, hregions⟩ := regions_of_listed hn h hlimit
    unfold Settings.parse
    dsimp only
    rw [hregions]
    exact ⟨rfl, x, trims, span, hx, rfl⟩
  · -- The same texts make the same source, and that is read in one way.
    have hlength : ls'.length = ls.length := by
      rw [← List.length_map Lexeme.text, htexts, List.length_map]
    obtain ⟨x, trims, span, hx, hregions⟩ := regions_of_listed hn h (Nat.lt_succ_self _)
    obtain ⟨x', trims', span', hx', hregions'⟩ :=
      regions_of_listed hn' h' (Nat.lt_succ_of_le (Nat.le_of_eq hlength))
    rw [htexts, hregions] at hregions'
    cases hregions'
    rw [← hx', hx]

/-- The sum of a negative number and an item of a tuple is read back. -/
theorem parse_negative_plus_item :
    let s : Span := ⟨0, 0⟩
    let e : Expr := .binary .add (.lit (.num ⟨"1", .int, none, true⟩) s)
      (.field (.var "x" s) (.index 0 s) s) s
    e.Normal ∧ (parse "\x7b\x7b - 1 + x . 0 \x7d\x7d").diagnostics = [] ∧
      ∃ x trims span, bare x = bare e ∧
        (parse "\x7b\x7b - 1 + x . 0 \x7d\x7d").template.nodes = [.expr x trims span] := by
  intro s e
  have hone : (Expr.lit (.num ⟨"1", .int, none, true⟩) s).Normal := .mk ⟨rfl, rfl⟩ nofun
  have hx : (Expr.var "x" s).Normal := .mk (show isName "x" = true by decide) nofun
  have hitem : (Expr.field (.var "x" s) (.index 0 s) s).Normal :=
    .mk ⟨rfl, show 0 < Reader.indexBound by decide⟩ (List.forall_mem_singleton.2 hx)
  have hn : e.Normal :=
    .mk ⟨by decide, by decide⟩ (List.forall_mem_cons.2 ⟨hone, List.forall_mem_singleton.2 hitem⟩)
  let ls : List Lexeme := [Token.minus.lexeme, .ofText .number ['1'], Token.plus.lexeme,
    wordLexeme "x", Token.dot.lexeme, .ofText .number ['0']]
  have hls : e.Listed ls := by
    refine .binary (a := [_, _]) (b := [_, _, _])
      (.lit (.negative rfl (Token.is_lexeme rfl) rfl rfl) ?_) (Token.is_lexeme rfl)
      (.field (a := [_]) (.var ⟨rfl, rfl⟩ ?_) (Token.is_lexeme rfl)
        (.index rfl (List.cons_ne_nil _ _) rfl rfl ?_) ?_) ?_
    all_goals simp [wordLexeme]
  exact ⟨hn, ((parse_listed e hn).2 ls hls).1 64 (by decide)⟩

end Template

end Stencil
