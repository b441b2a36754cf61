/-
  NumberLiteral — a number that stands alone in a tag.

  A number is read back from an expression tag that holds nothing else, with its text, its kind and its
  suffix, if the scanner takes it as a whole.  It does not if a bar follows the sign of the exponent, as
  in `1e+_5` (`Numeral.taken_of_split?`).  Then the text up to the sign is reported: it is no number.
  Skipping goes on behind it, over the sign and the word that the rest of the number is, to the closing
  delimiter, so the whole tag becomes one error.
-/
import Stencil.Proofs.Lexer.NumberExtent
import Stencil.Proofs.Lexer.Tight
import Stencil.Proofs.Limit.Relax
import Stencil.Proofs.Part.Scan
import Stencil.Proofs.Template.QuotedLiteral

namespace Stencil

/-! ## The number at the start of a text -/

namespace Numeral

/-- The number of characters of the number that a text starts with. -/
def size : List Char → Nat
  | [] => 0
  | c :: cs => more c cs + 1

/-- A number does not go on over a blank. -/
theorem more_before_blank {c : Char} (hc : c.isDigit = true) (cs tail : List Char) :
    more c (cs ++ ' ' :: tail) = more c cs :=
  more_stops c cs hc (stops_blank false (c :: cs) tail)

theorem isIdentPart_of_isRowChar [Letters] {c : Char} (h : isRowChar c = true) : isIdentPart c = true := by
  rw [isRowChar, Bool.or_eq_true] at h
  rcases h with hunder | halnum
  · rw [eq_of_beq hunder]
    exact isIdentPart_of_ascii (by decide)
  · exact isIdentPart_of_isAlphanum halnum

/-- What is left of a number behind a sign that a bar follows is a word. -/
theorem isWord_of_row [Letters] {back : List Char} (h : back.all isRowChar = true) : isWord
    ('_' :: back) = true := by
  have hstart : isIdentStart '_' = true := isIdentStart_of_ascii (by decide)
  rw [isWord, hstart, Bool.true_and]
  exact List.all_eq_true.2 fun c hc => isIdentPart_of_isRowChar (List.all_eq_true.1 h c hc)

end Numeral

namespace Lexer

variable {lx : Lexer} {afterDot : Bool} {c : Char} {cs : List Char}

/-- What cannot be scanned where no delimiter stands is reported. -/
theorem step_of_unread [Letters] {d : Delims} {kind : TagKind} {fault : LexFault} {range : Span} {n : Nat}
    (hm : lx.mode = .tag kind afterDot) (hr : lx.rest = c :: cs)
    (hd : d.closingAt kind (c :: cs) = none ∧ d.openingAt (c :: cs) = none)
    (hs : Scan.read d kind afterDot c cs = .fault fault range n) :
    lx.step d = .fault ⟨.lex fault, range.shift lx.pos⟩ (lx.advance (n + 1) lx.mode) := by
  unfold step
  rw [hm, hr]
  dsimp only
  unfold tagStep
  rw [hr, hd.1, hd.2, hs]
  dsimp only
  rw [hm]

end Lexer

/-- A number of which only a part that is no number is taken is reported there. -/
theorem Scan.read_cut [Letters] {d : Delims} {kind : TagKind} {c : Char} {front rest : List Char}
    (hc : c.isDigit = true) (hmore : Numeral.more c (front ++ rest) = front.length)
    (hnone : Numeral.split? (c :: front) = none) :
    read d kind false c (front ++ rest) = .fault .badNumber ⟨0, byteLen (c :: front)⟩ front.length := by
  rw [read_of_isDigit hc, number, if_neg Bool.false_ne_true]
  dsimp only
  rw [hmore, List.take_left, hnone]

/-- Skipping from a place inside a tag ends where collecting its lexemes does, if that leads out of the
    tag. -/
theorem Lexer.skipTag_of_feed [Letters] {d : Delims} {lx : Lexer} {kind : TagKind} {afterDot : Bool}
    (hm : lx.mode = .tag kind afterDot) (hout : (lx.feed d).2.2.mode = .template) :
    lx.skipTag d = (lx.feed d).2.2 := by
  have hin : (lx.feed d).2.2.inTag = false := by
    unfold Lexer.inTag
    rw [hout]
  rw [← (passes_feed hm).skipTag_eq, skipTag_of_outside hin]

namespace Lexer

variable {lx : Lexer} {c s : Char} {front back rest : List Char}

/-- The feed of a tag ends at a number of which only a part that is no number is taken.  The blank before
    it makes no lexeme. -/
theorem feed_of_cut [Letters] {kind : TagKind} (hm : lx.mode = .tag kind false)
    (hr : lx.rest = ' ' :: c :: (front ++ rest)) (hc : c.isDigit = true)
    (hmore : Numeral.more c (front ++ rest) = front.length) (hnone : Numeral.split? (c :: front) = none) :
    lx.feed .standard =
      ([], .fault ⟨.lex .badNumber, ⟨lx.pos + 1, lx.pos + 1 + byteLen (c :: front)⟩⟩,
        (lx.advance 1 lx.mode).advance (front.length + 1) lx.mode) := by
  let place : Lexer := lx.advance 1 lx.mode
  have hrest : place.rest = c :: (front ++ rest) := by
    show lx.rest.drop 1 = _
    rw [hr, List.drop_one, List.tail_cons]
  have hpos : place.pos = lx.pos + 1 := by
    show lx.pos + byteLen (lx.rest.take 1) = _
    rw [hr]
    rfl
  have hblank : lx.step .standard = .token (lx.lexeme .blank 1 none) place := by
    have hstop : (c :: (front ++ rest)).takeWhile isBlank = [] :=
      List.takeWhile_cons_of_neg (by rw [isBlank_of_isDigit hc]; exact Bool.false_ne_true)
    have hread : Scan.read .standard kind false ' ' (c :: (front ++ rest)) = .token .blank 0 := by
      rw [Scan.read_of_isBlank (by decide), hstop]
      rfl
    have hstep := step_of_read hm hr (Delims.standard_of_not_mem (by decide)) hread
    rw [hstep, show place = lx.advance 1 (.tag kind false) from congrArg (lx.advance 1) hm]
    rfl
  have hcut : place.step .standard = .fault ⟨.lex .badNumber, ⟨lx.pos + 1,
      lx.pos + 1 + byteLen (c :: front)⟩⟩ (place.advance (front.length + 1) lx.mode) := by
    have hmode : place.mode = .tag kind false := hm
    have hunread := step_of_unread hmode hrest
      (Delims.standard_of_not_mem (Delims.not_mem_marks hc (by decide)))
      (Scan.read_cut hc hmore hnone)
    have hspan : Span.shift place.pos ⟨0, byteLen (c :: front)⟩ =
        ⟨lx.pos + 1, lx.pos + 1 + byteLen (c :: front)⟩ := by
      rw [hpos, Nat.add_comm (lx.pos + 1) (byteLen _)]
      exact congrArg (Span.mk · _) (Nat.zero_add _)
    rw [hspan] at hunread
    exact hunread
  rw [feed_of_token hblank, feed_of_fault hcut]
  rfl

/-- Skipping leads over a sign and a word that a bar begins out of the tag. -/
theorem skipTag_of_signed [Letters] (hm : lx.mode = .tag .expr false) (hs : s = '+' ∨ s = '-')
    (hword : isWord ('_' :: back) = true)
    (hr : lx.rest = s :: '_' :: back ++ ' ' :: Delims.closeText .expr) :
    (lx.skipTag .standard).rest = [] ∧ (lx.skipTag .standard).mode = .template := by
  have hlexes : ∃ t : Token,
      Lexes .expr false [s] [t.lexeme] false ('_' :: back ++ ' ' :: Delims.closeText .expr) := by
    rcases hs with rfl | rfl
    · exact ⟨.plus, .sign rfl Token.noConfusion fun x hx => by cases hx; decide⟩
    · exact ⟨.minus, .sign rfl Token.noConfusion fun x hx => by cases hx; decide⟩
  obtain ⟨t, hsign⟩ := hlexes
  have hname : Lexes .expr false (String.ofList ('_' :: back)).toList _ false
      (' ' :: Delims.closeText .expr) :=
    lexes_word (by rw [String.toList_ofList]; exact hword) (Expr.follows_blank false _)
  rw [String.toList_ofList] at hname
  obtain ⟨-, -, -, hend, hmode⟩ := (hsign.append hname).feed hm hr
  rw [skipTag_of_feed hm hmode]
  exact ⟨hend, hmode⟩

end Lexer

/-! ## Whole sources -/

/-- A number whose exponent has a bar after its sign is reported up to the sign, and the source that
    consists of it is one error. -/
theorem regions_of_cut [Letters] {c s : Char} {front back : List Char} (hc : c.isDigit = true)
    (hs : s = '+' ∨ s = '-') (hback : back.all Numeral.isRowChar = true)
    (hmore : Numeral.more c (front ++ s :: '_' :: back) = front.length)
    (hnone : Numeral.split? (c :: front) = none) (limit : Nat) :
    regions ⟨.standard, limit⟩ (Lexer.start (tagText .expr (c :: (front ++ s :: '_' :: back)))) =
      [⟨some (.error ⟨0, byteLen (tagText .expr (c :: (front ++ s :: '_' :: back)))⟩),
        some ⟨.lex .badNumber, ⟨3, 3 + byteLen (c :: front)⟩⟩⟩] := by
  let tail : List Char := ' ' :: Delims.closeText .expr
  let text : List Char := tagText .expr (c :: (front ++ s :: '_' :: back))
  let start : Lexer := .start text
  let inside : Lexer := start.advance 2 (.tag .expr false)
  let after : Lexer := (inside.advance 1 inside.mode).advance (front.length + 1) inside.mode
  let problem : Diagnostic := ⟨.lex .badNumber, ⟨3, 3 + byteLen (c :: front)⟩⟩
  have hopen : start.step .standard = .token (start.lexeme .beginExpr 2 none) inside := rfl
  have hrest : inside.rest = ' ' :: c :: (front ++ (s :: '_' :: back ++ tail)) := by
    show ' ' :: c :: ((front ++ s :: '_' :: back) ++ tail) = _
    rw [List.append_assoc]
  have hfeed : inside.feed .standard = ([], .fault problem, after) := by
    have htaken : Numeral.more c (front ++ (s :: '_' :: back ++ tail)) = front.length := by
      rw [← List.append_assoc, Numeral.more_before_blank hc, hmore]
    exact Lexer.feed_of_cut rfl hrest hc htaken hnone
  have hskip : (after.skipTag .standard).rest = [] ∧ (after.skipTag .standard).mode = .template := by
    have hafter : after.rest = s :: '_' :: back ++ tail := by
      show (inside.rest.drop 1).drop (front.length + 1) = _
      rw [hrest, List.drop_one, List.tail_cons, List.drop_succ_cons, List.drop_left]
    exact Lexer.skipTag_of_signed rfl hs (Numeral.isWord_of_row hback) hafter
  have hbody : Region.body limit .expr (Region.feedOf ⟨.standard, limit⟩
      (start.lexeme .beginExpr 2 none) inside) = .error problem := by
    unfold Region.feedOf
    rw [hfeed]
    exact ((Reader.exprWithin_heeds limit limit).bind _ : Reader.Heeds (Region.Body.expr <$> _)).bind _
      problem _
  have hturn : Region.Turn ⟨.standard, limit⟩ start _ _ := .tag hopen rfl
  obtain ⟨used, hcovers⟩ := hturn.covers rfl
  rw [Region.readTag_of_error hbody, hfeed] at hturn hcovers
  have hused : used = text := by
    have htext := hcovers.reaches.text
    rw [hskip.1, List.append_nil] at htext
    exact htext.symm
  have hpos : (after.skipTag .standard).pos = byteLen text := by
    rw [hcovers.reaches.pos, hused]
    exact Nat.zero_add _
  rw [hturn.regions_eq, regions_of_rest hskip.1 hskip.2, hpos]
  rfl

namespace Template

/-- Every text without a sign in front that is a number: it is taken as a whole before a blank unless a bar
    follows the sign of its exponent, and then it is read back from an expression tag under every limit
    but zero, as the only node and without diagnostics, with its text, its kind and the end of its text as
    the suffix.  With such a bar only what stands before the sign is taken.  That is reported, and the
    whole source is one error. -/
theorem number_read_back [Letters] (limit : Nat) (hlimit : 1 ≤ limit) (raw : String) (kind : NumberKind)
    (suffix : List Char) (h : Numeral.split? raw.toList = some (kind, suffix)) :
    let read := Settings.parse ⟨.standard, limit⟩ (exprSource raw)
    suffix <:+ raw.toList ∧
      (Numeral.barAfterSign raw.toList = false →
        Numeral.size (raw.toList ++ [' ']) = raw.toList.length ∧
        read.diagnostics = [] ∧
        ∃ place trims span, read.template.nodes = [.expr (.lit (.num ⟨raw, kind,
          if suffix.isEmpty then none else some (String.ofList suffix), false⟩) place) trims span]) ∧
      (Numeral.barAfterSign raw.toList = true →
        ∃ front s back, raw.toList = front ++ s :: '_' :: back ∧ (s = '+' ∨ s = '-') ∧
          Numeral.size (raw.toList ++ [' ']) = front.length ∧
          read.diagnostics = [⟨.lex .badNumber, ⟨3, 3 + byteLen front⟩⟩] ∧
          read.template.nodes = [.error ⟨0, (exprSource raw).utf8ByteSize⟩]) := by
  intro read
  obtain ⟨c, cs, hraw⟩ : ∃ c cs, raw.toList = c :: cs := by
    cases hraw : raw.toList with
    | nil => rw [hraw] at h; cases h
    | cons c cs => exact ⟨c, cs, rfl⟩
  rw [hraw] at h
  obtain ⟨hc, htaken⟩ := Numeral.taken_of_split? h
  have hsize : Numeral.size (c :: cs ++ [' ']) = Numeral.more c cs + 1 :=
    congrArg (· + 1) (Numeral.more_before_blank hc cs [])
  rw [hraw, hsize]
  refine ⟨Numeral.suffix_of_split? h, fun hbar => ?_, fun hbar => ?_⟩
  · generalize hn : Numeral.more c cs = n at htaken
    cases htaken with
    | cut hs hback hbar' => rw [hbar'] at hbar; cases hbar
    | whole =>
      refine ⟨rfl, ?_⟩
      let number : Number := ⟨raw, kind, if suffix.isEmpty then none else some (String.ofList suffix), false⟩
      have hwritten : number.IsWritten := by
        constructor
        · show isNumeral raw.toList = true
          rw [hraw, isNumeral, hc, hn, h, beq_self_eq_true]
          rfl
        · show Numeral.number? raw.toList false = some number
          rw [hraw, Numeral.number?, h, ← hraw, String.ofList_toList]
          rfl
      have hrender : (Literal.num number).render = raw := by
        show "" ++ raw = raw
        exact String.empty_append
      obtain ⟨place, trims, span, hregions⟩ := regions_of_constant (v := .num number)
        (fun m hm => by cases hm; exact hwritten) (fun m hm => by cases hm; rfl) hlimit
      rw [hrender] at hregions
      unfold read Settings.parse
      dsimp only
      rw [hregions]
      exact ⟨rfl, place, trims, span, rfl⟩
  · generalize hn : Numeral.more c cs = n at htaken
    cases htaken with
    | whole hbar' => rw [hbar'] at hbar; cases hbar
    | @cut lead back e s hs hback hbar' hnone =>
      have htext : lead ++ e :: s :: '_' :: back = (lead ++ [e]) ++ s :: '_' :: back := by simp
      rw [htext] at hn hraw
      have hlength : lead.length + 1 = (lead ++ [e]).length := by simp
      rw [hlength] at hn
      have hregions := regions_of_cut hc hs hback hn hnone limit
      rw [← hraw, ← toList_exprSource, ← utf8ByteSize_eq] at hregions
      refine ⟨c :: (lead ++ [e]), s, back, by rw [htext]; rfl, hs, by simp, ?_⟩
      unfold read Settings.parse
      dsimp only
      rw [hregions]
      exact ⟨rfl, rfl⟩

/-- A float with a bar among its digits, a signed exponent and a suffix is read back under a limit of
    one. -/
theorem signed_float_read_back :
    let raw := "1_0.5e+3f32"
    1 ≤ 1 ∧ Numeral.split? raw.toList = some (.float, ['f', '3', '2']) ∧
      Numeral.barAfterSign raw.toList = false ∧ Numeral.size (raw.toList ++ [' ']) = 11 ∧
      (Settings.parse ⟨.standard, 1⟩ (exprSource raw)).diagnostics = [] ∧ ∃ place trims span,
        (Settings.parse ⟨.standard, 1⟩ (exprSource raw)).template.nodes =
          [.expr (.lit (.num ⟨raw, .float, some "f32", false⟩) place) trims span] := by
  intro raw
  have hraw : raw.toList = ['1', '_', '0', '.', '5', 'e', '+', '3', 'f', '3', '2'] :=
    String.toList_ofList
  have hsplit : Numeral.split? raw.toList = some (.float, ['f', '3', '2']) := by
    rw [hraw]
    decide
  have hbar : Numeral.barAfterSign raw.toList = false := by
    rw [hraw]
    decide
  obtain ⟨-, hread, -⟩ := number_read_back 1 (Nat.le_refl 1) raw .float ['f', '3', '2'] hsplit
  obtain ⟨hsize, hdiagnostics, hnodes⟩ := hread hbar
  have hlength : raw.toList.length = 11 := by
    rw [hraw]
    rfl
  exact ⟨Nat.le_refl 1, hsplit, hbar, hsize.trans hlength, hdiagnostics, hnodes⟩

/-- A number with a bar after the sign of its exponent is not taken as a whole, and its source is not read
    without complaint. -/
theorem bar_after_sign_cut :
    let raw := "1e+_5"
    Numeral.split? raw.toList = some (.float, []) ∧
      Numeral.size (raw.toList ++ [' ']) ≠ raw.toList.length ∧
      (Settings.parse ⟨.standard, 1⟩ (exprSource raw)).diagnostics = [⟨.lex .badNumber, ⟨3, 5⟩⟩] := by
  intro raw
  have hraw : raw.toList = '1' :: (['e'] ++ '+' :: '_' :: ['5']) := String.toList_ofList
  have hmore : Numeral.more '1' (['e'] ++ '+' :: '_' :: ['5']) = ['e'].length := by decide
  have hregions := regions_of_cut (by decide) (.inl rfl) (by decide) hmore (by decide) 1
  unfold Settings.parse
  dsimp only
  rw [toList_exprSource, hraw, hregions]
  exact ⟨by decide, by decide, rfl⟩

end Template

end Stencil
