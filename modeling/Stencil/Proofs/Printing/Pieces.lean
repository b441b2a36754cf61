/-
  Pieces — how the pieces of a printed text are scanned.

  A printed text has blanks around its infix signs and none elsewhere, so whether a piece of it is
  scanned as it was meant depends on what follows.  Three things can follow a printed name, constant or
  construct: a blank, a bracket or comma, or a suffix.  None of them joins anything, with one exception:
  a dot and a digit after a plain number make a fraction of it.  `Follows plain tail` says that `tail`
  is of this kind, where `plain` tells whether a number stands before; `Prints plain cs ls` says that the
  text `cs` is scanned as the lexemes `ls` before every such tail.

  In the other direction nothing joins a sign that stands before a printed construct, since none begins
  with a sign that could (`Opens`).
-/
import Stencil.Proofs.Expr.Shown
import Stencil.Proofs.Expr.Writing
import Stencil.Stmt.Printer

namespace Stencil

open Lexeme

/-! ## What follows a piece -/

/-- The characters that may stand directly after a printed construct. -/
def nearChars : List Char := [' ', ')', ']', ',', '?', '(', '[', '.', ':']

/-- Whether a plain number would go on with a fraction here. -/
def startsFraction : List Char → Bool
  | '.' :: cs => Numeral.startsDigit cs
  | _ => false

/-- Whether `tail` may follow a printed construct; `plain` tells whether that ends in a number which a
    fraction would join. -/
structure Follows (plain : Bool) (tail : List Char) : Prop where
  near : ∀ c ∈ tail.head?, c ∈ nearChars
  point : plain = true → startsFraction tail = false

/-- The text is scanned as the lexemes before everything that may follow. -/
def Prints [Letters] (plain : Bool) (cs : List Char) (ls : List Lexeme) : Prop :=
  ∀ kind tail, Follows plain tail → Lexes kind false cs ls false tail

namespace Follows

variable {plain : Bool} {tail : List Char}

theorem of_cons {c : Char} (hc : c ∈ nearChars) (hdot : c ≠ '.') (tail : List Char) :
    Follows plain (c :: tail) := by
  refine ⟨fun x hx => by cases hx; exact hc, fun _ => ?_⟩
  unfold startsFraction
  split
  · next heq => cases heq; exact absurd rfl hdot
  · rfl

theorem false_of (h : Follows plain tail) : Follows false tail := ⟨h.near, nofun⟩

theorem of_true (h : Follows true tail) : Follows plain tail := ⟨h.near, fun _ => h.point rfl⟩

theorem word [Letters] (h : Follows plain tail) : ∀ c ∈ tail.head?, isIdentPart c = false ∧ c ≠ '!' :=
  fun c hc => isIdentPart_of_mem (by decide) (h.near c hc)

theorem number {afterDot : Bool} {cs : List Char} (h : Follows plain tail)
    (hplain : afterDot = false → cs.all Numeral.isDigitOrBar = true → plain = true) :
    Numeral.Stops afterDot cs tail := by
  have hall : nearChars.all (fun c => !c.isAlphanum && !List.contains ['_', '+', '-'] c) = true := by decide
  refine ⟨fun c hc => ?_, fun hdot hcs hpoint => ?_⟩
  · simpa using List.all_eq_true.1 hall c (h.near c hc)
  have hnot := h.point (hplain hdot hcs)
  cases tail with
  | nil => cases hpoint
  | cons c tail => cases hpoint; exact hnot

/-- Signs that none of the near characters joins end before what follows. -/
theorem sign (h : Follows plain tail) {t : Token} (ht : t.joins.any nearChars.contains = false) :
    ∀ c ∈ tail.head?, c ∉ t.joins := by
  intro c hc hjoin
  exact List.any_eq_false.1 ht c hjoin (List.contains_iff_mem.2 (h.near c hc))

end Follows

theorem Prints.weaken [Letters] {plain : Bool} {cs : List Char} {ls : List Lexeme} (h : Prints plain cs ls) :
    Prints true cs ls :=
  fun kind tail ht => h kind tail ht.of_true

/-! ## What a construct begins with -/

/-- The signs that a printed construct may begin with. -/
def openerSigns : List Char := ['\x22', '\x27', '-', ':', '(', '[', '.']

/-- The characters that a printed construct may begin with. -/
def isOpener [Letters] (c : Char) : Bool := isIdentStart c || c.isDigit || openerSigns.contains c

/-- Whether `c` is a sign that no printed construct begins with. -/
def isApart (c : Char) : Bool := isDivider c && !openerSigns.contains c

theorem isOpener_of_isApart [Letters] {c : Char} (h : isApart c = true) : isOpener c = false := by
  rw [isApart, Bool.and_eq_true, Bool.not_eq_true'] at h
  rw [isOpener, isIdentStart_of_isDivider h.1, isDigit_of_isDivider h.1, h.2]
  rfl

/-- Whether a printed construct can begin like the text. -/
def Opens [Letters] (cs : List Char) : Prop := ∃ c rest, cs = c :: rest ∧ isOpener c = true

theorem Opens.of_sign [Letters] {c : Char} {cs : List Char} (h : openerSigns.contains c = true) :
    Opens (c :: cs) :=
  ⟨c, cs, rfl, by rw [isOpener, h, Bool.or_true]⟩

theorem isBlank_of_isOpener [Letters] {c : Char} (h : isOpener c = true) : isBlank c = false := by
  have hall : openerSigns.any isBlank = false := by decide
  simp only [isOpener, Bool.or_eq_true, List.contains_iff_mem] at h
  rcases h with (hstart | hdigit) | hmem
  · exact isBlank_of_isIdentStart hstart
  · exact isBlank_of_isDigit hdigit
  · exact Bool.eq_false_iff.2 (List.any_eq_false.1 hall c hmem)

theorem opens_word [Letters] {cs : List Char} (h : isWord cs = true) : Opens cs := by
  cases cs with
  | nil => cases h
  | cons c cs =>
    rw [isWord, Bool.and_eq_true] at h
    exact ⟨c, cs, rfl, by rw [isOpener, h.1]; rfl⟩

theorem opens_numeral [Letters] {cs : List Char} (h : isNumeral cs = true) : Opens cs := by
  cases cs with
  | nil => cases h
  | cons c cs =>
    simp only [isNumeral, Bool.and_eq_true] at h
    exact ⟨c, cs, rfl, by rw [isOpener, h.1.1, Bool.or_true]; rfl⟩

namespace Opens

variable {cs : List Char}

theorem append [Letters] (h : Opens cs) (ds : List Char) : Opens (cs ++ ds) := by
  obtain ⟨c, rest, rfl, hc⟩ := h
  exact ⟨c, rest ++ ds, rfl, hc⟩

/-- Nothing joins a sign before the construct. -/
theorem head [Letters] (h : Opens cs) {bad : List Char} (hbad : bad.all isApart = true)
    (tail : List Char) : ∀ c ∈ (cs ++ tail).head?, c ∉ bad := by
  obtain ⟨c, rest, rfl, hc⟩ := h
  intro x hx hmem
  cases hx
  rw [isOpener_of_isApart (List.all_eq_true.1 hbad c hmem)] at hc
  cases hc

end Opens

/-! ## Scanning the pieces -/

/-- Signs that nothing joins. -/
def Token.loose : List Token :=
  [.lparen, .rparen, .lbracket, .rbracket, .comma, .question, .pathSep, .dotDotEq]

namespace Lexes

variable {kind : TagKind} {before after : Bool} {cs tail : List Char} {ls : List Lexeme}

/-- A blank before a text is passed by, unless the text begins with another one. -/
theorem space [Letters] {c : Char} (hc : isBlank c = false) (h : Lexes kind before (c :: cs) ls after tail) :
    Lexes kind before (' ' :: c :: cs) ls after tail := by
  have hblank : Lexes kind before [' '] [] before ((c :: cs) ++ tail) := by
    refine blank fun x hx => ?_
    cases hx
    exact hc
  exact hblank.append h

theorem space_opens [Letters] (ho : Opens cs) (h : Lexes kind before cs ls after tail) :
    Lexes kind before (' ' :: cs) ls after tail := by
  obtain ⟨c, rest, rfl, hc⟩ := ho
  exact h.space (isBlank_of_isOpener hc)

/-- A sign or keyword that ends before what follows. -/
theorem sign [Letters] {t : Token} (hs : t.sign? = some cs) (hdot : t ≠ .dot) (hstop : t.Stops before cs tail) :
    Lexes kind before cs [t.lexeme] false tail := by
  have htext : t.lexeme.text = cs := by
    show t.sign?.getD [] = cs
    rw [hs]
    rfl
  have hspells := (Token.is_lexeme (t := t) (by rw [hs]; rfl)).spells
  have hnumber : t ≠ .number := by
    rintro rfl
    cases hs
  have htoken : Lexes kind before t.lexeme.text [t.lexeme] (t.lexeme.token == .dot) tail :=
    token hspells.1 hspells.2 rfl (fun _ h => absurd h hnumber) (by rw [htext]; exact hstop)
  have hafter : (t.lexeme.token == Token.dot) = false := beq_eq_false_iff_ne.2 hdot
  rwa [htext, hafter] at htoken

/-- A bracket, a comma or another loose sign. -/
theorem mark [Letters] {t : Token} (hs : t.sign? = some cs) (ht : t ∈ Token.loose) :
    Lexes kind before cs [t.lexeme] false tail := by
  simp only [Token.loose, List.mem_cons, List.not_mem_nil, or_false] at ht
  rcases ht with rfl | rfl | rfl | rfl | rfl | rfl | rfl | rfl
  all_goals exact sign hs Token.noConfusion fun _ _ => List.not_mem_nil

/-- A text in brackets. -/
theorem enclosed [Letters] {o c : Token} {opening closing : Char} (ho : o.sign? = some [opening])
    (hc : c.sign? = some [closing]) (hloose : o ∈ Token.loose) (hloose' : c ∈ Token.loose)
    (h : Lexes kind false cs ls false (closing :: tail)) :
    Lexes kind before (opening :: (cs ++ [closing])) (o.lexeme :: (ls ++ [c.lexeme])) false tail := by
  have hopen : Lexes kind before [opening] [o.lexeme] false ((cs ++ [closing]) ++ tail) :=
    mark ho hloose
  exact hopen.append (h.append (mark hc hloose'))

/-- A sign or keyword with blanks around it, before a construct. -/
theorem between [Letters] {t : Token} {sign : List Char} (hs : t.sign? = some sign) (hdot : t ≠ .dot)
    (ho : Opens cs) (h : Lexes kind false cs ls after tail) :
    Lexes kind before (' ' :: (sign ++ ' ' :: cs)) (t.lexeme :: ls) after tail := by
  have hspells := (Token.is_lexeme (t := t) (by rw [hs]; rfl)).spells
  have hsign : Lexes kind before sign [t.lexeme] false (' ' :: (cs ++ tail)) :=
    Lexes.sign hs hdot (t.stops_blank before sign _)
  have hall := hsign.append (h.space_opens ho)
  have htext : t.lexeme.text = sign := by
    show t.sign?.getD [] = sign
    rw [hs]
    rfl
  rw [htext] at hspells
  obtain ⟨c, more, rfl⟩ := hspells.1.exists_cons
  exact hall.space (hspells.1.isBlank_head hspells.2)

end Lexes

/-! ## Words -/

/-- A word is a word after a dot as well. -/
theorem lexes_word [Letters] {kind : TagKind} {before plain : Bool} {s : String} {tail : List Char}
    (h : isWord s.toList = true) (ht : Follows plain tail) :
    Lexes kind before s.toList [wordLexeme s] false tail := by
  obtain ⟨hspells, hblank, hdot, hnumber⟩ := IsWord.spells h (l := wordLexeme s) ⟨rfl, rfl⟩
  have hstop : (wordLexeme s).token.Stops before s.toList tail := by
    show (wordToken s).Stops before s.toList tail
    unfold wordToken
    cases Keyword.ofString? s with
    | none => exact ht.word
    | some k => exact ht.word
  rw [← beq_eq_false_iff_ne.2 hdot]
  exact .token hspells hblank rfl (fun _ h => absurd h hnumber) hstop

theorem prints_word [Letters] {s : String} (h : isWord s.toList = true) :
    Prints false s.toList [wordLexeme s] :=
  fun _ _ ht => lexes_word h ht

theorem prints_keyword [Letters] (k : Keyword) : Prints false k.text.toList [(Token.keyword k).lexeme] :=
  fun _ _ ht => .sign rfl Token.noConfusion ht.word

/-- The name of a macro and its mark, before what the mark does not join. -/
theorem lexes_mark [Letters] {kind : TagKind} {s : String} {tail : List Char} (h : isPlainWord s = true)
    (ht : ∀ c ∈ tail.head?, c ≠ '=') :
    Lexes kind false (s.toList ++ ['!']) [.ofText .macroName (s.toList ++ ['!'])] false tail := by
  refine Lexes.token (l := .ofText .macroName (s.toList ++ ['!']))
    ⟨s.toList, rfl, by rw [String.ofList_toList]; exact h⟩ Token.noConfusion rfl nofun ?_
  exact fun c hc hmem => ht c hc (List.mem_singleton.1 hmem)

/-! ## Constants -/

/-- The text begins like a construct and is scanned as lexemes of the given form. -/
def Shows [Letters] (plain : Bool) (R : List Lexeme → Prop) (cs : List Char) : Prop :=
  Opens cs ∧ ∃ ls, R ls ∧ Unmarked ls ∧ Prints plain cs ls

theorem Literal.shows [Letters] {v : Literal} (hn : ∀ n, v = .num n → n.IsWritten) :
    Shows v.isPlainNumber (v.Spelled .printed) v.render.toList := by
  cases v with
  | str v =>
    have htext : (Literal.str v).render.toList = Quoted.text v.toList := String.toList_ofList
    rw [htext]
    refine ⟨.of_sign (by decide), [.ofText .str (Quoted.text v.toList)], .str rfl rfl, by simp, ?_⟩
    exact fun kind tail _ => Lexes.token (l := .ofText .str _) ⟨_, isQuoted_text _⟩ Token.noConfusion
      rfl nofun fun _ _ => List.not_mem_nil
  | char c =>
    have htext : (Literal.char c).render.toList = Quoted.char c := String.toList_ofList
    rw [htext]
    refine ⟨.of_sign (by decide), [.ofText .char (Quoted.char c)], .char rfl rfl, by simp, ?_⟩
    exact fun kind tail _ => Lexes.token (l := .ofText .char _) ⟨_, isQuoted_char _⟩ Token.noConfusion
      rfl nofun fun _ _ => List.not_mem_nil
  | bool b =>
    have htext : (Literal.bool b).render = (if b then Keyword.trueKw else .falseKw).text := by
      cases b <;> rfl
    rw [htext]
    refine ⟨?_, [(boolToken b).lexeme], .bool (Token.is_lexeme (by cases b <;> rfl)), by simp,
      prints_keyword _⟩
    exact opens_word (Keyword.isWord_text _)
  | num n =>
    have hwritten := (hn n rfl).1
    have hnumber : Prints (Literal.num n).isPlainNumber n.raw.toList [.ofText .number n.raw.toList] :=
      fun kind tail ht => Lexes.token (l := .ofText .number n.raw.toList) hwritten Token.noConfusion rfl
        nofun (ht.number fun _ hall => hall)
    cases hneg : n.negative with
    | false =>
      have htext : (Literal.num n).render.toList = n.raw.toList := by simp [Literal.render, hneg]
      rw [htext]
      exact ⟨opens_numeral hwritten, [.ofText .number n.raw.toList], .num hneg rfl rfl, by simp, hnumber⟩
    | true =>
      have htext : (Literal.num n).render.toList = '-' :: n.raw.toList := by
        simp [Literal.render, hneg]
      rw [htext]
      refine ⟨.of_sign (by decide), [Token.minus.lexeme, .ofText .number n.raw.toList],
        .negative hneg (Token.is_lexeme rfl) rfl rfl, by simp, fun kind tail ht => ?_⟩
      have hminus : Lexes kind false ['-'] [Token.minus.lexeme] false (n.raw.toList ++ tail) :=
        .sign rfl Token.noConfusion ((opens_numeral hwritten).head (by decide) tail)
      exact hminus.append (hnumber kind tail ht)

/-! ## Paths -/

theorem Path.toList_renderSegments_cons (separate : Bool) (i : Ident) (more : List Ident) :
    (Path.renderSegments separate (i :: more)).toList =
      (if separate then [':', ':'] else []) ++ (i.name.toList ++
        (Path.renderSegments true more).toList) := by
  cases separate <;> simp [Path.renderSegments]

theorem Path.renderSegments_append (separate : Bool) (front more : List Ident) :
    Path.renderSegments separate (front ++ more) =
      Path.renderSegments separate front ++ Path.renderSegments (separate || !front.isEmpty) more := by
  induction front generalizing separate with
  | nil => simp [Path.renderSegments]
  | cons i front ih => simp [Path.renderSegments, ih, String.append_assoc]

/-- What follows a name in a path may follow a construct. -/
theorem follows_segments (segments : List Ident) {plain : Bool} {tail : List Char}
    (h : Follows plain tail) : Follows false ((Path.renderSegments true segments).toList ++ tail) := by
  cases segments with
  | nil => exact h.false_of
  | cons i more =>
    rw [Path.toList_renderSegments_cons]
    exact .of_cons (by decide) (by decide) _

theorem segments_print [Letters] {segments : List Ident} (h : ∀ i ∈ segments, isName i.name = true) :
    ∃ ls, SegmentsSpelled (fun _ => Unmarked) segments ls ∧ Unmarked ls ∧
      Prints false (Path.renderSegments true segments).toList ls := by
  induction segments with
  | nil => exact ⟨[], .nil, unmarked_nil, fun kind tail _ => .nil kind false tail⟩
  | cons i more ih =>
    obtain ⟨hi, hmore⟩ := List.forall_mem_cons.1 h
    obtain ⟨ls, hls, hplain, hprints⟩ := ih hmore
    refine ⟨_, .cons (Token.is_lexeme rfl) i.spelled_wordLexeme hls, by simp [wordLexeme, hplain],
      fun kind tail ht => ?_⟩
    rw [Path.toList_renderSegments_cons]
    have hsep : Lexes kind false [':', ':'] [Token.pathSep.lexeme] false
        ((i.name.toList ++ (Path.renderSegments true more).toList) ++ tail) := .mark rfl (by decide)
    have hword := prints_word (isWord_of_isName hi) kind _ (follows_segments more ht)
    exact hsep.append (hword.append (hprints kind tail ht))

theorem path_shows [Letters] (global : Bool) {segments : List Ident}
    (h : ∀ i ∈ segments, isName i.name = true) (hne : segments ≠ []) :
    Shows false (PathSpelled (fun _ => Unmarked) global segments)
      (Path.renderSegments global segments).toList := by
  obtain ⟨i, more, rfl⟩ := List.exists_cons_of_ne_nil hne
  cases global with
  | true =>
    obtain ⟨ls, hls, hplain, hprints⟩ := segments_print h
    refine ⟨?_, ls, .absolute hls, hplain, hprints⟩
    rw [Path.toList_renderSegments_cons]
    exact .of_sign (by decide)
  | false =>
    obtain ⟨hi, hmore⟩ := List.forall_mem_cons.1 h
    obtain ⟨ls, hls, hplain, hprints⟩ := segments_print hmore
    rw [Path.toList_renderSegments_cons]
    refine ⟨(opens_word (isWord_of_isName hi)).append _, _, .relative i.spelled_wordLexeme hls,
      by simp [wordLexeme, hplain], fun kind tail ht => ?_⟩
    have hword := prints_word (isWord_of_isName hi) kind _ (follows_segments more ht)
    exact hword.append (hprints kind tail ht)

/-! ## Lists -/

theorem toList_joinWith_cons (sep s t : String) (rest : List String) :
    (joinWith sep (s :: t :: rest)).toList =
      s.toList ++ (sep.toList ++ (joinWith sep (t :: rest)).toList) := by
  simp [joinWith]

theorem opens_joinWith [Letters] (sep : String) {s : String} (h : Opens s.toList) (rest : List String) :
    Opens (joinWith sep (s :: rest)).toList := by
  cases rest with
  | nil => exact h
  | cons t rest =>
    rw [toList_joinWith_cons]
    exact h.append _

/-- Constructs with commas between them are scanned as a list. -/
theorem commas_print [Letters] {α β : Type} {R : β → List Lexeme → Prop} {g : α → β} {text : α → String}
    (plain : α → Bool) {xs : List α} (h : ∀ x ∈ xs, Shows (plain x) (R (g x)) (text x).toList) :
    ∃ ls, Commas R (xs.map g) false ls ∧ Unmarked ls ∧
      Prints true (joinWith ", " (xs.map text)).toList ls := by
  induction xs with
  | nil => exact ⟨[], .none, unmarked_nil, fun kind tail _ => .nil kind false tail⟩
  | cons x xs ih =>
    obtain ⟨⟨-, a, ha, hplain, hprints⟩, hmore⟩ := List.forall_mem_cons.1 h
    cases xs with
    | nil => exact ⟨a, .last ha, hplain, hprints.weaken⟩
    | cons y ys =>
      obtain ⟨b, hb, hplain', hprints'⟩ := ih hmore
      refine ⟨_, .more ha (Token.is_lexeme rfl) hb, by simp [hplain, hplain'], fun kind tail ht => ?_⟩
      rw [List.map_cons, List.map_cons, toList_joinWith_cons]
      have hopens := opens_joinWith ", " (List.forall_mem_cons.1 hmore).1.1 (ys.map text)
      have hcomma : Lexes kind false [','] [Token.comma.lexeme] false
          (' ' :: (joinWith ", " (text y :: ys.map text)).toList ++ tail) := .mark rfl (by decide)
      have hrest := hcomma.append ((hprints' kind tail ht).space_opens hopens)
      exact (hprints kind _ (.of_cons (by decide) (by decide) _)).append hrest

end Stencil
