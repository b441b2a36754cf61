/-
  NestedComment — a tree of comments is read as one comment.

  Comments nest, so the texts that should be read as a comment are trees: between its delimiters a
  comment has texts and further comments (`CommentInside`).  With the standard delimiters a text must
  hold no hash and must not end in an opening brace, or it would make a delimiter with what is next to
  it.  Under this condition, which the trees carry with them, the scanner finds the end of the tree.

  The argument is on what the scanner does with each part of a tree, whatever follows: it gets over the
  part and has as many comments open as before (`Crosses`).  A modifier is a text like any other in
  this, though the scanner takes it together with a closing delimiter after it; only the modifier
  directly after the first opening delimiter is left to that delimiter.
-/
import Stencil.Proofs.Template.CommentTrims

namespace Stencil

/-! ## Trees of comments -/

/-- A text in a comment that makes no delimiter with what stands next to it. -/
structure CommentText where
  chars : List Char
  noHash : '#' ∉ chars
  noBrace : chars.getLast? ≠ some '\x7b'

/-- What may stand between the delimiters of a comment: texts and further comments, each of which may
    have modifiers at its delimiters. -/
inductive CommentInside where
  | nothing
  | text (cs : CommentText) (more : CommentInside)
  | nested (opening : Option Trim) (inside : CommentInside) (closing : Option Trim)
      (more : CommentInside)

/-- The characters of a comment's inside. -/
def CommentInside.chars : CommentInside → List Char
  | nothing => []
  | text cs more => cs.chars ++ more.chars
  | nested opening inside closing more =>
    ['\x7b', '#'] ++ (Trim.text opening ++ (inside.chars ++ (Trim.text closing ++ ['#', '\x7d']))) ++
      more.chars

/-- A comment with the comments in it. -/
structure NestedComment where
  opening : Option Trim
  inside : CommentInside
  closing : Option Trim

namespace NestedComment

/-- The characters between the two outer delimiters. -/
def between (c : NestedComment) : List Char :=
  Trim.text c.opening ++ (c.inside.chars ++ Trim.text c.closing)

/-- The characters of a comment that lacks its closing delimiter. -/
def opened (c : NestedComment) : List Char := ['\x7b', '#'] ++ c.between

/-- The characters of a comment. -/
def chars (c : NestedComment) : List Char := c.opened ++ ['#', '\x7d']

/-- The modifiers of a comment: the character behind its opening delimiter, and the one in front of its
    closing delimiter unless it is the former. -/
def trims (c : NestedComment) : Trims where
  opening := Trim.ofHead? c.between
  closing := (c.between.drop (Trim.width (Trim.ofHead? c.between))).getLast?.bind Trim.ofChar?

end NestedComment

/-! ## Crossing a text -/

/-- The standard delimiters of comments. -/
def hashPair : DelimPair := ⟨⟨'\x7b', ['#']⟩, ⟨'#', ['\x7d']⟩⟩

namespace NestedComment

/-- The number of characters that a comment goes on with, where `outer` nested comments are open. -/
def endsAfter (outer : Nat) (cs : List Char) : Option Nat :=
  (hashPair.commentEnd outer cs).map (·.1)

variable {outer a b c : Nat} {x : Char} {cs used used' : List Char}

theorem endsAfter_nil : endsAfter outer [] = none := by
  rw [endsAfter, DelimPair.commentEnd_nil]
  rfl

theorem startsAt_cons_of_ne {d : Delim} (h : x ≠ d.head) : d.startsAt (x :: cs) = false := by
  rw [Bool.eq_false_iff, Ne, Delim.startsAt_iff]
  intro hprefix
  exact h (List.cons_prefix_cons.1 hprefix).1.symm

theorem endsAfter_opening : endsAfter outer ('\x7b' :: '#' :: cs) =
    (endsAfter (outer + 1) cs).map (· + 2) := by
  have ho : hashPair.opening.startsAt ('\x7b' :: '#' :: cs) = true :=
    Delim.startsAt_iff.2 ⟨cs, rfl⟩
  unfold endsAfter
  rw [DelimPair.commentEnd_of_opening ho, Option.map_map, Option.map_map]
  rfl

theorem closingAt_hash : hashPair.closingAt ('#' :: '\x7d' :: cs) = some ⟨hashPair.closing, none⟩ := by
  have hc : hashPair.closing.startsAt ('#' :: '\x7d' :: cs) = true :=
    Delim.startsAt_iff.2 ⟨cs, rfl⟩
  unfold DelimPair.closingAt
  rw [hc]
  rfl

theorem startsAt_hash : hashPair.opening.startsAt ('#' :: cs) = false :=
  startsAt_cons_of_ne (by decide)

theorem endsAfter_closing : endsAfter (outer + 1) ('#' :: '\x7d' :: cs) =
    (endsAfter outer cs).map (· + 2) := by
  unfold endsAfter
  rw [DelimPair.commentEnd_of_closing startsAt_hash closingAt_hash, Option.map_map, Option.map_map]
  rfl

theorem endsAfter_last : endsAfter 0 ('#' :: '\x7d' :: cs) = some 2 := by
  unfold endsAfter
  rw [DelimPair.commentEnd_of_last startsAt_hash closingAt_hash]
  rfl

/-- A character that does not begin a delimiter is passed over; if it is a modifier and a closing
    delimiter comes next, the scanner takes the two together, which makes no difference. -/
theorem endsAfter_other (hhash : x ≠ '#') (hbrace : x = '\x7b' → cs.head? ≠ some '#') :
    endsAfter outer (x :: cs) = (endsAfter outer cs).map (· + 1) := by
  have ho : hashPair.opening.startsAt (x :: cs) = false := by
    rw [Bool.eq_false_iff, Ne, Delim.startsAt_iff]
    rintro ⟨more, hmore⟩
    obtain ⟨rfl, rfl⟩ := List.cons.inj hmore
    exact hbrace rfl rfl
  have hplain : hashPair.closing.startsAt (x :: cs) = false := startsAt_cons_of_ne hhash
  have other : hashPair.closingAt (x :: cs) = none →
      endsAfter outer (x :: cs) = (endsAfter outer cs).map (· + 1) := by
    intro hc
    unfold endsAfter
    rw [DelimPair.commentEnd_of_other ho hc, Option.map_map, Option.map_map]
    rfl
  cases htrim : Trim.ofChar? x with
  | none =>
    refine other ?_
    unfold DelimPair.closingAt
    rw [hplain, show Trim.ofHead? (x :: cs) = none from htrim]
    rfl
  | some t =>
    cases hnext : hashPair.closing.startsAt cs with
    | false =>
      refine other ?_
      unfold DelimPair.closingAt
      rw [hplain, show Trim.ofHead? (x :: cs) = some t from htrim, List.tail_cons, hnext]
      rfl
    | true =>
      have hc : hashPair.closingAt (x :: cs) = some ⟨hashPair.closing, some t⟩ := by
        unfold DelimPair.closingAt
        rw [show Trim.ofHead? (x :: cs) = some t from htrim, List.tail_cons, hnext]
        rfl
      obtain ⟨more, rfl⟩ := Delim.startsAt_iff.1 hnext
      cases outer with
      | zero =>
        have hlast : endsAfter 0 (hashPair.closing.text ++ more) = some 2 := endsAfter_last
        rw [hlast, endsAfter, DelimPair.commentEnd_of_last ho hc]
        rfl
      | succ outer =>
        have hclosing : endsAfter (outer + 1) (hashPair.closing.text ++ more) = _ := endsAfter_closing
        rw [hclosing]
        unfold endsAfter
        rw [DelimPair.commentEnd_of_closing ho hc, Option.map_map, Option.map_map, Option.map_map]
        rfl

/-- Whatever follows, the scanner gets over the characters, with `a` comments open before them and `b`
    behind them. -/
def Crosses (a : Nat) (used : List Char) (b : Nat) : Prop :=
  ∀ tail, endsAfter a (used ++ tail) = (endsAfter b tail).map (· + used.length)

theorem Crosses.nil : Crosses a [] a := by
  intro tail
  exact Option.map_id'.symm

theorem Crosses.append (h : Crosses a used b) (h' : Crosses b used' c) :
    Crosses a (used ++ used') c := by
  intro tail
  rw [List.append_assoc, h, h', Option.map_map, List.length_append]
  refine congrArg (fun f => Option.map f (endsAfter c tail)) (funext fun n => ?_)
  show n + used'.length + used.length = n + (used.length + used'.length)
  omega

/-- What follows a part that the scanner gets over is crossed as the whole is. -/
theorem Crosses.behind (h : Crosses a used b) (h' : Crosses a (used ++ used') c) :
    Crosses b used' c := by
  intro tail
  refine Option.map_injective (add_left_injective used.length) ?_
  rw [← h, ← List.append_assoc, h', Option.map_map, List.length_append]
  refine congrArg (fun f => Option.map f (endsAfter c tail)) (funext fun n => ?_)
  show n + (used.length + used'.length) = n + used'.length + used.length
  omega

theorem crosses_text (hhash : '#' ∉ cs) (hbrace : cs.getLast? ≠ some '\x7b') : Crosses a cs a := by
  induction cs with
  | nil => exact .nil
  | cons x cs ih =>
    have hmore : Crosses a cs a := by
      refine ih (fun hmem => hhash (List.mem_cons_of_mem x hmem)) fun hlast => hbrace ?_
      rw [List.getLast?_cons, hlast]
      rfl
    have hfirst : ∀ tail, endsAfter a (x :: (cs ++ tail)) = (endsAfter a (cs ++ tail)).map (· + 1) := by
      intro tail
      refine endsAfter_other (fun hx => hhash (hx ▸ List.mem_cons_self)) ?_
      rintro rfl hhead
      cases cs with
      | nil => exact hbrace rfl
      | cons y cs =>
        cases hhead
        exact hhash (List.mem_cons_of_mem _ List.mem_cons_self)
    intro tail
    rw [List.cons_append, hfirst, hmore, Option.map_map]
    rfl

theorem crosses_trim (t : Option Trim) : Crosses a (Trim.text t) a := by
  rcases t with _ | _ | _ | _ <;> exact crosses_text (by decide) (by decide)

theorem crosses_inside (i : CommentInside) (outer : Nat) : Crosses outer i.chars outer := by
  induction i generalizing outer with
  | nothing => exact .nil
  | text cs more ih => exact (crosses_text cs.noHash cs.noBrace).append (ih outer)
  | nested opening inside closing more ih ihMore =>
    have hopening : Crosses outer ['\x7b', '#'] (outer + 1) := fun _ => endsAfter_opening
    have hclosing : Crosses (outer + 1) ['#', '\x7d'] outer := fun _ => endsAfter_closing
    exact (hopening.append ((crosses_trim opening).append ((ih (outer + 1)).append
      ((crosses_trim closing).append hclosing)))).append (ihMore outer)

/-- The scanner gets over what stands between the delimiters of a tree. -/
theorem crosses_between (c : NestedComment) : Crosses 0 c.between 0 :=
  (crosses_trim c.opening).append ((crosses_inside c.inside 0).append (crosses_trim c.closing))

/-- The characters between the outer delimiters, without the modifier of the opening one. -/
def behind (c : NestedComment) : List Char :=
  c.between.drop (Trim.width (Trim.ofHead? c.between))

theorem text_append_behind (c : NestedComment) :
    Trim.text (Trim.ofHead? c.between) ++ c.behind = c.between := by
  rw [← Trim.take_width_ofHead?]
  exact List.take_append_drop _ _

theorem crosses_behind (c : NestedComment) : Crosses 0 c.behind 0 :=
  (crosses_trim (Trim.ofHead? c.between)).behind (by
    rw [text_append_behind]
    exact crosses_between c)

/-! ## Reading a tree -/

variable {tail : List Char}

/-- What stands behind a tree of comments does not give it a modifier. -/
theorem ofHead?_between (c : NestedComment) (htail : Trim.ofHead? tail = none) :
    Trim.ofHead? (c.between ++ tail) = Trim.ofHead? c.between := by
  cases c.between with
  | nil => exact htail
  | cons x cs => rfl

/-- The outer opening delimiter of a tree of comments. -/
def delim (c : NestedComment) : Opening := ⟨.comment, hashPair.opening, Trim.ofHead? c.between⟩

theorem openingAt_opened (c : NestedComment) (htail : Trim.ofHead? tail = none) :
    Delims.standard.openingAt (c.opened ++ tail) = some c.delim := by
  have hlongest : ∀ cs, Delims.standard.longestAt ('\x7b' :: '#' :: cs) =
      some (.comment, hashPair.opening) := fun cs => rfl
  unfold Delims.openingAt
  rw [show c.opened ++ tail = '\x7b' :: '#' :: (c.between ++ tail) from rfl, hlongest]
  exact congrArg (fun trim => some (Opening.mk .comment hashPair.opening trim))
    (c.ofHead?_between htail)

theorem drop_opened (c : NestedComment) (tail : List Char) :
    (c.opened ++ tail).drop c.delim.size = c.behind ++ tail := by
  have hbetween : c.between ++ tail = Trim.text (Trim.ofHead? c.between) ++ (c.behind ++ tail) := by
    rw [← List.append_assoc, text_append_behind]
  show (['\x7b', '#'] ++ (c.between ++ tail)).drop (['\x7b', '#'].length + _) = _
  rw [List.drop_length_add_append, hbetween]
  exact List.drop_left' (Trim.length_text _)

theorem length_opened (c : NestedComment) : c.opened.length = c.delim.size + c.behind.length := by
  have hlength := congrArg List.length c.text_append_behind
  rw [List.length_append, Trim.length_text] at hlength
  rw [opened, List.length_append, ← hlength]
  exact (Nat.add_assoc _ _ _).symm

/-- A tree of comments is read as one comment, and reading goes on behind it. -/
theorem turn_of_chars [Letters] (limit : Nat) (c : NestedComment) (tail : List Char) :
    Region.Turn ⟨.standard, limit⟩ (Lexer.start (c.chars ++ tail))
      ⟨some (.comment c.trims ⟨0, byteLen c.chars⟩), none⟩
      ⟨byteLen c.chars, tail, .template⟩ := by
  let s : Settings := ⟨.standard, limit⟩
  let rest : List Char := c.opened ++ (['#', '\x7d'] ++ tail)
  have hrest : c.chars ++ tail = rest := List.append_assoc _ _ _
  have ho : Delims.standard.openingAt rest = some c.delim := c.openingAt_opened rfl
  have hmore : endsAfter 0 (rest.drop c.delim.size) = some (c.behind.length + 2) := by
    rw [drop_opened, crosses_behind c]
    show (endsAfter 0 ('#' :: '\x7d' :: tail)).map _ = _
    rw [endsAfter_last, Option.map_some, Nat.add_comm]
  have hsize : c.delim.size + (c.behind.length + 2) = c.chars.length := by
    rw [chars, List.length_append, length_opened]
    exact (Nat.add_assoc _ _ _).symm
  have htake : rest.take c.chars.length = c.chars := by
    rw [← hrest]
    exact List.take_left
  have hdrop : rest.drop c.chars.length = tail := by
    rw [← hrest]
    exact List.drop_left
  have htrims : Delims.standard.commentTrims c.chars true = c.trims := by
    obtain ⟨⟨k, t⟩, hend, hk⟩ := Option.map_eq_some_iff.1 hmore
    obtain rfl : k = _ := hk
    obtain ⟨htrims, -⟩ := Delims.commentTrims_of_end rfl ho hend
    rw [hsize, htake] at htrims
    rw [htrims]
    have hbefore : (rest.drop c.delim.size).take (c.behind.length + 2 - hashPair.closing.length) =
        c.behind := by
      rw [drop_opened]
      exact List.take_left
    exact congrArg (fun before => Trims.mk _ (List.getLast? before >>= Trim.ofChar?)) hbefore
  rw [hrest]
  have hstep : (Lexer.start rest).step s.delims = _ :=
    Lexer.step_of_emits (.comment rfl (List.cons_ne_nil _ _) ho rfl hmore)
  have hturn := Region.Turn.lexeme hstep rfl
  rw [hsize] at hturn
  have hlexeme : (Lexer.start rest).lexeme .comment c.chars.length none =
      ⟨.comment, ⟨0, byteLen c.chars⟩, c.chars, none⟩ := by
    show Lexeme.mk .comment ⟨0, 0 + byteLen (rest.take c.chars.length)⟩ (rest.take c.chars.length) none
      = _
    rw [htake, Nat.zero_add]
  have hnext : (Lexer.start rest).advance c.chars.length .template =
      ⟨byteLen c.chars, tail, .template⟩ := by
    show Lexer.mk (0 + byteLen (rest.take c.chars.length)) (rest.drop c.chars.length) .template = _
    rw [htake, hdrop, Nat.zero_add]
  rw [hlexeme, hnext] at hturn
  rw [← htrims]
  exact hturn

/-- A tree of comments that lacks its last delimiter goes on to the end of the source. -/
theorem turn_of_opened [Letters] (limit : Nat) (c : NestedComment) :
    Region.Turn ⟨.standard, limit⟩ (Lexer.start c.opened)
      ⟨some (.comment ⟨c.trims.opening, none⟩ ⟨0, byteLen c.opened⟩),
        some ⟨.unclosedComment, ⟨0, 2 + Trim.width c.trims.opening⟩⟩⟩
      ⟨byteLen c.opened, [], .template⟩ := by
  let s : Settings := ⟨.standard, limit⟩
  have ho : Delims.standard.openingAt c.opened = some c.delim := by
    have hnil : Trim.ofHead? [] = none := rfl
    have ho := c.openingAt_opened hnil
    rwa [List.append_nil] at ho
  have hdrop : c.opened.drop c.delim.size = c.behind := by
    have hdrop := c.drop_opened []
    rwa [List.append_nil, List.append_nil] at hdrop
  have hmore : endsAfter 0 (c.opened.drop c.delim.size) = none := by
    have hcrosses := crosses_behind c []
    rw [List.append_nil, endsAfter_nil] at hcrosses
    rw [hdrop, hcrosses]
    rfl
  have hstep : (Lexer.start c.opened).step s.delims = _ :=
    Lexer.step_of_refuses (.comment rfl (List.cons_ne_nil _ _) ho rfl hmore)
  have hturn := Region.Turn.fault hstep
  have hnext : (Lexer.start c.opened).advance (Lexer.start c.opened).rest.length .template =
      ⟨byteLen c.opened, [], .template⟩ := by
    show Lexer.mk (0 + byteLen (c.opened.take c.opened.length)) (c.opened.drop c.opened.length)
      .template = _
    rw [List.take_length, List.drop_length, Nat.zero_add]
  have hspan : (Lexer.start c.opened).spanOf c.delim.size =
      ⟨0, 2 + Trim.width c.trims.opening⟩ := by
    obtain ⟨pair, hpair, -, htext⟩ := Delims.opening_text ho rfl
    cases hpair
    have hwidth : byteLen (Trim.text c.delim.trim) = Trim.width c.trims.opening := by
      show byteLen (Trim.text c.trims.opening) = _
      rcases c.trims.opening with _ | _ | _ | _ <;> rfl
    show Span.mk 0 (0 + byteLen (c.opened.take c.delim.size)) = _
    rw [htext, byteLen_append, hwidth, Nat.zero_add]
    rfl
  rw [hspan, hnext] at hturn
  have hregion : Region.ofFault s.delims (Lexer.start c.opened) ⟨byteLen c.opened, [], .template⟩
      ⟨.unclosedComment, ⟨0, 2 + Trim.width c.trims.opening⟩⟩ =
      ⟨some (.comment ⟨c.trims.opening, none⟩ ⟨0, byteLen c.opened⟩),
        some ⟨.unclosedComment, ⟨0, 2 + Trim.width c.trims.opening⟩⟩⟩ := by
    have hne : (Span.mk 0 (byteLen c.opened)).isEmpty = false :=
      beq_false_of_ne (Nat.ne_of_lt (byteLen_pos (List.cons_ne_nil _ _)))
    have htrims : Delims.standard.commentTrims c.opened false = ⟨c.trims.opening, none⟩ := by
      unfold Delims.commentTrims
      rw [ho]
      rfl
    unfold Region.ofFault
    dsimp only
    rw [show (Span.mk (Lexer.start c.opened).pos (byteLen c.opened)).isEmpty = false from hne,
      if_neg Bool.false_ne_true]
    exact congrArg (fun trims => Region.mk (some (.comment trims ⟨0, byteLen c.opened⟩)) _) htrims
  rw [hregion] at hturn
  exact hturn

end NestedComment

namespace Template

/-- With the standard delimiters, a source that begins with a tree of comments has one comment for it
    as its first node.  That comment spans the tree, its modifiers are the characters next to its outer
    delimiters, one character not being taken for both, and nothing is reported about it: what comes
    behind it is read as if it stood alone.  If the last delimiter of the tree is missing and nothing
    follows, the tree is still one comment, and the one report is about its opening delimiter. -/
theorem nested_comment_read [Letters] (limit : Nat) (c : NestedComment) (tail : String) :
    let whole := Settings.parse ⟨.standard, limit⟩ (String.ofList c.chars ++ tail)
    let behind := Settings.parse ⟨.standard, limit⟩ tail
    let cut := Settings.parse ⟨.standard, limit⟩ (String.ofList c.opened)
    whole.template.nodes = .comment c.trims ⟨0, byteLen c.chars⟩ ::
        behind.template.nodes.map (move (· + byteLen c.chars)) ∧
      whole.diagnostics = behind.diagnostics.map (Diagnostic.shift (byteLen c.chars)) ∧
      cut.template.nodes = [.comment ⟨c.trims.opening, none⟩ ⟨0, byteLen c.opened⟩] ∧
      cut.diagnostics = [⟨.unclosedComment, ⟨0, 2 + Trim.width c.trims.opening⟩⟩] := by
  intro whole behind cut
  let s : Settings := ⟨.standard, limit⟩
  have hwhole : regions s (Lexer.start (String.ofList c.chars ++ tail).toList) =
      ⟨some (.comment c.trims ⟨0, byteLen c.chars⟩), none⟩ ::
        (regions s (Lexer.start tail.toList)).map (move (· + byteLen c.chars)) := by
    have hshift := regions_shift (byteLen c.chars) s (Lexer.start tail.toList) rfl
    rw [String.toList_append, String.toList_ofList, (c.turn_of_chars limit tail.toList).regions_eq]
    refine congrArg (_ :: ·) (Eq.trans ?_ hshift)
    show _ = regions s ⟨0 + byteLen c.chars, tail.toList, .template⟩
    rw [Nat.zero_add]
  have hcut : regions s (Lexer.start (String.ofList c.opened).toList) =
      [⟨some (.comment ⟨c.trims.opening, none⟩ ⟨0, byteLen c.opened⟩),
        some ⟨.unclosedComment, ⟨0, 2 + Trim.width c.trims.opening⟩⟩⟩] := by
    rw [String.toList_ofList, (c.turn_of_opened limit).regions_eq, regions_nil]
  refine ⟨?_, ?_, ?_, ?_⟩
  · show (regions s (Lexer.start (String.ofList c.chars ++ tail).toList)).filterMap (·.node) = _
    rw [hwhole]
    refine congrArg (Node.comment c.trims ⟨0, byteLen c.chars⟩ :: ·) ?_
    rw [List.filterMap_map]
    exact List.map_filterMap.symm
  · show (regions s (Lexer.start (String.ofList c.chars ++ tail).toList)).filterMap (·.diagnostic) = _
    rw [hwhole, List.filterMap_cons_none rfl, List.filterMap_map]
    exact List.map_filterMap.symm
  · show (regions s (Lexer.start (String.ofList c.opened).toList)).filterMap (·.node) = _
    rw [hcut]
    rfl
  · show (regions s (Lexer.start (String.ofList c.opened).toList)).filterMap (·.diagnostic) = _
    rw [hcut]
    rfl

end Template

end Stencil
