/-
  Delims — finding delimiters by byte offsets.

  An opening delimiter is looked for at an offset, and so is a closing one; both give a `Mark`, with the
  bytes that the delimiter takes.  The searches on top of them step over the source by offsets that they
  compute from marks: the next opening delimiter, the end of a comment, the end of a raw block.

  Two offsets deserve care.  The search for the next opening delimiter tries every byte, those inside a
  character included; there it asks for the text without insisting on it, and gets none (`At.inside`).  And
  a modifier is one byte, so the byte after it or before it is the beginning of a character.
-/
import Stencil.Proofs.Checked.Text
import Stencil.Proofs.Lexer.Nesting
import Stencil.Proofs.Template.EndTag

namespace Stencil.Checked

/-- A delimiter with its modifier, and the bytes it takes. -/
structure Mark where
  kind : DelimKind
  start : Nat
  stop : Nat
  trim : Option Trim

variable {d : Delims} {p : DelimPair} {source rest cs : List Char} {i n fuel outer : Nat} {c : Char}
  {o : Opening} {close : Closing}

theorem byteLen_text (t : Option Trim) : byteLen (Trim.text t) = Trim.width t := by
  rcases t with _ | t
  · rfl
  · cases t <;> rfl

/-! ## Opening delimiters -/

/-- The opening delimiter at byte `i`.  Without a text that begins there, there is none. -/
def beginAt? (d : Delims) (source : List Char) (i : Nat) : Option (Option Mark) :=
  match from? i source with
  | none => some none
  | some rest =>
    match d.longestAt rest with
    | none => some none
    | some found => do
      let stop := i + byteLen found.2.text
      let trim := Trim.ofHead? (← from? stop source)
      return some ⟨found.1, i, stop + Trim.width trim, trim⟩

/-- The mark of an opening delimiter at byte `i`. -/
def openingMark (i : Nat) (o : Opening) : Mark :=
  ⟨o.kind, i, i + (byteLen o.delim.text + Trim.width o.trim), o.trim⟩

theorem stop_openingMark (h : d.openingAt rest = some o) (i : Nat) :
    (openingMark i o).stop = i + byteLen (rest.take o.size) := by
  obtain ⟨pair, -, hdelim, htext⟩ := Delims.opening_text h rfl
  rw [htext, byteLen_append, byteLen_text, ← hdelim]
  rfl

/-- After an opening delimiter the text goes on where its mark ends. -/
theorem At.opening (h : At source i rest) (ho : d.openingAt rest = some o) :
    At source (openingMark i o).stop (rest.drop o.size) := by
  rw [stop_openingMark ho]
  exact h.drop _

theorem beginAt?_eq (h : At source i rest) :
    beginAt? d source i = some ((d.openingAt rest).map (openingMark i)) := by
  unfold beginAt? Delims.openingAt
  cases hlongest : d.longestAt rest with
  | none => simp only [h.from?, hlongest, Option.map_none]
  | some found =>
    obtain ⟨-, hstarts⟩ := Delims.longestAt_mem hlongest
    have htake : rest.take found.2.length = found.2.text :=
      take_length_of_isPrefix (Delim.startsAt_iff.1 hstarts)
    have hafter := (h.drop found.2.length).from?
    rw [htake] at hafter
    simp only [h.from?, hlongest, hafter, Option.bind_eq_bind, Option.bind_some, Option.pure_def,
      Option.map_some, openingMark, Nat.add_assoc]

/-- Without a text at the offset there is no opening delimiter. -/
theorem beginAt?_of_none (h : from? i source = none) : beginAt? d source i = some none := by
  rw [beginAt?, h]

/-- Looking for an opening delimiter never goes wrong, not even inside a character. -/
theorem exists_beginAt? (d : Delims) (source : List Char) (i : Nat) :
    ∃ found, beginAt? d source i = some found := by
  cases hfrom : from? i source with
  | none => exact ⟨none, beginAt?_of_none hfrom⟩
  | some rest => exact ⟨_, beginAt?_eq (at_of_from? hfrom)⟩

/-! ## Closing delimiters -/

/-- The closing delimiter of the kind at byte `i`, with a modifier before it if there is one. -/
def endAt? (d : Delims) (kind : DelimKind) (source : List Char) (i : Nat) : Option (Option Mark) :=
  match d.pair kind with
  | none => some none
  | some p =>
    match from? i source with
    | none => some none
    | some rest =>
      let size := byteLen p.closing.text
      let plain := if p.closing.startsAt rest then some ⟨kind, i, i + size, none⟩ else none
      match Trim.ofHead? rest with
      | none => some plain
      | some t => do
        let tail ← from? 1 rest
        return if p.closing.startsAt tail then some ⟨kind, i, i + 1 + size, some t⟩ else plain

/-- The mark of a closing delimiter at byte `i`. -/
def closingMark (kind : DelimKind) (i : Nat) (c : Closing) : Mark :=
  ⟨kind, i, i + (Trim.width c.trim + byteLen c.delim.text), c.trim⟩

theorem stop_closingMark (h : p.closingAt rest = some close) (kind : DelimKind) (i : Nat) :
    (closingMark kind i close).stop = i + byteLen (rest.take close.size) := by
  obtain ⟨htext, hdelim⟩ := DelimPair.closing_text h
  rw [htext, byteLen_append, byteLen_text, ← hdelim]
  rfl

theorem At.closing (h : At source i rest) (hc : p.closingAt rest = some close) (kind : DelimKind) :
    At source (closingMark kind i close).stop (rest.drop close.size) := by
  rw [stop_closingMark hc]
  exact h.drop _

theorem endAt?_eq (h : At source i rest) (kind : DelimKind) :
    endAt? d kind source i =
      some (((d.pair kind).bind fun p => p.closingAt rest).map (closingMark kind i)) := by
  unfold endAt?
  cases d.pair kind with
  | none => rfl
  | some p =>
    simp only [h.from?, Option.bind_some]
    unfold DelimPair.closingAt
    cases htrim : Trim.ofHead? rest with
    | none =>
      dsimp only
      split <;> simp [closingMark, Trim.width]
    | some t =>
      -- The modifier is a single byte.
      have hrest := Trim.ofHead?_eq_some htrim
      have htail : from? 1 rest = some rest.tail := by
        have hone : At rest (0 + t.toChar.utf8Size) rest.tail :=
          At.cons (by rw [← hrest]; exact At.start rest)
        have hsize : t.toChar.utf8Size = 1 := by cases t <;> rfl
        rw [hsize, Nat.zero_add] at hone
        exact hone.from?
      simp only [htail, Option.bind_eq_bind, Option.bind_some, Option.pure_def]
      split
      · simp [closingMark, Trim.width, Nat.add_assoc]
      · split <;> simp [closingMark, Trim.width]

/-- Without a text at the offset there is no closing delimiter. -/
theorem endAt?_of_none {kind : DelimKind} (h : from? i source = none) : endAt? d kind source i = some none := by
  unfold endAt?
  cases d.pair kind with
  | none => rfl
  | some p => rw [h]

/-- Looking for a closing delimiter never goes wrong either. -/
theorem exists_endAt? (d : Delims) (kind : DelimKind) (source : List Char) (i : Nat) :
    ∃ found, endAt? d kind source i = some found := by
  cases hfrom : from? i source with
  | none => exact ⟨none, endAt?_of_none hfrom⟩
  | some rest => exact ⟨_, endAt?_eq (at_of_from? hfrom) kind⟩

/-! ## The next opening delimiter -/

/-- The first opening delimiter at one of `n` offsets from `i` on. -/
def findBegin? (d : Delims) (source : List Char) : Nat → Nat → Option (Option Mark)
  | 0, _ => some none
  | n + 1, i => do
    match ← beginAt? d source i with
    | some m => return some m
    | none => findBegin? d source n (i + 1)

/-- The first opening delimiter at or after byte `i`. -/
def nextBegin? (d : Delims) (source : List Char) (i : Nat) : Option (Option Mark) :=
  findBegin? d source (byteLen source - i) i

theorem findOpening_cons (d : Delims) (c : Char) (cs : List Char) :
    d.findOpening (c :: cs) =
      match d.openingAt (c :: cs) with
      | some o => some (0, o)
      | none => (d.findOpening cs).map fun found => (found.1 + 1, found.2) := by
  rw [Delims.findOpening]
  split
  · rfl
  · next hmay =>
    rw [Delims.openingAt_eq_none_of_mayOpen (Bool.eq_false_iff.2 hmay)]

/-- Inside a character nothing is found. -/
theorem findBegin?_inside (h : At source i (c :: rest)) (n : Nat) {k : Nat} (hpos : 0 < k)
    (hle : k ≤ c.utf8Size) :
    findBegin? d source (c.utf8Size - k + n) (i + k) =
      findBegin? d source n (i + c.utf8Size) := by
  induction hm : c.utf8Size - k generalizing k with
  | zero =>
    obtain rfl : k = c.utf8Size := by omega
    rw [Nat.zero_add]
  | succ m ih =>
    rw [Nat.succ_add, findBegin?, beginAt?_of_none (h.inside hpos (by omega))]
    exact ih (Nat.succ_pos k) (by omega) (by omega)

theorem findBegin?_eq (h : At source i rest) :
    findBegin? d source (byteLen rest) i =
      some ((d.findOpening rest).map fun found =>
        openingMark (i + byteLen (rest.take found.1)) found.2) := by
  induction rest generalizing i with
  | nil => rfl
  | cons c rest ih =>
    have hsize := c.utf8Size_pos
    have hcount : byteLen (c :: rest) = (c.utf8Size - 1 + byteLen rest) + 1 := by
      rw [byteLen_cons]
      omega
    rw [hcount, findBegin?, beginAt?_eq h, findOpening_cons]
    cases ho : d.openingAt (c :: rest) with
    | some o => rfl
    | none =>
      show findBegin? d source _ (i + 1) = _
      rw [findBegin?_inside h _ Nat.one_pos hsize, ih h.cons]
      cases d.findOpening rest with
      | none => rfl
      | some found =>
        show some (some (openingMark _ found.2)) = some (some (openingMark _ found.2))
        rw [List.take_succ_cons, byteLen_cons, Nat.add_assoc]

theorem nextBegin?_eq (h : At source i rest) :
    nextBegin? d source i = some ((d.findOpening rest).map fun found =>
      openingMark (i + byteLen (rest.take found.1)) found.2) := by
  rw [nextBegin?, h.byteLen, Nat.add_sub_cancel_left]
  exact findBegin?_eq h

/-- The delimiter that is found stands there, inside the text. -/
theorem openingAt_of_findOpening (h : d.findOpening rest = some (n, o)) :
    d.openingAt (rest.drop n) = some o ∧ n < rest.length := by
  induction rest generalizing n with
  | nil => cases h
  | cons c rest ih =>
    rw [findOpening_cons] at h
    split at h
    · next o' ho =>
      cases h
      exact ⟨ho, Nat.succ_pos _⟩
    · obtain ⟨⟨n', o'⟩, hfound, heq⟩ := Option.map_eq_some_iff.1 h
      cases heq
      obtain ⟨hopen, hlt⟩ := ih hfound
      exact ⟨hopen, Nat.succ_lt_succ hlt⟩

/-! ## Comments -/

/-- The end of a comment from byte `i` on, where `depth` comments are open, and the modifier found on its
    closing delimiter. -/
def commentFrom? (d : Delims) (p : DelimPair) (source : List Char) :
    Nat → Nat → Nat → Option (Option (Nat × Option Trim))
  | 0, _, _ => none
  | fuel + 1, depth, i =>
    if i < byteLen source then do
      let rest ← from? i source
      if p.opening.startsAt rest then
        commentFrom? d p source fuel (depth + 1) (i + byteLen p.opening.text)
      else
        match ← endAt? d .comment source i with
        | some close => do
          let depth ← sub? depth 1
          if depth = 0 then return some (close.stop, close.trim)
          else commentFrom? d p source fuel depth close.stop
        | none => commentFrom? d p source fuel depth (i + firstSize rest)
    else some none

/-- The end of the comment whose opening delimiter ends at byte `i`. -/
def commentEnd? (d : Delims) (source : List Char) (i : Nat) :
    Option (Option (Nat × Option Trim)) :=
  match d.comment with
  | none => some none
  | some p => commentFrom? d p source (byteLen source + 1) 1 i

/-- An end that is found after the first `n` characters, seen from before them. -/
theorem map_later (found : Option (Nat × Option Trim)) (i n : Nat) (rest : List Char) :
    (found.map fun f => (i + byteLen (rest.take n) + byteLen ((rest.drop n).take f.1), f.2)) =
      (found.map fun f => (f.1 + n, f.2)).map fun f => (i + byteLen (rest.take f.1), f.2) := by
  rw [Option.map_map]
  refine congrArg (Option.map · found) (funext fun f => Prod.ext ?_ rfl)
  show _ = i + byteLen (rest.take (f.1 + n))
  rw [Nat.add_comm f.1, List.take_add, byteLen_append]
  exact Nat.add_assoc _ _ _

theorem commentFrom?_eq (hp : d.comment = some p) (h : At source i rest)
    (hfuel : rest.length < fuel) (outer : Nat) :
    commentFrom? d p source fuel (outer + 1) i =
      some ((p.commentEnd outer rest).map fun found =>
        (i + byteLen (rest.take found.1), found.2)) := by
  -- Step by step with `commentEnd`; where it goes on, its offset is moved by what has been taken.
  induction fuel generalizing rest i outer with
  | zero => omega
  | succ fuel ih =>
    have hlen := h.byteLen
    rw [commentFrom?]
    cases rest with
    | nil =>
      rw [byteLen_nil] at hlen
      rw [if_neg (by omega), DelimPair.commentEnd_nil]
      rfl
    | cons c cs =>
      have hsize := c.utf8Size_pos
      rw [byteLen_cons] at hlen
      rw [List.length_cons] at hfuel
      rw [if_pos (by omega), h.from?]
      show (if p.opening.startsAt (c :: cs) = true then _ else _) = _
      cases ho : p.opening.startsAt (c :: cs) with
      | true =>
        have hpos := p.opening.length_pos
        have htake : (c :: cs).take p.opening.length = p.opening.text :=
          take_length_of_isPrefix (Delim.startsAt_iff.1 ho)
        have hat := h.drop p.opening.length
        rw [htake] at hat
        rw [if_pos rfl, DelimPair.commentEnd_of_opening ho,
          ih hat (by rw [List.length_drop, List.length_cons]; omega) (outer + 1), ← htake]
        exact congrArg some (map_later _ i p.opening.length (c :: cs))
      | false =>
        rw [if_neg Bool.false_ne_true, endAt?_eq h,
          show d.pair .comment = some p from hp, Option.bind_some]
        cases hc : p.closingAt (c :: cs) with
        | none =>
          show commentFrom? d p source fuel (outer + 1) (i + c.utf8Size) = _
          rw [DelimPair.commentEnd_of_other ho hc,
            ih h.cons (by omega) outer]
          exact congrArg some (map_later _ i 1 (c :: cs))
        | some close =>
          have hpos := close.size_pos
          cases outer with
          | zero =>
            rw [DelimPair.commentEnd_of_last ho hc]
            refine congrArg some (congrArg some (Prod.ext ?_ rfl))
            exact stop_closingMark hc .comment i
          | succ outer =>
            show commentFrom? d p source fuel (outer + 1) (closingMark .comment i close).stop = _
            rw [DelimPair.commentEnd_of_closing ho hc,
              ih (h.closing hc .comment) (by rw [List.length_drop, List.length_cons]; omega) outer,
              stop_closingMark hc]
            exact congrArg some (map_later _ i close.size (c :: cs))

theorem length_le_byteLen (cs : List Char) : cs.length ≤ byteLen cs := by
  induction cs with
  | nil => exact Nat.le_refl _
  | cons c cs ih =>
    have := c.utf8Size_pos
    rw [List.length_cons, byteLen_cons]
    omega

theorem At.length_le (h : At source i rest) : rest.length ≤ Stencil.byteLen source := by
  have hle := length_le_byteLen rest
  have hlen := h.byteLen
  omega

theorem commentEnd?_eq (h : At source i rest) :
    (commentEnd? d source i).map (·.map (·.1)) =
      some ((d.commentMore rest).map fun n => i + byteLen (rest.take n)) := by
  unfold commentEnd? Delims.commentMore
  cases hp : d.comment with
  | none => rfl
  | some p =>
    have hle := h.length_le
    dsimp only
    rw [commentFrom?_eq hp h (by omega) 0, Option.bind_some]
    cases p.commentEnd 0 rest <;> rfl

/-! ## Raw blocks -/

/-- The first offset at or after byte `i` where no blank stands. -/
def skipBlanks? (source : List Char) (i : Nat) : Option Nat := do
  let rest ← from? i source
  let n ← sub? (byteLen rest) (byteLen (rest.dropWhile isBlank))
  return i + n

/-- Whether the inside of a tag that goes on at byte `i` is the word `endraw`, and the tag is closed after
    it. -/
def isEndRawBody? (d : Delims) (source : List Char) (i : Nat) : Option Bool := do
  let i ← skipBlanks? source i
  let rest ← from? i source
  if "endraw".toList.isPrefixOf rest then
    let j ← skipBlanks? source (i + byteLen "endraw".toList)
    return (← endAt? d (.tag .block) source j).isSome
  else return false

/-- Whether a tag that ends a raw block begins with the delimiter. -/
def isEndRaw? (d : Delims) (source : List Char) (m : Mark) : Option Bool :=
  if m.kind = .tag .block then isEndRawBody? d source m.stop else some false

/-- The start of the tag that ends a raw block whose body goes on at byte `i`. -/
def rawFrom? (d : Delims) (source : List Char) : Nat → Nat → Option (Option Nat)
  | 0, _ => none
  | fuel + 1, i => do
    match ← nextBegin? d source i with
    | none => return none
    | some m =>
      if ← isEndRaw? d source m then return some m.start
      else rawFrom? d source fuel (m.start + firstSize (← from? m.start source))

theorem skipBlanks?_eq (h : At source i rest) :
    skipBlanks? source i = some (i + byteLen (rest.takeWhile isBlank)) := by
  have hsplit : byteLen rest =
      byteLen (rest.takeWhile isBlank) + byteLen (rest.dropWhile isBlank) := by
    rw [← byteLen_append, List.takeWhile_append_dropWhile]
  unfold skipBlanks?
  rw [h.from?]
  show (sub? (byteLen rest) _ >>= _) = _
  rw [hsplit, sub?_add]
  rfl

theorem isEndRawBody?_eq (h : At source i rest) :
    isEndRawBody? d source i = some (d.isEndRawBody rest) := by
  have hbody := h.dropWhile isBlank
  unfold isEndRawBody? Delims.isEndRawBody
  simp only [skipBlanks?_eq h, hbody.from?, Option.bind_eq_bind, Option.bind_some, Option.pure_def]
  split
  · next hword =>
    have hafter := hbody.drop "endraw".toList.length
    rw [take_length_of_isPrefix (List.isPrefixOf_iff_prefix.1 hword)] at hafter
    rw [hword, skipBlanks?_eq hafter, Option.bind_some, endAt?_eq (hafter.dropWhile isBlank),
      Option.bind_some, Option.isSome_map, Bool.true_and]
    rfl
  · next hword => rw [Bool.eq_false_iff.2 hword, Bool.false_and]

theorem isEndRaw?_eq (h : At source i rest) (ho : d.openingAt rest = some o) :
    isEndRaw? d source (openingMark i o) = some (d.isEndRaw rest) := by
  rw [isEndRaw?, show (openingMark i o).kind = o.kind from rfl]
  simp only [Delims.isEndRaw, ho]
  by_cases hkind : o.kind = .tag .block
  · rw [if_pos hkind, isEndRawBody?_eq (h.opening ho), hkind, beq_self_eq_true, Bool.true_and]
  · rw [if_neg hkind, beq_false_of_ne hkind, Bool.false_and]

/-- Where no opening delimiter stands, no raw block ends. -/
theorem rawLength_of_findOpening_none (h : d.findOpening rest = none) : d.rawLength rest = none := by
  induction rest with
  | nil => rfl
  | cons c rest ih =>
    rw [findOpening_cons] at h
    split at h
    · cases h
    · next ho =>
      have hnot : d.isEndRaw (c :: rest) = false := by
        rw [Delims.isEndRaw, ho]
      rw [Delims.rawLength, hnot, if_neg Bool.false_ne_true,
        ih (Option.map_eq_none_iff.1 h)]
      rfl

/-- The end of a raw block is looked for from the next opening delimiter on. -/
theorem rawLength_of_findOpening (h : d.findOpening rest = some (n, o)) :
    d.rawLength rest = (d.rawLength (rest.drop n)).map (n + ·) := by
  induction rest generalizing n with
  | nil => cases h
  | cons c rest ih =>
    rw [findOpening_cons] at h
    split at h
    · cases h
      rw [List.drop_zero]
      cases d.rawLength (c :: rest) with
      | none => rfl
      | some m => rw [Option.map_some, Nat.zero_add]
    · next ho =>
      obtain ⟨⟨n', o'⟩, hfound, heq⟩ := Option.map_eq_some_iff.1 h
      cases heq
      have hnot : d.isEndRaw (c :: rest) = false := by
        rw [Delims.isEndRaw, ho]
      rw [Delims.rawLength, hnot, if_neg Bool.false_ne_true, ih hfound, List.drop_succ_cons,
        Option.map_map]
      refine congrArg (Option.map · _) (funext fun m => ?_)
      show n' + m + 1 = n' + 1 + m
      omega

theorem rawFrom?_eq (h : At source i rest) (hfuel : rest.length < fuel) :
    rawFrom? d source fuel i =
      some ((d.rawLength rest).map fun n => i + byteLen (rest.take n)) := by
  -- The search goes from one opening delimiter to the next, which `rawLength` comes by one character at
  -- a time.
  induction fuel generalizing rest i with
  | zero => omega
  | succ fuel ih =>
    rw [rawFrom?, nextBegin?_eq h]
    cases hfind : d.findOpening rest with
    | none =>
      rw [rawLength_of_findOpening_none hfind]
      rfl
    | some found =>
      obtain ⟨n, o⟩ := found
      obtain ⟨hopen, hlt⟩ := openingAt_of_findOpening hfind
      have hat := h.drop n
      have hlen := List.length_drop (l := rest) (i := n)
      rw [rawLength_of_findOpening hfind]
      cases hrest : rest.drop n with
      | nil =>
        rw [hrest, List.length_nil] at hlen
        omega
      | cons c cs =>
        rw [hrest] at hopen hat hlen
        rw [List.length_cons] at hlen
        rw [Delims.rawLength]
        show (isEndRaw? d source (openingMark (i + byteLen (rest.take n)) o) >>= _) = _
        rw [isEndRaw?_eq hat hopen]
        show (if d.isEndRaw (c :: cs) = true then _ else _) = _
        cases d.isEndRaw (c :: cs) with
        | true => rfl
        | false =>
          rw [if_neg Bool.false_ne_true, if_neg Bool.false_ne_true]
          show (from? (i + byteLen (rest.take n)) source >>= _) = _
          rw [hat.from?]
          show rawFrom? d source fuel (i + byteLen (rest.take n) + c.utf8Size) = _
          rw [ih hat.cons (by omega)]
          cases d.rawLength cs with
          | none => rfl
          | some m =>
            refine congrArg some (congrArg some ?_)
            show i + byteLen (rest.take n) + c.utf8Size + byteLen (cs.take m) =
              i + byteLen (rest.take (n + (m + 1)))
            rw [List.take_add, byteLen_append, hrest, List.take_succ_cons, byteLen_cons]
            omega

end Stencil.Checked
