/-
  Search — the next opening delimiter, found by a table of first bytes.

  The search is built once from the delimiters: a list of them, opening and closing ones together, and a
  table that tells of each of the 256 bytes whether an opening delimiter begins with it.  From an offset on it
  looks at every byte, those inside a character included, and asks for a delimiter only where the table
  allows it.  Of several delimiters at one offset it keeps the one with the most bytes, and of equally long
  ones the last.

  Plain search is told by `Leftmost`: the least offset at which an opening delimiter stands, and the longest
  of those that stand there.  Both find the same (`search_leftmost_longest`).  The table rules out no
  delimiter, because a delimiter and the text it stands at begin with the same byte (`first_of_opens`).
  And delimiters that stand at the same offset are beginnings of the same text, so the one with more bytes is
  the one with more characters (`byteLen_le_iff_of_isPrefix`), and the reader, which counts characters,
  chooses the same one.
-/
import Stencil.Proofs.Checked.Delims
import Stencil.Proofs.Lexer.Within

namespace Stencil

/-- The order of the kinds of delimiters: expressions, statements, comments. -/
def DelimKind.rank : DelimKind → Nat
  | .tag .expr => 0
  | .tag .block => 1
  | .comment => 2

theorem DelimKind.rank_inj {a b : DelimKind} (h : a.rank = b.rank) : a = b := by
  rcases a with (_ | _) | _ <;> rcases b with (_ | _) | _ <;> first | rfl | cases h

namespace Checked

/-! ## The search -/

/-- The bytes of a text. -/
def bytes (cs : List Char) : List UInt8 := cs.flatMap String.utf8EncodeChar

theorem bytes_text_ne_nil (delim : Delim) : bytes delim.text ≠ [] := by
  unfold bytes Delim.text
  rw [List.flatMap_cons]
  exact List.append_ne_nil_of_left_ne_nil String.utf8EncodeChar_ne_nil _

/-- The first byte of a delimiter. -/
def firstByte (delim : Delim) : UInt8 := (bytes delim.text).head (bytes_text_ne_nil delim)

/-- A configured delimiter. -/
structure Entry where
  opens : Bool
  kind : DelimKind
  delim : Delim

/-- The configured delimiters, by kinds and the opening one of each kind first. -/
def entries (d : Delims) : List Entry :=
  [DelimKind.tag .expr, DelimKind.tag .block, DelimKind.comment].flatMap fun kind =>
    match d.pair kind with
    | none => []
    | some p => [⟨true, kind, p.opening⟩, ⟨false, kind, p.closing⟩]

/-- The table with the first byte of an opening delimiter marked. -/
def mark (table : Vector Bool 256) (e : Entry) : Vector Bool 256 :=
  if e.opens then table.set (firstByte e.delim).toNat true (UInt8.toNat_lt _) else table

/-- Whether the byte is marked in the table. -/
def marked (table : Vector Bool 256) (b : UInt8) : Bool := table.get ⟨b.toNat, UInt8.toNat_lt b⟩

/-- The configured delimiters, and what their first bytes rule out. -/
structure Searcher where
  entries : List Entry
  /-- Whether an opening delimiter begins with the byte. -/
  first : Vector Bool 256

namespace Searcher

/-- The search for the opening delimiters among the configured ones. -/
def new (d : Delims) : Searcher :=
  ⟨Checked.entries d, (Checked.entries d).foldl mark (Vector.replicate 256 false)⟩

/-- The later of two candidates, unless the earlier one has more bytes. -/
def keepLonger (best : Option (DelimKind × Nat)) (next : DelimKind × Nat) :
    Option (DelimKind × Nat) :=
  match best with
  | none => some next
  | some b => if b.2 ≤ next.2 then some next else some b

/-- The kind and the number of bytes of the longest opening delimiter at byte `i`. -/
def longestAt (s : Searcher) (source : List Char) (i : Nat) : Option (DelimKind × Nat) :=
  (from? i source).bind fun rest =>
    ((s.entries.filter fun e => e.opens && e.delim.startsAt rest).map fun e =>
      (e.kind, byteLen e.delim.text)).foldl keepLonger none

/-- The opening delimiter at byte `i`, with the modifier after it if there is one. -/
def beginAt? (s : Searcher) (source : List Char) (i : Nat) : Option (Option Mark) :=
  match s.longestAt source i with
  | none => some none
  | some (kind, size) => do
    let stop := i + size
    let trim := Trim.ofHead? (← from? stop source)
    return some ⟨kind, i, stop + Trim.width trim, trim⟩

/-- The first opening delimiter at one of `n` offsets from `i` on. -/
def findFrom? (s : Searcher) (source : List Char) : Nat → Nat → Option (Option Mark)
  | 0, _ => some none
  | n + 1, i => do
    let b ← (bytes source)[i]?
    if marked s.first b then
      match ← s.beginAt? source i with
      | some m => return some m
      | none => s.findFrom? source n (i + 1)
    else s.findFrom? source n (i + 1)

/-- The first opening delimiter at or after byte `start`. -/
def find? (s : Searcher) (source : List Char) (start : Nat) : Option (Option Mark) :=
  s.findFrom? source (byteLen source - start) start

end Searcher

/-! ## Plain search -/

/-- At byte `i` of the source stands the opening delimiter of the kind, and `tail` follows it. -/
def Opens (d : Delims) (source : List Char) (i : Nat) (kind : DelimKind) (delim : Delim)
    (tail : List Char) : Prop :=
  (∃ p, d.pair kind = some p ∧ p.opening = delim) ∧ At source i (delim.text ++ tail)

/-- The mark is of the longest opening delimiter at its start, or of the last kind of equally long ones, and
    takes in the modifier that follows. -/
def Longest (d : Delims) (source : List Char) (m : Mark) : Prop :=
  ∃ delim tail, Opens d source m.start m.kind delim tail ∧
    (∀ kind delim' tail', Opens d source m.start kind delim' tail' →
      byteLen delim'.text ≤ byteLen delim.text ∧
        (byteLen delim'.text = byteLen delim.text → kind.rank ≤ m.kind.rank)) ∧
    (∀ t, m.trim = some t ↔ ∃ more, tail = Trim.toChar t :: more) ∧
    m.stop = m.start + byteLen delim.text + Trim.width m.trim

/-- The mark is of the first opening delimiter at or after byte `start`. -/
structure Leftmost (d : Delims) (source : List Char) (start : Nat) (m : Mark) : Prop where
  start_le : start ≤ m.start
  first : ∀ i kind delim tail, start ≤ i → i < m.start → ¬Opens d source i kind delim tail
  longest : Longest d source m

variable {d : Delims} {source rest tail : List Char} {i n start : Nat} {kind : DelimKind}
  {delim : Delim} {m m' : Mark}

/-! ## What the table rules out -/

theorem mem_entries {e : Entry} : e ∈ entries d ↔
    ∃ p, d.pair e.kind = some p ∧ e.delim = if e.opens then p.opening else p.closing := by
  obtain ⟨opens, kind, delim⟩ := e
  unfold entries
  rw [List.mem_flatMap]
  constructor
  · rintro ⟨kind', -, he⟩
    split at he
    · cases he
    · next p hp =>
      rcases List.mem_cons.1 he with he | he
      · cases he
        exact ⟨p, hp, rfl⟩
      · cases List.mem_singleton.1 he
        exact ⟨p, hp, rfl⟩
  · rintro ⟨p, hp, hdelim⟩
    refine ⟨kind, ?_, ?_⟩
    · rcases kind with (_ | _) | _ <;> simp
    · dsimp only at hp hdelim
      rw [hp, hdelim]
      cases opens <;> simp

/-- A marked byte stays marked, and the first byte of an opening delimiter is marked. -/
theorem foldl_mark (es : List Entry) (table : Vector Bool 256) (b : UInt8)
    (h : marked table b = true ∨ ∃ e ∈ es, e.opens = true ∧ firstByte e.delim = b) :
    marked (es.foldl mark table) b = true := by
  -- A byte that is marked stays marked.
  induction es generalizing table with
  | nil =>
    rcases h with h | ⟨e, he, -⟩
    · exact h
    · cases he
  | cons e es ih =>
    rw [List.foldl_cons]
    apply ih
    by_cases hopens : e.opens = true
    · have hset : marked (mark table e) b =
          if (firstByte e.delim).toNat = b.toNat then true else marked table b := by
        unfold marked mark
        rw [if_pos hopens]
        exact Vector.getElem_set ..
      rw [hset]
      by_cases hb : (firstByte e.delim).toNat = b.toNat
      · exact .inl (if_pos hb)
      · rw [if_neg hb]
        rcases h with h | ⟨e', he', hopens', hfirst⟩
        · exact .inl h
        · rcases List.mem_cons.1 he' with rfl | hmem
          · exact absurd (congrArg UInt8.toNat hfirst) hb
          · exact .inr ⟨e', hmem, hopens', hfirst⟩
    · unfold mark
      rw [if_neg hopens]
      rcases h with h | ⟨e', he', hopens', hfirst⟩
      · exact .inl h
      · rcases List.mem_cons.1 he' with rfl | hmem
        · exact absurd hopens' hopens
        · exact .inr ⟨e', hmem, hopens', hfirst⟩

theorem bytes_append (a b : List Char) : bytes (a ++ b) = bytes a ++ bytes b := List.flatMap_append

theorem length_bytes (cs : List Char) : (bytes cs).length = byteLen cs := by
  induction cs with
  | nil => rfl
  | cons c cs ih =>
    unfold bytes at ih ⊢
    rw [List.flatMap_cons, List.length_append, String.length_utf8EncodeChar, ih, byteLen_cons]

/-- Where a delimiter stands, its first byte is the byte of the source. -/
theorem byte_of_at (h : At source i (delim.text ++ tail)) :
    (bytes source)[i]? = some (firstByte delim) := by
  obtain ⟨front, rfl, rfl⟩ := h
  rw [bytes_append, bytes_append,
    List.getElem?_append_right (by rw [length_bytes]), length_bytes, Nat.sub_self,
    ← List.head?_eq_getElem?, List.head?_append_of_ne_nil _ (bytes_text_ne_nil delim)]
  exact List.head?_eq_some_head _

/-- The table allows every byte at which an opening delimiter stands. -/
theorem first_of_opens (h : Opens d source i kind delim tail) :
    ∃ b, (bytes source)[i]? = some b ∧
      marked (Searcher.new d).first b = true := by
  obtain ⟨⟨p, hp, rfl⟩, hat⟩ := h
  refine ⟨firstByte p.opening, byte_of_at hat, ?_⟩
  refine foldl_mark _ _ _ (.inr ⟨⟨true, kind, p.opening⟩, mem_entries.2 ⟨p, hp, rfl⟩, rfl, rfl⟩)

/-! ## The longest delimiter at an offset -/

/-- Of two beginnings of a text, the one with more characters has more bytes. -/
theorem byteLen_le_iff_of_isPrefix {a b : List Char} (ha : a <+: rest) (hb : b <+: rest) :
    byteLen a ≤ byteLen b ↔ a.length ≤ b.length := by
  constructor
  · intro hle
    by_contra hlt
    obtain ⟨more, rfl⟩ := List.prefix_of_prefix_length_le hb ha (by omega)
    have hpos : 0 < byteLen more := by
      apply byteLen_pos
      rintro rfl
      simp at hlt
    rw [byteLen_append] at hle
    omega
  · intro hle
    obtain ⟨more, rfl⟩ := List.prefix_of_prefix_length_le ha hb hle
    rw [byteLen_append]
    omega

/-- The opening delimiters at a text are the same in the list of entries. -/
theorem filter_entries (d : Delims) (rest : List Char) :
    ((entries d).filter fun e => e.opens && e.delim.startsAt rest) =
      (d.openings.filter fun o => o.2.startsAt rest).map fun o => ⟨true, o.1, o.2⟩ := by
  unfold entries Delims.openings
  induction [DelimKind.tag .expr, DelimKind.tag .block, DelimKind.comment] with
  | nil => rfl
  | cons kind kinds ih =>
    rw [List.flatMap_cons, List.filter_append, ih, List.filterMap_cons]
    cases d.pair kind with
    | none => rfl
    | some p =>
      by_cases hstarts : p.opening.startsAt rest = true
      · simp [hstarts]
      · simp [hstarts]

/-- Among delimiters that stand at the same text, counting bytes leads to the same choice as counting
    characters. -/
theorem foldl_keepLonger (os : List (DelimKind × Delim)) (best : Option (DelimKind × Delim))
    (hos : ∀ o ∈ os, o.2.text <+: rest) (hbest : ∀ b ∈ best, b.2.text <+: rest) :
    (os.map fun o => (o.1, byteLen o.2.text)).foldl Searcher.keepLonger
        (best.map fun b => (b.1, byteLen b.2.text)) =
      (os.foldl Delims.longer best).map fun o => (o.1, byteLen o.2.text) := by
  induction os generalizing best with
  | nil => rfl
  | cons o os ih =>
    obtain ⟨ho, hos⟩ := List.forall_mem_cons.1 hos
    have hstep : Searcher.keepLonger (best.map fun b => (b.1, byteLen b.2.text))
          (o.1, byteLen o.2.text) =
        (Delims.longer best o).map fun b => (b.1, byteLen b.2.text) := by
      cases best with
      | none => rfl
      | some b =>
        have hiff := byteLen_le_iff_of_isPrefix (hbest b rfl) ho
        rw [Delim.length_text, Delim.length_text] at hiff
        unfold Delims.longer Searcher.keepLonger
        by_cases hle : b.2.length ≤ o.2.length
        · simp [hle, hiff.2 hle]
        · simp [hle, mt hiff.1 hle]
    have hkept : ∀ b ∈ Delims.longer best o, b.2.text <+: rest := by
      intro b hb
      unfold Delims.longer at hb
      split at hb
      · cases hb
        exact ho
      · split at hb
        · cases hb
          exact ho
        · cases hb
          exact hbest _ rfl
    rw [List.map_cons, List.foldl_cons, List.foldl_cons, hstep, ih _ hos hkept]

theorem Searcher.longestAt_eq (h : At source i rest) :
    (new d).longestAt source i = (d.longestAt rest).map fun o => (o.1, byteLen o.2.text) := by
  unfold Searcher.longestAt
  rw [h.from?, Option.bind_some]
  show (((Checked.entries d).filter _).map _).foldl keepLonger none = _
  rw [filter_entries, List.map_map]
  have hstands : ∀ o ∈ d.openings.filter fun o => o.2.startsAt rest, o.2.text <+: rest := by
    intro o ho
    exact Delim.startsAt_iff.1 (List.mem_filter.1 ho).2
  exact foldl_keepLonger _ none hstands nofun

/-- At every offset the search finds the delimiter that the reader finds. -/
theorem Searcher.beginAt?_eq (d : Delims) (source : List Char) (i : Nat) :
    (new d).beginAt? source i = Checked.beginAt? d source i := by
  unfold Searcher.beginAt? Checked.beginAt?
  cases hfrom : from? i source with
  | none =>
    have hnone : (new d).longestAt source i = none := by
      unfold Searcher.longestAt
      rw [hfrom]
      rfl
    rw [hnone]
  | some rest =>
    rw [longestAt_eq (at_of_from? hfrom)]
    dsimp only
    cases d.longestAt rest with
    | none => rfl
    | some found => rfl

/-! ## What stands at an offset -/

theorem mem_openings {o : DelimKind × Delim} :
    o ∈ d.openings ↔ ∃ p, d.pair o.1 = some p ∧ p.opening = o.2 := by
  obtain ⟨kind, delim⟩ := o
  unfold Delims.openings
  rw [List.mem_filterMap]
  constructor
  · rintro ⟨kind', -, ho⟩
    obtain ⟨p, hp, heq⟩ := Option.map_eq_some_iff.1 ho
    cases heq
    exact ⟨p, hp, rfl⟩
  · rintro ⟨p, hp, rfl⟩
    refine ⟨kind, ?_, Option.map_eq_some_iff.2 ⟨p, hp, rfl⟩⟩
    rcases kind with (_ | _) | _ <;> simp

/-- The delimiters are configured by the order of their kinds. -/
theorem openings_sorted (d : Delims) :
    d.openings.Pairwise fun a b => a.1.rank < b.1.rank := by
  unfold Delims.openings
  rw [List.pairwise_filterMap]
  refine List.Pairwise.imp (R := fun a b : DelimKind => a.rank < b.rank) ?_ (by decide)
  intro a b hlt x hx y hy
  obtain ⟨p, -, rfl⟩ := Option.map_eq_some_iff.1 hx
  obtain ⟨q, -, rfl⟩ := Option.map_eq_some_iff.1 hy
  exact hlt

/-- Texts that begin at one offset of a source are the same. -/
theorem At.unique {rest' : List Char} (h : At source i rest) (h' : At source i rest') :
    rest = rest' := by
  have hfrom := h.from?
  rw [h'.from?] at hfrom
  exact (Option.some.inj hfrom).symm

/-- A delimiter stands at an offset when it begins the text there. -/
theorem opens_iff (h : At source i rest) : Opens d source i kind delim tail ↔
    (kind, delim) ∈ d.openings ∧ rest = delim.text ++ tail := by
  rw [mem_openings]
  constructor
  · rintro ⟨hpair, hat⟩
    exact ⟨hpair, h.unique hat⟩
  · rintro ⟨hpair, rfl⟩
    exact ⟨hpair, h⟩

/-- Where the reader finds a delimiter, it is the longest. -/
theorem longest_of_beginAt? (h : Checked.beginAt? d source i = some (some m)) :
    m.start = i ∧ Longest d source m := by
  cases hfrom : from? i source with
  | none =>
    rw [beginAt?_of_none hfrom] at h
    cases h
  | some rest =>
    have hat := at_of_from? hfrom
    rw [Checked.beginAt?_eq hat] at h
    obtain ⟨o, ho, rfl⟩ := Option.map_eq_some_iff.1 (Option.some.inj h)
    obtain ⟨found, hfound, rfl⟩ := Option.map_eq_some_iff.1 ho
    obtain ⟨hmem, hstarts⟩ := Delims.longestAt_mem hfound
    obtain ⟨tail, htail⟩ := Delim.startsAt_iff.1 hstarts
    have hsorted : (List.filter (fun o => o.2.startsAt rest) d.openings).Pairwise
        fun a b => a.1.rank < b.1.rank := (openings_sorted d).sublist List.filter_sublist
    have hlongest := (Delims.longest_of_foldl _ none hsorted hfound).2
    refine ⟨rfl, found.2, tail, (opens_iff hat).2 ⟨hmem, htail.symm⟩, ?_, ?_,
      (Nat.add_assoc _ _ _).symm⟩
    · intro kind delim' tail' hopens
      obtain ⟨hmem', htail'⟩ := (opens_iff hat).1 hopens
      have hbegins' : delim'.text <+: rest := ⟨tail', htail'.symm⟩
      obtain ⟨hle, hlast⟩ := hlongest (kind, delim')
        (List.mem_filter.2 ⟨hmem', Delim.startsAt_iff.2 hbegins'⟩)
      have hbytes := byteLen_le_iff_of_isPrefix hbegins' (Delim.startsAt_iff.1 hstarts)
      have hbytes' := byteLen_le_iff_of_isPrefix (Delim.startsAt_iff.1 hstarts) hbegins'
      rw [Delim.length_text, Delim.length_text] at hbytes hbytes'
      refine ⟨hbytes.2 hle, fun heq => ?_⟩
      rcases hlast (Nat.le_antisymm hle (hbytes'.1 (Nat.le_of_eq heq.symm))) with hsame | hlt
      · rw [← hsame]
        exact Nat.le_refl _
      · exact Nat.le_of_lt hlt
    · have hdrop : rest.drop found.2.length = tail := by
        rw [← htail]
        exact List.drop_left
      intro t
      dsimp only [openingMark]
      rw [hdrop]
      constructor
      · exact fun htrim => ⟨tail.tail, Trim.ofHead?_eq_some htrim⟩
      · rintro ⟨more, rfl⟩
        rw [Trim.ofHead?, List.head?_cons, Option.bind_some, Trim.ofChar?_toChar]

/-- Where the reader finds none, there is none. -/
theorem not_opens_of_beginAt? (h : Checked.beginAt? d source i = some none) :
    ¬Opens d source i kind delim tail := by
  intro hopens
  have hat := hopens.2
  rw [Checked.beginAt?_eq hat] at h
  have hnone := Option.map_eq_none_iff.1 (Option.some.inj h)
  have hmem := ((opens_iff hat).1 hopens).1
  have hfalse := Delims.openingAt_eq_none_iff.1 hnone _ hmem
  rw [Delim.startsAt_iff.2 (List.prefix_append delim.text tail)] at hfalse
  cases hfalse

/-! ## The first offset -/

/-- Passing over the bytes that the table rules out changes nothing. -/
theorem Searcher.findFrom?_eq (hn : i + n ≤ byteLen source) :
    (new d).findFrom? source n i = findBegin? d source n i := by
  induction n generalizing i with
  | zero => rfl
  | succ n ih =>
    have hlt : i < (bytes source).length := by
      rw [length_bytes]
      omega
    obtain ⟨b, hb⟩ : ∃ b, (bytes source)[i]? = some b := ⟨_, List.getElem?_eq_getElem hlt⟩
    have hrest := ih (i := i + 1) (by omega)
    unfold Searcher.findFrom? findBegin?
    rw [hb, Searcher.beginAt?_eq, hrest]
    show (if marked (new d).first b = true then _ else _) = _
    by_cases hfirst : marked (new d).first b = true
    · exact if_pos hfirst
    · -- No delimiter stands at a byte that the table rules out.
      rw [if_neg hfirst]
      obtain ⟨found, hfound⟩ := exists_beginAt? d source i
      rw [hfound]
      cases found with
      | none => rfl
      | some m =>
        obtain ⟨hstart, delim, tail, hopens, -⟩ := longest_of_beginAt? hfound
        rw [hstart] at hopens
        obtain ⟨b', hb', hfirst'⟩ := first_of_opens hopens
        rw [hb] at hb'
        cases hb'
        exact absurd hfirst' hfirst

theorem Searcher.find?_eq (d : Delims) (source : List Char) (start : Nat) :
    (new d).find? source start = nextBegin? d source start := by
  unfold Searcher.find? nextBegin?
  rcases Nat.lt_or_ge (byteLen source) start with hlt | hge
  · rw [Nat.sub_eq_zero_of_le (Nat.le_of_lt hlt)]
    rfl
  · exact findFrom?_eq (by omega)

/-- What the loop over `n` offsets finds is the first at one of them, and if it finds nothing there is
    nothing. -/
theorem findBegin?_spec (d : Delims) (source : List Char) (n i : Nat) :
    (∃ m, findBegin? d source n i = some (some m) ∧ Leftmost d source i m) ∨
      (findBegin? d source n i = some none ∧
        ∀ j kind delim tail, i ≤ j → j < i + n → ¬Opens d source j kind delim tail) := by
  induction n generalizing i with
  | zero => exact .inr ⟨rfl, fun j kind delim tail hi hj => by omega⟩
  | succ n ih =>
    obtain ⟨found, hfound⟩ := exists_beginAt? d source i
    rw [findBegin?, hfound]
    cases found with
    | some m =>
      obtain ⟨hstart, hlongest⟩ := longest_of_beginAt? hfound
      exact .inl ⟨m, rfl, by omega, fun j kind delim tail hi hj => by omega, hlongest⟩
    | none =>
      have hnot : ∀ {kind delim tail}, ¬Opens d source i kind delim tail :=
        not_opens_of_beginAt? hfound
      rcases ih (i + 1) with ⟨m, hm, hleft⟩ | ⟨hnone, hall⟩
      · refine .inl ⟨m, hm, ?_, ?_, hleft.longest⟩
        · have := hleft.start_le
          omega
        · intro j kind delim tail hi hj
          rcases Nat.eq_or_lt_of_le hi with rfl | hlt
          · exact hnot
          · exact hleft.first j kind delim tail hlt hj
      · refine .inr ⟨hnone, fun j kind delim tail hi hj => ?_⟩
        rcases Nat.eq_or_lt_of_le hi with rfl | hlt
        · exact hnot
        · exact hall j kind delim tail hlt (by omega)

/-- A delimiter stands before the end of the source. -/
theorem Opens.lt (h : Opens d source i kind delim tail) : i < byteLen source := by
  have hlen := h.2.byteLen
  have hpos := byteLen_pos (List.cons_ne_nil delim.head delim.tail)
  rw [byteLen_append] at hlen
  unfold Delim.text at hlen
  omega

/-- Plain search can find one mark only. -/
theorem Leftmost.unique (h : Leftmost d source start m) (h' : Leftmost d source start m') : m = m' := by
  obtain ⟨delim, tail, hopens, hlongest, htrim, hstop⟩ := h.longest
  obtain ⟨delim', tail', hopens', hlongest', htrim', hstop'⟩ := h'.longest
  have hstart : m.start = m'.start := by
    rcases Nat.lt_trichotomy m.start m'.start with hlt | heq | hgt
    · exact absurd hopens (h'.first _ _ _ _ h.start_le hlt)
    · exact heq
    · exact absurd hopens' (h.first _ _ _ _ h'.start_le hgt)
  rw [← hstart] at hopens' hlongest' hstop'
  -- Each of the two delimiters is the longest, so they are equally long, and of one kind.
  obtain ⟨hle, hrank⟩ := hlongest _ _ _ hopens'
  obtain ⟨hle', hrank'⟩ := hlongest' _ _ _ hopens
  have hbytes := Nat.le_antisymm hle hle'
  have hkind : m.kind = m'.kind :=
    DelimKind.rank_inj (Nat.le_antisymm (hrank' hbytes.symm) (hrank hbytes))
  obtain ⟨⟨p, hp, rfl⟩, hat⟩ := hopens
  obtain ⟨⟨p', hp', rfl⟩, hat'⟩ := hopens'
  rw [hkind, hp'] at hp
  cases hp
  obtain rfl : tail = tail' := List.append_cancel_left (hat.unique hat')
  have hmodifier : m.trim = m'.trim := Option.ext fun t => (htrim t).trans (htrim' t).symm
  rw [← hmodifier] at hstop'
  obtain ⟨kind, first, stop, trim⟩ := m
  obtain ⟨kind', first', stop', trim'⟩ := m'
  dsimp only at hstart hkind hmodifier hstop hstop'
  rw [hstart, hkind, hmodifier, hstop, hstop']

/-- The search for the next opening delimiter by the table of first bytes is plain search, for all delimiters,
    sources and offsets: it gives the mark of the first one at or after the offset, the longest there, the last
    kind of equally long ones, with its modifier; and it gives none exactly if there is none.  From an
    offset between characters on, it finds what the reader finds in the text that is left. -/
theorem search_leftmost_longest (d : Delims) (source : List Char) (start : Nat) :
    (∀ m, (Searcher.new d).find? source start = some (some m) ↔ Leftmost d source start m) ∧
      ((Searcher.new d).find? source start = some none ↔
        ∀ i kind delim tail, start ≤ i → ¬Opens d source i kind delim tail) ∧
      ∀ rest, At source start rest → (Searcher.new d).find? source start =
        some ((d.findOpening rest).map fun found =>
          openingMark (start + byteLen (rest.take found.1)) found.2) := by
  rw [Searcher.find?_eq]
  have hspec := findBegin?_spec d source (byteLen source - start) start
  refine ⟨fun m => ⟨fun hm => ?_, fun hleft => ?_⟩, ⟨fun hnone => ?_, fun hall => ?_⟩,
    fun rest hat => nextBegin?_eq hat⟩
  · rcases hspec with ⟨m', hm', hleft⟩ | ⟨hnone, -⟩
    · rw [nextBegin?, hm'] at hm
      cases hm
      exact hleft
    · rw [nextBegin?, hnone] at hm
      cases hm
  · rcases hspec with ⟨m', hm', hleft'⟩ | ⟨-, hall⟩
    · rw [nextBegin?, hm', hleft.unique hleft']
    · obtain ⟨delim, tail, hopens, -⟩ := hleft.longest
      have := hopens.lt
      have := hleft.start_le
      exact absurd hopens (hall _ _ _ _ hleft.start_le (by omega))
  · rcases hspec with ⟨m', hm', -⟩ | ⟨-, hall⟩
    · rw [nextBegin?, hm'] at hnone
      cases hnone
    · intro i kind delim tail hi hopens
      have := hopens.lt
      exact hall i kind delim tail hi (by omega) hopens
  · rcases hspec with ⟨m', hm', hleft⟩ | ⟨hnone, -⟩
    · obtain ⟨delim, tail, hopens, -⟩ := hleft.longest
      exact absurd hopens (hall _ _ _ _ hleft.start_le)
    · exact hnone

/-- Behind a character of two bytes, two delimiters begin with the same brace; the longer one is found, with its
    modifier. -/
example : (Searcher.new ⟨some ⟨⟨'{', []⟩, ⟨'}', []⟩⟩, some ⟨⟨'{', ['{']⟩, ⟨'}', ['}']⟩⟩, none⟩).find?
    ['a', 'é', '{', '{', '-', 'x'] 0 = some (some ⟨.tag .block, 3, 6, some .suppress⟩) := by rfl

end Checked

end Stencil
