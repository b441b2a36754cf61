/-
  Reader — a tag may be closed anywhere behind what a reader has taken.

  A reader looks ahead to see whether to go on.  When it stops, it has seen a lexeme that does not go on
  with what was read; a closing delimiter does not go on with anything.  So if the feed is cut off behind
  the lexemes taken, and closed there, the reader gives the same again (`Cut.again`).  The cut need not be
  directly behind them: what comes after the reader may stay, as far as it is wanted.

  Two more facts about the lexemes taken are kept with it.  The last of them is no dot, so what is read
  after them does not begin as a tuple index (`Settled`).  And the parts of the result stand on stretches
  of them (`Stands`); which parts these are, and what a stretch has to do with its part, is left open
  here.

  `Cuts` passes through sequencing, choice and repetition, so it is proved for the readers of the grammar
  by following their definitions.  Where a reader looks ahead and then takes what it has seen, the
  lexemes taken are not empty, and so the cut lies behind what was looked at (`CutAt.peek`).
-/
import Stencil.Proofs.Reader.Orderly
import Stencil.Reader.Stmt

namespace Stencil

/-- The place of the lexeme read last, when it was `last` before `ls` were read. -/
def Span.after (last : Span) (ls : List Lexeme) : Span := ls.foldl (fun _ l => l.span) last

@[simp] theorem Span.after_nil (last : Span) : last.after [] = last := rfl

@[simp] theorem Span.after_cons (last : Span) (l : Lexeme) (ls : List Lexeme) :
    last.after (l :: ls) = l.span.after ls := rfl

theorem Span.after_append (last : Span) (a b : List Lexeme) :
    last.after (a ++ b) = (last.after a).after b := List.foldl_append

/-- A closing delimiter is no name. -/
theorem Token.isName_of_isClosing {t : Token} (h : t.isClosing = true) : t.isName = false := by
  cases t with
  | endExpr | endBlock => rfl
  | _ => cases h

/-- The last lexeme is no dot. -/
def Settled (ls : List Lexeme) : Prop := ∀ l ∈ ls.getLast?, l.token ≠ .dot

namespace Settled

variable {a b : List Lexeme} {l : Lexeme}

theorem nil : Settled [] := nofun

theorem singleton (h : l.token ≠ .dot) : Settled [l] := by
  rintro _ ⟨rfl⟩
  exact h

theorem append (ha : Settled a) (hb : Settled b) : Settled (a ++ b) := by
  intro l hl
  rw [List.getLast?_append] at hl
  cases hlast : b.getLast? with
  | none => rw [hlast] at hl; exact ha l hl
  | some m =>
    rw [hlast] at hl
    cases hl
    exact hb l hlast

theorem cons (hb : Settled b) (h : l.token ≠ .dot) : Settled (l :: b) := (singleton h).append hb

/-- What is followed by something settled may end with a dot itself. -/
theorem append_of_ne_nil (hb : Settled b) (hne : b ≠ []) : Settled (a ++ b) := by
  intro l hl
  rw [List.getLast?_append, List.getLast?_eq_some_getLast hne] at hl
  cases hl
  exact hb _ (List.getLast?_eq_some_getLast hne)

end Settled

/-- The part `y` stands on a stretch of the lexemes that no dot comes before; `A` tells what the stretch
    has to do with it. -/
def Stands {ε : Type} (A : List Lexeme → ε → Prop) (ls : List Lexeme) (y : ε) : Prop :=
  ∃ a part b, ls = a ++ (part ++ b) ∧ Settled a ∧ A part y

namespace Stands

variable {ε : Type} {A : List Lexeme → ε → Prop} {y : ε} {a b : List Lexeme}

theorem whole (h : A a y) : Stands A a y := ⟨[], a, [], by simp, .nil, h⟩

theorem left (h : Stands A a y) : Stands A (a ++ b) y := by
  obtain ⟨before, part, behind, rfl, hbefore, hpart⟩ := h
  exact ⟨before, part, behind ++ b, by simp, hbefore, hpart⟩

theorem right (h : Stands A b y) (ha : Settled a) : Stands A (a ++ b) y := by
  obtain ⟨before, part, behind, rfl, hbefore, hpart⟩ := h
  exact ⟨a ++ before, part, behind, by simp, ha.append hbefore, hpart⟩

end Stands

namespace Reader

variable {α β ε : Type} {feed rest mid : Feed} {x : α}

/-- The reader gives `x` on the feed and takes `used`, and does so again if the tag is closed behind
    `used`, with at least `ahead` of the lexemes in between that came there. -/
structure Cut (ahead : Nat) (p : Reader α) (feed rest : Feed) (x : α) (used : List Lexeme) : Prop where
  split : feed.lexemes = used ++ rest.lexemes
  last : rest.last = feed.last.after used
  settled : Settled used
  again : ∀ (ls : List Lexeme) (c : Lexeme) (stop : Lexer.Stop) (last : Span),
    ls <+: rest.lexemes → ahead ≤ ls.length → c.token.isClosing = true →
    p ⟨used ++ (ls ++ [c]), stop, last⟩ = .ok (x, ⟨ls ++ [c], stop, last.after used⟩)

namespace Cut

variable {ahead : Nat} {p : Reader α} {used : List Lexeme}

/-- Without anything behind it. -/
theorem closed (h : Cut 0 p feed rest x used) {c : Lexeme} (hc : c.token.isClosing = true)
    (stop : Lexer.Stop) (last : Span) :
    p ⟨used ++ [c], stop, last⟩ = .ok (x, ⟨[c], stop, last.after used⟩) :=
  h.again [] c stop last List.nil_prefix (Nat.zero_le _) hc

theorem weaken (h : Cut 0 p feed rest x used) : Cut ahead p feed rest x used where
  split := h.split
  last := h.last
  settled := h.settled
  again := fun ls c stop last hls _ hc => h.again ls c stop last hls (Nat.zero_le _) hc

protected theorem pure (a : α) (feed : Feed) : Cut 0 (Pure.pure a : Reader α) feed feed a [] :=
  ⟨rfl, rfl, .nil, fun _ _ _ _ _ _ _ => rfl⟩

/-- Two cuts, one after the other.  The second one takes what the first one needs to see. -/
theorem bind {more : Nat} {k : α → Reader β} {y : β} {used' : List Lexeme}
    (h : Cut ahead p feed mid x used) (h' : Cut more (k x) mid rest y used')
    (hahead : ahead ≤ used'.length + more) : Cut more (p >>= k) feed rest y (used ++ used') where
  split := by rw [h.split, h'.split, List.append_assoc]
  last := by rw [h'.last, h.last, Span.after_append]
  settled := h.settled.append h'.settled
  again := by
    intro ls c stop last hls hmore hc
    have hprefix : used' ++ ls <+: mid.lexemes := by
      rw [h'.split]
      exact (List.prefix_append_right_inj used').2 hls
    have hlength : ahead ≤ (used' ++ ls).length := by
      rw [List.length_append]
      omega
    have hfirst := h.again (used' ++ ls) c stop last hprefix hlength hc
    rw [List.append_assoc used' ls] at hfirst
    rw [List.append_assoc, bind_apply, hfirst, Span.after_append]
    exact h'.again ls c stop (last.after used) hls hmore hc

/-- Taking the next lexeme. -/
theorem next {k : Option Lexeme → Reader α} {l : Lexeme} {ls : List Lexeme}
    (hls : feed.lexemes = l :: ls) (h : Cut ahead (k (some l)) ⟨ls, feed.stop, l.span⟩ rest x used)
    (hsettled : Settled (l :: used)) : Cut ahead (Reader.next >>= k) feed rest x (l :: used) where
  split := by rw [hls, List.cons_append, ← h.split]
  last := h.last
  settled := hsettled
  again := fun more c stop _ hmore hahead hc => h.again more c stop l.span hmore hahead hc

/-- Looking at the next lexeme, which stays. -/
theorem peek (feed : Feed) : Cut 1 Reader.peek feed feed feed.lexemes.head? [] where
  split := rfl
  last := rfl
  settled := .nil
  again := by
    intro ls c stop last hls hahead hc
    cases ls with
    | nil => exact absurd hahead (by decide)
    | cons l ls =>
      obtain ⟨tail, htail⟩ := hls
      rw [← htail]
      rfl

theorem length_eq (h : Cut ahead p feed rest x used) :
    feed.lexemes.length = used.length + rest.lexemes.length := by
  rw [h.split, List.length_append]

theorem length_le (h : Cut ahead p feed rest x used) :
    rest.lexemes.length ≤ feed.lexemes.length := by
  rw [h.length_eq]
  exact Nat.le_add_left _ _

theorem ne_nil (h : Cut ahead p feed rest x used) (hne : rest.lexemes ≠ feed.lexemes) :
    used ≠ [] := by
  rintro rfl
  exact hne h.split.symm

end Cut

/-- One of the closing delimiters. -/
def closingLexeme : Lexeme := ⟨.endExpr, ⟨0, 0⟩, [], none⟩

/-- The reader needs something to take: at the end of the tag it fails. -/
def Needs (p : Reader α) : Prop :=
  ∀ (c : Lexeme) (stop : Lexer.Stop) (last : Span) (r : α × Feed), c.token.isClosing = true →
    p ⟨[c], stop, last⟩ ≠ .ok r

namespace Needs

theorem bind {p : Reader α} (h : Needs p) (k : α → Reader β) : Needs (p >>= k) := by
  intro c stop last r hc hr
  obtain ⟨a, mid, ha, -⟩ := bind_eq_ok_iff.1 hr
  exact h c stop last _ hc ha

theorem next {k : Option Lexeme → Reader α}
    (h : ∀ (c : Lexeme) feed r, c.token.isClosing = true → k (some c) feed ≠ .ok r) :
    Needs (Reader.next >>= k) :=
  fun c _ _ r hc => h c _ r hc

end Needs

theorem expect_needs {t : Token} (ht : t.isClosing = false) : Needs (expect t) := by
  refine .next fun c feed r hc h => ?_
  have hne : c.token ≠ t := by
    rintro rfl
    rw [ht] at hc
    cases hc
  dsimp only at h
  rw [if_neg hne] at h
  exact unexpected_ne_ok h

theorem ident_needs : Needs ident := by
  refine .next fun c feed r hc h => ?_
  dsimp only at h
  rw [Token.isName_of_isClosing hc, if_neg (by decide)] at h
  exact unexpected_ne_ok h

theorem Cut.ne_nil_of_needs {p : Reader α} {used : List Lexeme} (h : Cut 0 p feed rest x used)
    (hneeds : Needs p) : used ≠ [] := by
  rintro rfl
  exact hneeds closingLexeme (.atEnd 0) ⟨0, 0⟩ _ rfl (h.closed rfl _ _)

/-- What the reader does on the feed is a cut, and each part of what it gives was given before or stands
    on the lexemes taken. -/
def CutAt (A : List Lexeme → ε → Prop) (given : ε → Prop) (p : Reader α) (f : α → ε → Prop)
    (feed : Feed) : Prop :=
  ∀ x rest, p feed = .ok (x, rest) →
    ∃ used, Cut 0 p feed rest x used ∧ ∀ y, f x y → given y ∨ Stands A used y

/-- On lexemes of a tag whatever the reader does is a cut. -/
def Cuts [Letters] (A : List Lexeme → ε → Prop) (given : ε → Prop) (p : Reader α) (f : α → ε → Prop) : Prop :=
  ∀ feed, Orderly feed.lexemes → CutAt A given p f feed

/-- No parts at all. -/
def noPart {α ε : Type} (_ : α) (_ : ε) : Prop := False

variable {A : List Lexeme → ε → Prop} {given : ε → Prop}

/-! ## Sequencing and choice -/

theorem CutAt.bind {p : Reader α} {k : α → Reader β} {f : α → ε → Prop} {g : β → ε → Prop}
    (hp : CutAt A (fun _ => False) p f feed)
    (hk : ∀ a mid used, Cut 0 p feed mid a used → CutAt A (fun y => f a y ∨ given y) (k a) g mid) :
    CutAt A given (p >>= k) g feed := by
  intro x rest hx
  obtain ⟨a, mid, ha, hb⟩ := bind_eq_ok_iff.1 hx
  obtain ⟨used, hcut, hparts⟩ := hp a mid ha
  obtain ⟨used', hcut', hparts'⟩ := hk a mid used hcut x rest hb
  refine ⟨used ++ used', hcut.bind hcut' (Nat.zero_le _), fun y hy => ?_⟩
  rcases hparts' y hy with (hfound | hgiven) | hstands
  · rcases hparts y hfound with hnone | hstands
    · exact hnone.elim
    · exact .inr hstands.left
  · exact .inl hgiven
  · exact .inr (hstands.right hcut.settled)

theorem CutAt.mono {p : Reader α} {f f' : α → ε → Prop} {given' : ε → Prop}
    (h : CutAt A given p f feed) (hf : ∀ x y, f' x y → f x y) (hg : ∀ y, given y → given' y) :
    CutAt A given' p f' feed := by
  intro x rest hx
  obtain ⟨used, hcut, hparts⟩ := h x rest hx
  exact ⟨used, hcut, fun y hy => (hparts y (hf x y hy)).imp_left (hg y)⟩

theorem CutAt.never {p : Reader α} {f : α → ε → Prop} (h : ∀ r, p feed ≠ .ok r) :
    CutAt A given p f feed :=
  fun _ _ hx => absurd hx (h _)

theorem CutAt.unexpected (expected : List Expected) (found : Option Lexeme) (f : α → ε → Prop) :
    CutAt A given (unexpected expected found) f feed :=
  .never fun _ => unexpected_ne_ok

theorem CutAt.tooDeep (limit : Nat) (f : α → ε → Prop) :
    CutAt A given (tooDeep limit) f feed :=
  .never fun _ => tooDeep_ne_ok

theorem CutAt.pure {a : α} {f : α → ε → Prop} (h : ∀ y, f a y → given y) :
    CutAt A given (Pure.pure a : Reader α) f feed := by
  intro x rest hx
  cases hx
  exact ⟨[], .pure a _, fun y hy => .inl (h y hy)⟩

namespace Cuts

variable {f : α → ε → Prop} {g : β → ε → Prop}

theorem pure [Letters] {a : α} (h : ∀ y, f a y → given y) : Cuts A given (Pure.pure a : Reader α) f :=
  fun _ _ => .pure h

theorem bind [Letters] {p : Reader α} {k : α → Reader β} (hp : Cuts A (fun _ => False) p f)
    (hk : ∀ a, Cuts A (fun y => f a y ∨ given y) (k a) g) : Cuts A given (p >>= k) g :=
  fun feed hord => (hp feed hord).bind fun a mid _ hcut => hk a mid (by
    rw [hcut.split] at hord
    exact hord.right)

theorem mono [Letters] {p : Reader α} {f' : α → ε → Prop} {given' : ε → Prop} (h : Cuts A given p f)
    (hf : ∀ x y, f' x y → f x y) (hg : ∀ y, given y → given' y) : Cuts A given' p f' :=
  fun feed hord => (h feed hord).mono hf hg

/-- Two readers in a row of which the first has no parts to give. -/
theorem after [Letters] {p : Reader α} {k : α → Reader β} (hp : Cuts A (fun _ => False) p noPart)
    (hk : ∀ a, Cuts A given (k a) g) : Cuts A given (p >>= k) g :=
  hp.bind fun a => (hk a).mono (fun _ _ h => h) fun _ h => .inr h

theorem map [Letters] {p : Reader α} {h : α → β} (hp : Cuts A (fun _ => False) p f)
    (hg : ∀ a y, g (h a) y → f a y ∨ given y) : Cuts A given (h <$> p) g :=
  hp.bind fun a => .pure (hg a)

theorem ite [Letters] {c : Prop} [Decidable c] {p q : Reader α} (hp : Cuts A given p f)
    (hq : Cuts A given q f) : Cuts A given (if c then p else q) f := by
  split
  · exact hp
  · exact hq

theorem unexpected [Letters] (expected : List Expected) (found : Option Lexeme) :
    Cuts A given (Reader.unexpected expected found) f :=
  fun _ _ => .unexpected expected found f

theorem tooDeep [Letters] (limit : Nat) : Cuts A given (Reader.tooDeep limit) f :=
  fun _ _ => .tooDeep limit f

theorem fail [Letters] (diagnostic : Diagnostic) : Cuts A given (Reader.fail diagnostic) f :=
  fun _ _ => .never fun _ h => by cases h

/-- Giving a value that has no parts. -/
theorem give [Letters] (a : α) : Cuts A given (Pure.pure a : Reader α) noPart := .pure fun _ h => h.elim

end Cuts

/-! ## Looking ahead -/

/-- A reader that looks at the next lexeme first.  Either it takes that lexeme, or it does the same at
    the end of the tag. -/
theorem CutAt.peek {k : Option Lexeme → Reader α} {f : α → ε → Prop}
    (h : CutAt A given (k feed.lexemes.head?) f feed)
    (hstop : (∀ x rest, k feed.lexemes.head? feed = .ok (x, rest) → rest.lexemes ≠ feed.lexemes) ∨
      ∀ c : Lexeme, c.token.isClosing = true → k (some c) = k feed.lexemes.head?) :
    CutAt A given (peek >>= k) f feed := by
  intro x rest hx
  obtain ⟨found, mid, hpeek, hx⟩ := bind_eq_ok_iff.1 hx
  obtain ⟨rfl, rfl⟩ := peek_eq_ok hpeek
  obtain ⟨used, hcut, hparts⟩ := h x rest hx
  refine ⟨used, ?_, hparts⟩
  by_cases hused : used = []
  · -- Nothing is taken, so the end of the tag may be what is looked at.
    subst hused
    refine ⟨hcut.split, hcut.last, hcut.settled, fun ls c stop last hls hahead hc => ?_⟩
    have hagain := hcut.again ls c stop last hls hahead hc
    cases ls with
    | cons l ls =>
      obtain ⟨tail, htail⟩ := hls
      have hhead : mid.lexemes.head? = some l := by rw [hcut.split, ← htail]; rfl
      rw [hhead] at hagain
      exact hagain
    | nil =>
      rcases hstop with hne | hsame
      · exact absurd hcut.split.symm (hne x rest hx)
      · rw [← hsame c hc] at hagain
        exact hagain
  · exact (Cut.peek mid).bind hcut (List.length_pos_iff.2 hused)

theorem Cuts.peek [Letters] {k : Option Lexeme → Reader α} {f : α → ε → Prop}
    (hk : ∀ found, Cuts A given (k found) f)
    (hstop : ∀ found, Needs (k found) ∨
      ∀ c : Lexeme, c.token.isClosing = true → k (some c) = k found) :
    Cuts A given (Reader.peek >>= k) f := by
  refine fun feed hord => .peek (hk _ feed hord) ((hstop _).imp_left fun hneeds x rest hx heq => ?_)
  obtain ⟨used, hcut, -⟩ := hk _ feed hord x rest hx
  exact hcut.ne_nil_of_needs hneeds (List.self_eq_append_left.1 (heq ▸ hcut.split))

/-- What `f` says of the next lexeme, which stays. -/
def looks (f : Option Lexeme → β) : Reader β := do return f (← peek)

theorem looks_bind (f : Option Lexeme → β) (k : β → Reader α) :
    (looks f >>= k) = (peek >>= fun found => k (f found)) := by
  funext feed
  unfold looks
  rw [bind_apply, bind_apply, bind_apply]
  cases peek feed <;> rfl

theorem looks_run {f : Option Lexeme → β} {l : Lexeme} {ls : List Lexeme}
    (hls : feed.lexemes = l :: ls) : looks f feed = .ok (f (some l), feed) := by
  have hpeek : Reader.peek feed = .ok (some l, feed) := by
    rw [peek_feed, Feed.peek, hls]
  unfold looks
  rw [bind_apply, hpeek]
  rfl

theorem looks_eq_ok {f : Option Lexeme → β} {b : β} (h : looks f feed = .ok (b, rest)) :
    rest = feed ∧ b = f feed.lexemes.head? := by
  obtain ⟨found, mid, hpeek, hpure⟩ := bind_eq_ok_iff.1 h
  obtain ⟨rfl, rfl⟩ := peek_eq_ok hpeek
  cases hpure
  exact ⟨rfl, rfl⟩

/-- It says the same as far as that lexeme stays. -/
theorem looks_cut {f : Option Lexeme → β} {b : β} (h : looks f feed = .ok (b, rest)) :
    Cut 1 (looks f) feed feed b [] := by
  obtain ⟨rfl, rfl⟩ := looks_eq_ok h
  exact (Cut.peek rest).bind (Cut.weaken (.pure _ _)) (Nat.le_add_left _ _)

/-- If it says the same of the end of the tag, the lexeme need not stay. -/
theorem looks_cut_end {f : Option Lexeme → β} {b : β} (h : looks f feed = .ok (b, rest))
    (hend : ∀ c : Lexeme, c.token.isClosing = true → f (some c) = b) :
    Cut 0 (looks f) feed feed b [] := by
  refine ⟨rfl, rfl, .nil, fun ls c stop last hls _ hc => ?_⟩
  cases ls with
  | cons l ls => exact (looks_cut h).again (l :: ls) c stop last hls (Nat.le_add_left _ _) hc
  | nil =>
    show Except.ok (f (some c), _) = _
    rw [hend c hc]
    rfl

theorem nextIs_eq (t : Token) : nextIs t = looks fun found => found.any fun l => l.token == t := rfl

/-- A closing delimiter is no other token. -/
theorem any_closing {t : Token} (ht : t.isClosing = false) {c : Lexeme}
    (hc : c.token.isClosing = true) : ((some c).any fun l => l.token == t) = false := by
  rw [Option.any_some, beq_eq_false_iff_ne]
  rintro rfl
  rw [ht] at hc
  cases hc

theorem secondIs_cut {t : Token} {b : Bool} (h : secondIs t feed = .ok (b, rest)) :
    rest = feed ∧ Cut 2 (secondIs t) feed feed b [] := by
  obtain ⟨rfl, rfl⟩ := secondIs_eq_ok h
  refine ⟨rfl, rfl, rfl, .nil, fun ls c stop last hls hahead _ => ?_⟩
  obtain ⟨tail, htail⟩ := hls
  match ls with
  | [] => exact absurd hahead (by decide)
  | [_] => exact absurd hahead (Nat.lt_irrefl 1)
  | l :: m :: ls =>
    rw [← htail]
    rfl

/-- Looking for a token and going on accordingly.  If it is there, something has to be taken. -/
theorem Cuts.nextIs [Letters] {t : Token} {k : Bool → Reader α} {f : α → ε → Prop}
    (ht : t.isClosing = false) (hk : ∀ b, Cuts A given (k b) f) (htrue : Needs (k true)) :
    Cuts A given (Reader.nextIs t >>= k) f := by
  rw [nextIs_eq, looks_bind]
  refine .peek (fun found => hk _) fun found => ?_
  cases hfound : found.any fun l => l.token == t with
  | true => exact .inl htrue
  | false => exact .inr fun c hc => by rw [any_closing ht hc]

/-! ## Single lexemes -/

/-- Taking the lexeme that comes next.  If it is a dot, something else has to be taken after it, and it
    must not be the beginning of a part. -/
theorem CutAt.next {k : Option Lexeme → Reader α} {f : α → ε → Prop} {l : Lexeme} {ls : List Lexeme}
    (hls : feed.lexemes = l :: ls) (hk : CutAt A given (k (some l)) f ⟨ls, feed.stop, l.span⟩)
    (hdot : l.token = .dot → ∀ x rest, k (some l) ⟨ls, feed.stop, l.span⟩ = .ok (x, rest) →
      rest.lexemes ≠ ls ∧ ∀ y, f x y → given y) :
    CutAt A given (Reader.next >>= k) f feed := by
  intro x rest hx
  rw [bind_apply, next_cons hls] at hx
  obtain ⟨used, hcut, hparts⟩ := hk x rest hx
  by_cases htoken : l.token = .dot
  · obtain ⟨hne, hgiven⟩ := hdot htoken x rest hx
    have hsettled := hcut.settled.append_of_ne_nil (a := [l]) (hcut.ne_nil hne)
    exact ⟨l :: used, hcut.next hls hsettled, fun y hy => .inl (hgiven y hy)⟩
  · refine ⟨l :: used, hcut.next hls (hcut.settled.cons htoken), fun y hy => ?_⟩
    exact (hparts y hy).imp_right fun h => h.right (a := [l]) (.singleton htoken)

/-- What is left then is shorter. -/
theorem CutAt.next_shorter {k : Option Lexeme → Reader α} {f : α → ε → Prop} {l : Lexeme}
    {ls : List Lexeme} (hls : feed.lexemes = l :: ls)
    (hk : CutAt A given (k (some l)) f ⟨ls, feed.stop, l.span⟩)
    (h : (Reader.next >>= k) feed = .ok (x, rest)) :
    rest.lexemes.length < feed.lexemes.length := by
  rw [bind_apply, next_cons hls] at h
  obtain ⟨used, hcut, -⟩ := hk x rest h
  rw [hls]
  exact Nat.lt_succ_of_le hcut.length_le

theorem next_last_run {k : Span → Reader α} {l : Lexeme} {ls : List Lexeme}
    (hls : feed.lexemes = l :: ls) :
    (Reader.next >>= fun _ => Reader.last >>= k) feed = k l.span ⟨ls, feed.stop, l.span⟩ := by
  rw [bind_apply, next_cons hls]
  rfl

/-- Taking a lexeme and asking for its place. -/
theorem CutAt.next_last {k : Span → Reader α} {f : α → ε → Prop} {l : Lexeme} {ls : List Lexeme}
    (hls : feed.lexemes = l :: ls) (hdot : l.token ≠ .dot)
    (hk : CutAt A given (k l.span) f ⟨ls, feed.stop, l.span⟩) :
    CutAt A given (Reader.next >>= fun _ => Reader.last >>= k) f feed := by
  intro x rest hx
  rw [next_last_run hls] at hx
  obtain ⟨used, hcut, hparts⟩ := hk x rest hx
  refine ⟨l :: used, ⟨?_, hcut.last, hcut.settled.cons hdot, ?_⟩, fun y hy => ?_⟩
  · rw [hls, List.cons_append, ← hcut.split]
  · intro more c stop _ hmore hahead hc
    exact hcut.again more c stop l.span hmore hahead hc
  · exact (hparts y hy).imp_right fun h => h.right (a := [l]) (.singleton hdot)

/-- Taking a lexeme that has to be there.  A dot is not taken this way. -/
theorem Cuts.next [Letters] {k : Option Lexeme → Reader α} {f : α → ε → Prop}
    (hk : ∀ l, Cuts A given (k (some l)) f) (hnone : ∀ feed r, k none feed ≠ .ok r)
    (hdot : ∀ l feed r, l.token = .dot → k (some l) feed ≠ .ok r) :
    Cuts A given (Reader.next >>= k) f := by
  intro feed hord
  cases hls : feed.lexemes with
  | cons l ls =>
    rw [hls] at hord
    exact .next hls (hk l _ hord.tail) fun htoken x rest hx => absurd hx (hdot l _ _ htoken)
  | nil =>
    refine .never fun r hr => ?_
    rcases next_bind_eq_ok hr with ⟨-, hk⟩ | ⟨l, mid, hcons, -⟩
    · exact hnone _ _ hk
    · rw [hls] at hcons
      cases hcons

/-- Taking a lexeme that is no dot. -/
theorem Cut.take {l : Lexeme} {ls : List Lexeme} (hls : feed.lexemes = l :: ls)
    (hdot : l.token ≠ .dot) :
    Cut 0 Reader.next feed ⟨ls, feed.stop, l.span⟩ (some l) [l] :=
  ⟨hls, rfl, .singleton hdot, fun _ _ _ _ _ _ _ => rfl⟩

theorem expect_cuts [Letters] {t : Token} (hdot : t ≠ .dot) :
    Cuts A given (expect t) (noPart : Lexeme → ε → Prop) := by
  refine .next (fun l => ?_) (fun _ _ => unexpected_ne_ok) fun l feed r htoken h => ?_
  · exact Cuts.ite (.give _) (.unexpected _ _)
  · dsimp only at h
    rw [if_neg (by rw [htoken]; exact hdot.symm)] at h
    exact unexpected_ne_ok h

theorem ident_cuts [Letters] : Cuts A given ident (noPart : Ident → ε → Prop) := by
  refine .next (fun l => ?_) (fun _ _ => unexpected_ne_ok) fun l feed r htoken h => ?_
  · exact Cuts.ite (.give _) (.unexpected _ _)
  · dsimp only at h
    rw [if_neg (by rw [htoken]; decide)] at h
    exact unexpected_ne_ok h

theorem eat_cuts [Letters] {t : Token} (ht : t.isClosing = false) (hdot : t ≠ .dot) :
    Cuts A given (eat t) (noPart : Option Lexeme → ε → Prop) := by
  intro feed hord
  unfold eat
  rw [nextIs_eq, looks_bind]
  refine CutAt.peek ?_ ?_
  · intro found rest h
    cases hls : feed.lexemes with
    | nil =>
      rw [hls] at h
      cases h
      exact ⟨[], .pure none _, fun _ h => h.elim⟩
    | cons l ls =>
      rw [hls] at h
      rw [List.head?_cons, Option.any_some] at h ⊢
      by_cases htoken : l.token = t
      · rw [if_pos (beq_iff_eq.2 htoken)] at h ⊢
        rw [next_cons hls] at h
        cases h
        exact ⟨[l], .take hls (by rw [htoken]; exact hdot), fun _ h => h.elim⟩
      · rw [if_neg (fun heq => htoken (eq_of_beq heq))] at h ⊢
        cases h
        exact ⟨[], .pure none _, fun _ h => h.elim⟩
  · cases hfound : feed.lexemes.head?.any fun l => l.token == t with
    | false => exact .inr fun c hc => by rw [any_closing ht hc]
    | true =>
      refine .inl fun found rest h heq => ?_
      rw [if_pos rfl] at h
      rcases next_eq_ok h with ⟨-, -, hnil⟩ | ⟨l, -, hcons, -⟩
      · rw [hnil] at hfound
        cases hfound
      · rw [heq] at hcons
        exact List.cons_ne_self _ _ hcons.symm

theorem eats_cuts [Letters] {t : Token} (ht : t.isClosing = false) (hdot : t ≠ .dot) :
    Cuts A given (eats t) (noPart : Bool → ε → Prop) :=
  (eat_cuts ht hdot).after fun _ => .give _

/-- The end of the tag is no other token. -/
theorem eats_closing {t : Token} (ht : t.isClosing = false) {c : Lexeme}
    (hc : c.token.isClosing = true) (stop : Lexer.Stop) (last : Span) :
    eats t (⟨[c], stop, last⟩ : Feed) = .ok (false, ⟨[c], stop, last⟩) := by
  have hpeek : peek (⟨[c], stop, last⟩ : Feed) = .ok (some c, ⟨[c], stop, last⟩) := rfl
  unfold eats eat
  rw [bind_apply, nextIs_eq, looks_bind, bind_apply, hpeek]
  dsimp only
  rw [any_closing ht hc]
  rfl

/-! ## Names and constants -/

theorem ident?_cuts [Letters] : Cuts A given ident? (noPart : Option Ident → ε → Prop) := by
  refine .peek (fun found => ?_) fun found => ?_
  · exact Cuts.ite (ident_cuts.map fun _ _ h => h.elim) (.give _)
  · cases hname : found.any fun l => l.token.isName with
    | true => exact .inl (ident_needs.bind _)
    | false => exact .inr fun c hc => by rw [Option.any_some, Token.isName_of_isClosing hc]

theorem literalOf_cuts [Letters] (l : Lexeme) (negative : Bool) :
    Cuts A given (literalOf l negative) (noPart : Literal → ε → Prop) := by
  have htext : Cuts A (fun _ => False) (textOf l) (noPart : String → ε → Prop) := by
    rw [textOf_feed, Feed.textOf]
    split
    · exact .give _
    · exact .fail _
  have hchar : Cuts A (fun _ => False) (Feed.charOf l) (noPart : Char → ε → Prop) := by
    unfold Feed.charOf
    split
    · exact .give _
    · exact .fail _
  rw [literalOf_feed, Feed.literalOf]
  split
  · exact htext.map fun _ _ h => h.elim
  · exact hchar.map fun _ _ h => h.elim
  · split
    · exact .give _
    · exact .fail _
  · exact .give _
  · exact .give _
  · exact .unexpected _ _

theorem textLit_cuts [Letters] : Cuts A given textLit (noPart : TextLit → ε → Prop) := by
  refine .next (fun l => .ite ?_ (.unexpected _ _)) (fun _ _ => unexpected_ne_ok)
    fun l feed r htoken h => ?_
  · have htext : Cuts A (fun _ => False) (textOf l) (noPart : String → ε → Prop) := by
      rw [textOf_feed, Feed.textOf]
      split
      · exact .give _
      · exact .fail _
    exact htext.after fun _ => .give _
  · dsimp only at h
    rw [if_neg (by rw [htoken]; decide)] at h
    exact unexpected_ne_ok h

/-! ## Repetition -/

section Rounds

variable {close : Token} {item : Reader α} {mid mid' : Feed} {x : α} {l : Lexeme}
  {start first ls : List Lexeme}

/-- A round of `seq` that finds the closing bracket. -/
theorem Cut.seqFrom_end (hstart : Cut 0 (eat close) feed rest (some l) start) (fuel : Nat)
    (trailing : Bool) :
    Cut 0 (seqFrom close item fuel trailing) feed rest ⟨[], trailing, l.span⟩ (start ++ []) := by
  unfold seqFrom
  exact hstart.bind (.pure _ _) (Nat.zero_le _)

/-- A round that reads an item with the closing bracket behind it. -/
theorem Cut.seqFrom_last (hstart : Cut 0 (eat close) feed mid none start)
    (hfirst : Cut 0 item mid mid' x first) (hls : mid'.lexemes = l :: ls) (hdot : l.token ≠ .dot)
    (hcomma : l.token ≠ .comma) (hend : l.token = close) (fuel : Nat) (trailing : Bool) :
    Cut 0 (seqFrom close item fuel trailing) feed ⟨ls, mid'.stop, l.span⟩ ⟨[x], false, l.span⟩
      (start ++ (first ++ [l])) := by
  unfold seqFrom
  refine hstart.bind (hfirst.bind (.next hls ?_ (.singleton hdot)) (Nat.zero_le _)) (Nat.zero_le _)
  dsimp only
  rw [if_neg hcomma, if_pos hend]
  exact .pure _ _

/-- A round that reads an item with a comma behind it, and the rounds after it. -/
theorem Cut.seqFrom_more {fuel : Nat} {s : Seq α} {more : List Lexeme}
    (hstart : Cut 0 (eat close) feed mid none start) (hfirst : Cut 0 item mid mid' x first)
    (hls : mid'.lexemes = l :: ls) (hcomma : l.token = .comma)
    (hmore : Cut 0 (seqFrom close item fuel true) ⟨ls, mid'.stop, l.span⟩ rest s more)
    (trailing : Bool) :
    Cut 0 (seqFrom close item (fuel + 1) trailing) feed rest { s with items := x :: s.items }
      (start ++ (first ++ l :: (more ++ []))) := by
  have hsettled : Settled (l :: (more ++ [])) := by
    rw [List.append_nil]
    exact hmore.settled.cons (by rw [hcomma]; decide)
  unfold seqFrom
  refine hstart.bind (hfirst.bind (.next hls ?_ hsettled) (Nat.zero_le _)) (Nat.zero_le _)
  dsimp only
  rw [if_pos hcomma]
  exact hmore.bind (.pure _ _) (Nat.zero_le _)

end Rounds

/-- One round of `seq` after another.  The bound may be any that leaves a round for each comma. -/
theorem seqFrom_cut [Letters] {item : Reader α} {f : α → ε → Prop} (hitem : Cuts A (fun _ => False) item f)
    {close : Token} (hclose : close.isClosing = false) (hdot : close ≠ .dot) {fuel : Nat}
    {trailing : Bool} {s : Seq α} (hord : Orderly feed.lexemes)
    (h : seqFrom close item fuel trailing feed = .ok (s, rest)) :
    ∃ used, (∀ fuel', used.length ≤ fuel' →
        Cut 0 (seqFrom close item fuel' trailing) feed rest s used) ∧
      ∀ y, (∃ x ∈ s.items, f x y) → Stands A used y := by
  induction fuel using Nat.strongRecOn generalizing trailing feed s with
  | ind fuel ih =>
    unfold seqFrom at h
    obtain ⟨found, mid, heat, h⟩ := bind_eq_ok_iff.1 h
    have heats : Cuts A (fun _ => False) (eat close) noPart := eat_cuts hclose hdot
    obtain ⟨start, hstart, -⟩ := heats _ hord _ _ heat
    cases found with
    | some l =>
      cases h
      refine ⟨start ++ [], fun fuel' _ => hstart.seqFrom_end fuel' trailing, fun y hy => ?_⟩
      obtain ⟨x, hx, -⟩ := hy
      cases hx
    | none =>
      rw [hstart.split] at hord
      obtain ⟨x, mid', hx, h⟩ := bind_eq_ok_iff.1 h
      obtain ⟨first, hfirst, hparts⟩ := hitem _ hord.right _ _ hx
      rw [hfirst.split] at hord
      -- The parts of the item stand where it does, whatever comes behind it.
      have hitemParts : ∀ (more : List Lexeme) y, f x y → Stands A (start ++ (first ++ more)) y :=
        fun more y hy => Stands.right ((hparts y hy).resolve_left id).left hstart.settled
      cases hls : mid'.lexemes with
      | nil =>
        rcases next_bind_eq_ok h with ⟨-, h⟩ | ⟨l, after, hcons, -⟩
        · exact (unexpected_ne_ok h).elim
        · rw [hls] at hcons
          cases hcons
      | cons l ls =>
        rw [hls] at hord
        rw [bind_apply, next_cons hls] at h
        dsimp only at h
        split at h
        · next hcomma =>
          cases fuel with
          | zero => exact (unexpected_ne_ok h).elim
          | succ fuel =>
            obtain ⟨s', rest', hs', hpure⟩ := bind_eq_ok_iff.1 h
            cases hpure
            obtain ⟨more, hmore, hparts'⟩ := ih fuel (Nat.lt_succ_self fuel) hord.right.right.tail hs'
            refine ⟨start ++ (first ++ l :: (more ++ [])), fun fuel' hfuel => ?_, fun y hy => ?_⟩
            · simp only [List.length_append, List.length_cons] at hfuel
              obtain ⟨fuel', rfl⟩ : ∃ n, fuel' = n + 1 := ⟨fuel' - 1, by omega⟩
              exact hstart.seqFrom_more hfirst hls hcomma (hmore fuel' (by omega)) trailing
            · obtain ⟨z, hz, hy⟩ := hy
              rcases List.mem_cons.1 hz with rfl | hz
              · exact hitemParts _ y hy
              · have hne : l.token ≠ .dot := by rw [hcomma]; decide
                have hbehind : Stands A (l :: (more ++ [])) y :=
                  ((hparts' y ⟨z, hz, hy⟩).left).right (a := [l]) (.singleton hne)
                exact (hbehind.right hfirst.settled).right hstart.settled
        · next hcomma =>
          split at h
          · next hend =>
            cases h
            have hne : l.token ≠ .dot := by rw [hend]; exact hdot
            refine ⟨start ++ (first ++ [l]), fun fuel' _ =>
              hstart.seqFrom_last hfirst hls hne hcomma hend fuel' trailing, fun y hy => ?_⟩
            obtain ⟨z, hz, hy⟩ := hy
            rw [List.mem_singleton.1 hz] at hy
            exact hitemParts _ y hy
          · exact (unexpected_ne_ok h).elim

theorem seq_cuts [Letters] {item : Reader α} {f : α → ε → Prop} (hitem : Cuts A (fun _ => False) item f)
    {close : Token} (hclose : close.isClosing = false) (hdot : close ≠ .dot) :
    Cuts A given (seq close item) fun s y => ∃ x ∈ s.items, f x y := by
  intro feed hord s rest h
  obtain ⟨used, hcut, hparts⟩ := seqFrom_cut hitem hclose hdot hord h
  have hexact := hcut used.length (Nat.le_refl _)
  refine ⟨used, ⟨hexact.split, hexact.last, hexact.settled, fun ls c stop last hls hahead hc => ?_⟩,
    fun y hy => .inr (hparts y hy)⟩
  refine (hcut _ ?_).again ls c stop last hls hahead hc
  show used.length ≤ (used ++ (ls ++ [c])).length
  rw [List.length_append]
  exact Nat.le_add_right _ _

/-- One round of `many` after another.  Where it ends, `ahead` tells how many of the lexemes that come
    then have to stay for the item reader to give nothing again. -/
theorem manyFrom_cut [Letters] {item : Reader (Option α)} {f : α → ε → Prop} (ahead : List Lexeme → Nat)
    (hnone : ∀ feed rest, Orderly feed.lexemes → item feed = .ok (none, rest) →
      Cut (ahead rest.lexemes) item feed rest none [])
    (hsome : ∀ feed x rest, Orderly feed.lexemes → item feed = .ok (some x, rest) →
      ∃ used, used ≠ [] ∧ Cut 0 item feed rest (some x) used ∧ ∀ y, f x y → Stands A used y)
    {fuel : Nat} {xs : List α} (hfuel : feed.lexemes.length < fuel) (hord : Orderly feed.lexemes)
    (h : manyFrom item fuel feed = .ok (xs, rest)) :
    ∃ used, (∀ fuel', used.length < fuel' →
        Cut (ahead rest.lexemes) (manyFrom item fuel') feed rest xs used) ∧
      ∀ y, (∃ x ∈ xs, f x y) → Stands A used y := by
  -- An item takes at least one lexeme, so a bound above the number of lexemes taken is never met.
  induction fuel generalizing feed xs with
  | zero => exact absurd hfuel (Nat.not_lt_zero _)
  | succ fuel ih =>
    obtain ⟨found, mid, hitem, h⟩ := bind_eq_ok_iff.1 h
    cases found with
    | none =>
      cases h
      refine ⟨[] ++ [], fun fuel' hfuel' => ?_, fun y hy => ?_⟩
      · obtain ⟨fuel', rfl⟩ : ∃ n, fuel' = n + 1 := ⟨fuel' - 1, by omega⟩
        exact (hnone _ _ hord hitem).bind (Cut.weaken (.pure _ _)) (Nat.le_add_left _ _)
      · obtain ⟨x, hx, -⟩ := hy
        cases hx
    | some x =>
      obtain ⟨xs', rest', hrest, hpure⟩ := bind_eq_ok_iff.1 h
      cases hpure
      obtain ⟨first, hne, hfirst, hparts⟩ := hsome _ _ _ hord hitem
      have hpos := List.length_pos_iff.2 hne
      rw [hfirst.split, List.length_append] at hfuel
      rw [hfirst.split] at hord
      obtain ⟨more, hmore, hparts'⟩ := ih (by omega) hord.right hrest
      refine ⟨first ++ (more ++ []), fun fuel' hfuel' => ?_, fun y hy => ?_⟩
      · simp only [List.length_append] at hfuel'
        obtain ⟨fuel', rfl⟩ : ∃ n, fuel' = n + 1 := ⟨fuel' - 1, by omega⟩
        refine hfirst.bind ?_ (Nat.zero_le _)
        exact (hmore fuel' (by simpa using by omega)).bind (Cut.weaken (.pure _ _)) (Nat.le_add_left _ _)
      · obtain ⟨z, hz, hy⟩ := hy
        rcases List.mem_cons.1 hz with rfl | hz
        · exact (hparts y hy).left
        · exact ((hparts' y ⟨z, hz, hy⟩).left).right hfirst.settled

theorem many_cut [Letters] {item : Reader (Option α)} {f : α → ε → Prop} (ahead : List Lexeme → Nat)
    (hnone : ∀ feed rest, Orderly feed.lexemes → item feed = .ok (none, rest) →
      Cut (ahead rest.lexemes) item feed rest none [])
    (hsome : ∀ feed x rest, Orderly feed.lexemes → item feed = .ok (some x, rest) →
      ∃ used, used ≠ [] ∧ Cut 0 item feed rest (some x) used ∧ ∀ y, f x y → Stands A used y)
    {xs : List α} (hord : Orderly feed.lexemes) (h : many item feed = .ok (xs, rest)) :
    ∃ used, Cut (ahead rest.lexemes) (many item) feed rest xs used ∧
      ∀ y, (∃ x ∈ xs, f x y) → Stands A used y := by
  obtain ⟨used, hcut, hparts⟩ := manyFrom_cut ahead hnone hsome (Nat.lt_succ_self _) hord h
  have hexact := hcut (used.length + 1) (Nat.lt_succ_self _)
  refine ⟨used, ⟨hexact.split, hexact.last, hexact.settled, fun ls c stop last hls hahead hc => ?_⟩,
    hparts⟩
  refine (hcut _ ?_).again ls c stop last hls hahead hc
  show used.length < (used ++ (ls ++ [c])).length + 1
  rw [List.length_append]
  omega

/-- A repetition of items none of which begins at the end of the tag. -/
theorem many_cuts [Letters] {item : Reader (Option α)} {f : α → ε → Prop}
    (hitem : Cuts A (fun _ => False) item fun found y => ∃ x ∈ found, f x y)
    (hnone : ∀ feed rest, item feed = .ok (none, rest) → rest.lexemes = feed.lexemes)
    (hsome : ∀ (c : Lexeme) stop last x rest, c.token.isClosing = true →
      item ⟨[c], stop, last⟩ ≠ .ok (some x, rest)) :
    Cuts A given (many item) fun xs y => ∃ x ∈ xs, f x y := by
  have hstop : ∀ feed rest, Orderly feed.lexemes → item feed = .ok (none, rest) →
      Cut 0 item feed rest none [] := by
    intro feed rest hord hx
    obtain ⟨used, hcut, -⟩ := hitem feed hord none rest hx
    have hsplit := hcut.split
    rw [hnone feed rest hx] at hsplit
    rwa [List.self_eq_append_left.1 hsplit] at hcut
  have hround : ∀ feed x rest, Orderly feed.lexemes → item feed = .ok (some x, rest) →
      ∃ used, used ≠ [] ∧ Cut 0 item feed rest (some x) used ∧ ∀ y, f x y → Stands A used y := by
    intro feed x rest hord hx
    obtain ⟨used, hcut, hparts⟩ := hitem feed hord (some x) rest hx
    refine ⟨used, ?_, hcut, fun y hy => (hparts y ⟨x, rfl, hy⟩).resolve_left id⟩
    rintro rfl
    exact hsome closingLexeme (.atEnd 0) ⟨0, 0⟩ x _ rfl (hcut.closed rfl _ _)
  intro feed hord xs rest h
  obtain ⟨used, hcut, hparts⟩ := many_cut (fun _ => 0) hstop hround hord h
  exact ⟨used, hcut, fun y hy => .inr (hparts y hy)⟩

section

variable {t : Token} {p : Reader α} {f : α → ε → Prop}

theorem after?_cuts [Letters] (ht : t.isClosing = false) (hdot : t ≠ .dot)
    (hp : Cuts A (fun _ => False) p f) :
    Cuts A given (after? t p) fun found y => ∃ x ∈ found, f x y := by
  refine (eats_cuts ht hdot).after fun found => .ite (hp.map fun x y hy => ?_) (.pure fun y hy => ?_)
  · obtain ⟨x', hx, hy⟩ := hy
    cases hx
    exact .inl hy
  · obtain ⟨x, hx, -⟩ := hy
    cases hx

/-- Nothing is given only where the token does not follow. -/
theorem ifEats_none {other : Reader (Option α)}
    (h : (do if ← eats t then some <$> p else other : Reader (Option α)) feed = .ok (none, rest)) :
    other feed = .ok (none, rest) := by
  obtain ⟨found, mid, hfound, hite⟩ := bind_eq_ok_iff.1 h
  cases found with
  | true =>
    rw [if_pos rfl] at hite
    obtain ⟨x, mid', -, hpure⟩ := bind_eq_ok_iff.1 hite
    cases hpure
  | false =>
    rcases eats_eq_ok hfound with ⟨-, rfl, -⟩ | ⟨hfalse, -⟩
    · exact hite
    · cases hfalse

/-- A repetition of items with the same token before each of them. -/
theorem many_after?_cuts [Letters] (ht : t.isClosing = false) (hdot : t ≠ .dot)
    (hp : Cuts A (fun _ => False) p f) :
    Cuts A given (many (after? t p)) fun xs y => ∃ x ∈ xs, f x y := by
  refine many_cuts (after?_cuts ht hdot hp) (fun feed rest h => ?_) fun c stop last x rest hc h => ?_
  · cases ifEats_none h
    rfl
  · unfold after? at h
    rw [bind_apply, eats_closing ht hc] at h
    cases h

end

end Reader

end Stencil
