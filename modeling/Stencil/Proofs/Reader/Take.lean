/-
  Take — what a reader that succeeds has taken.

  A reader takes lexemes from the front of a feed.  For each of the small readers this file says
  which ones, and what the answer tells about the lexemes that are left: looking ahead changes
  nothing, `expect` and `ident` take exactly one lexeme, `eats` at most one.  The readers that only
  report (`unexpected`, `tooDeep`) never succeed, so in a proof about a successful run their branches
  fall away.
-/
import Stencil.Reader.Terminal

namespace Stencil

namespace Reader

variable {α : Type} {feed rest : Feed} {found : Option Lexeme} {l : Lexeme} {b : Bool}
  {r : α × Feed}

/-! ## Reports -/

theorem unexpected_ne_ok {expected : List Expected} (h : unexpected expected found feed = .ok r) :
    False := by
  cases found with
  | some l => cases h
  | none =>
    obtain ⟨s, rest, -, hfail⟩ := bind_eq_ok_iff.1 h
    cases hfail

theorem tooDeep_ne_ok {limit : Nat} (h : tooDeep limit feed = .ok r) : False := by
  obtain ⟨found, rest, -, hrest⟩ := bind_eq_ok_iff.1 h
  cases found with
  | some l => cases hrest
  | none =>
    obtain ⟨s, rest, -, hfail⟩ := bind_eq_ok_iff.1 hrest
    cases hfail

/-! ## Looking ahead -/

theorem atStop_eq_ok (h : Feed.atStop feed = .ok (found, rest)) : found = none ∧ rest = feed := by
  unfold Feed.atStop at h
  split at h
  · cases h
  · cases h; exact ⟨rfl, rfl⟩

theorem peek_eq_ok (h : peek feed = .ok (found, rest)) :
    rest = feed ∧ found = feed.lexemes.head? := by
  rw [peek_feed, Feed.peek] at h
  split at h
  · next l ls hls => cases h; rw [hls]; exact ⟨rfl, rfl⟩
  · next hnil => rw [hnil]; exact (atStop_eq_ok h).symm

theorem peekSecond_eq_ok (h : peekSecond feed = .ok (found, rest)) :
    rest = feed ∧ found = feed.lexemes.tail.head? := by
  rw [peekSecond_feed, Feed.peekSecond] at h
  split at h
  · next l l' ls hls => cases h; rw [hls]; exact ⟨rfl, rfl⟩
  · next hshort =>
    obtain ⟨rfl, rfl⟩ := atStop_eq_ok h
    refine ⟨rfl, ?_⟩
    rcases hls : rest.lexemes with _ | ⟨l, _ | ⟨l', ls⟩⟩
    · rfl
    · rfl
    · exact absurd hls (hshort l l' ls)

theorem nextIs_eq_ok {t : Token} (h : nextIs t feed = .ok (b, rest)) :
    rest = feed ∧ b = feed.lexemes.head?.any fun l => l.token == t := by
  obtain ⟨found, rest', hpeek, hpure⟩ := bind_eq_ok_iff.1 h
  obtain ⟨rfl, rfl⟩ := peek_eq_ok hpeek
  cases hpure
  exact ⟨rfl, rfl⟩

theorem secondIs_eq_ok {t : Token} (h : secondIs t feed = .ok (b, rest)) :
    rest = feed ∧ b = feed.lexemes.tail.head?.any fun l => l.token == t := by
  obtain ⟨found, rest', hpeek, hpure⟩ := bind_eq_ok_iff.1 h
  obtain ⟨rfl, rfl⟩ := peekSecond_eq_ok hpeek
  cases hpure
  exact ⟨rfl, rfl⟩

/-! ## Single lexemes -/

/-- Taking a lexeme leaves those behind it. -/
theorem next_eq_ok (h : next feed = .ok (found, rest)) :
    (found = none ∧ rest = feed ∧ feed.lexemes = []) ∨
      ∃ l, found = some l ∧ feed.lexemes = l :: rest.lexemes ∧ rest.last = l.span := by
  rw [next_feed, Feed.next] at h
  split at h
  · next l ls hls => cases h; exact .inr ⟨l, rfl, hls, rfl⟩
  · next hnil =>
    obtain ⟨hfound, hrest⟩ := atStop_eq_ok h
    exact .inl ⟨hfound, hrest, hnil⟩

theorem next_cons {ls : List Lexeme} (h : feed.lexemes = l :: ls) :
    next feed = .ok (some l, { feed with lexemes := ls, last := l.span }) := by
  rw [next_feed, Feed.next, h]

/-- Two readers in a row of which the first takes a lexeme. -/
theorem next_bind_eq_ok {k : Option Lexeme → Reader α} (h : (next >>= k) feed = .ok r) :
    (feed.lexemes = [] ∧ k none feed = .ok r) ∨
      ∃ l mid, feed.lexemes = l :: mid.lexemes ∧ mid.last = l.span ∧ k (some l) mid = .ok r := by
  obtain ⟨found, mid, hnext, hk⟩ := bind_eq_ok_iff.1 h
  rcases next_eq_ok hnext with ⟨rfl, rfl, hnil⟩ | ⟨l, rfl, hls, hlast⟩
  · exact .inl ⟨hnil, hk⟩
  · exact .inr ⟨l, mid, hls, hlast, hk⟩

theorem eat_eq_ok {t : Token} (h : eat t feed = .ok (found, rest)) :
    (found = none ∧ rest = feed ∧ ∀ l ∈ feed.lexemes.head?, l.token ≠ t) ∨
      ∃ l, found = some l ∧ l.token = t ∧ feed.lexemes = l :: rest.lexemes := by
  obtain ⟨b, mid, hnextIs, hite⟩ := bind_eq_ok_iff.1 h
  obtain ⟨rfl, hb⟩ := nextIs_eq_ok hnextIs
  cases hls : mid.lexemes with
  | nil =>
    rw [hls] at hb
    rw [hb] at hite
    cases hite
    exact .inl ⟨rfl, rfl, fun l hl => by cases hl⟩
  | cons l ls =>
    rw [hls] at hb
    have hb' : b = (l.token == t) := hb
    by_cases ht : l.token = t
    · have htrue : b = true := by rw [hb', beq_iff_eq]; exact ht
      rw [if_pos htrue, next_cons hls] at hite
      cases hite
      exact .inr ⟨l, rfl, ht, rfl⟩
    · have hfalse : ¬ b = true := by rw [hb', beq_iff_eq]; exact ht
      rw [if_neg hfalse] at hite
      cases hite
      refine .inl ⟨rfl, rfl, ?_⟩
      intro l' hl'
      cases hl'
      exact ht

theorem eats_eq_ok {t : Token} (h : eats t feed = .ok (b, rest)) :
    (b = false ∧ rest = feed ∧ ∀ l ∈ feed.lexemes.head?, l.token ≠ t) ∨
      (b = true ∧ ∃ l, l.token = t ∧ feed.lexemes = l :: rest.lexemes) := by
  obtain ⟨found, mid, heat, hpure⟩ := bind_eq_ok_iff.1 h
  cases hpure
  rcases eat_eq_ok heat with ⟨rfl, hmid, hnot⟩ | ⟨l, rfl, ht, hls⟩
  · exact .inl ⟨rfl, hmid, hnot⟩
  · exact .inr ⟨rfl, l, ht, hls⟩

theorem expect_eq_ok {t : Token} (h : expect t feed = .ok (l, rest)) :
    l.token = t ∧ feed.lexemes = l :: rest.lexemes := by
  rcases next_bind_eq_ok h with ⟨-, hnone⟩ | ⟨l', mid, hls, -, hite⟩
  · exact (unexpected_ne_ok hnone).elim
  · dsimp only at hite
    split at hite
    · next ht => cases hite; exact ⟨ht, hls⟩
    · exact (unexpected_ne_ok hite).elim

theorem ident_eq_ok {name : Ident} (h : ident feed = .ok (name, rest)) :
    ∃ l, l.token.isName = true ∧ name = identOf l ∧ feed.lexemes = l :: rest.lexemes := by
  rcases next_bind_eq_ok h with ⟨-, hnone⟩ | ⟨l, mid, hls, -, hite⟩
  · exact (unexpected_ne_ok hnone).elim
  · dsimp only at hite
    split at hite
    · next hname => cases hite; exact ⟨l, hname, rfl, hls⟩
    · exact (unexpected_ne_ok hite).elim

/-! ## Lists in brackets -/

/-- What one round of `seqFrom` does: it finds the closing bracket, or it reads an item and finds the
    closing bracket or a comma after it. -/
theorem seqFrom_cases {close : Token} {item : Reader α} {fuel : Nat} {trailing : Bool} {s : Seq α}
    (h : seqFrom close item fuel trailing feed = .ok (s, rest)) :
    (∃ c, feed.lexemes = c :: rest.lexemes ∧ c.token = close ∧ s = ⟨[], trailing, c.span⟩) ∨
      ∃ x mid c, item feed = .ok (x, mid) ∧
        ((mid.lexemes = c :: rest.lexemes ∧ c.token = close ∧ s = ⟨[x], false, c.span⟩) ∨
          ∃ left after s', fuel = left + 1 ∧ mid.lexemes = c :: after.lexemes ∧ c.token = .comma ∧
            seqFrom close item left true after = .ok (s', rest) ∧
            s = { s' with items := x :: s'.items }) := by
  unfold seqFrom at h
  obtain ⟨found, mid, heat, hfound⟩ := bind_eq_ok_iff.1 h
  rcases eat_eq_ok heat with ⟨rfl, rfl, -⟩ | ⟨c, rfl, hc, hls⟩
  · obtain ⟨x, mid', hx, hnext⟩ := bind_eq_ok_iff.1 hfound
    refine .inr ?_
    rcases next_bind_eq_ok hnext with ⟨-, hnone⟩ | ⟨c, after, hls, -, hthen⟩
    · exact (unexpected_ne_ok hnone).elim
    · refine ⟨x, mid', c, hx, ?_⟩
      dsimp only at hthen
      split at hthen
      · next hc =>
        cases fuel with
        | zero => exact (unexpected_ne_ok hthen).elim
        | succ left =>
          obtain ⟨s', rest', hs', hpure⟩ := bind_eq_ok_iff.1 hthen
          cases hpure
          exact .inr ⟨left, after, s', rfl, hls, hc, hs', rfl⟩
      · split at hthen
        · next hc =>
          cases hthen
          exact .inl ⟨hls, hc, rfl⟩
        · exact (unexpected_ne_ok hthen).elim
  · cases hfound
    exact .inl ⟨c, hls, hc, rfl⟩

end Reader

end Stencil
