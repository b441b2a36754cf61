/-
  Yields — what holds of everything a reader can give on the lexemes of a tag.

  The lexemes of a tag are orderly, and so is what a reader leaves of them.  `Yields p P` says that on
  orderly lexemes whatever `p` gives satisfies `P`; unlike `Gives` it can speak of how names and
  constants are written.  It passes through sequencing, choice and repetition, and every reader that is
  known to take lexemes from the front (`Takes`) has it.
-/
import Stencil.Proofs.Expr.Soundness
import Stencil.Reader.Stmt

namespace Stencil

namespace Reader

variable [Letters] {α β : Type} {P : α → Prop} {Q : β → Prop}

/-- On orderly lexemes, whatever the reader gives satisfies `P`, and orderly lexemes are left. -/
def Yields (p : Reader α) (P : α → Prop) : Prop :=
  ∀ feed x rest, Orderly feed.lexemes → p feed = .ok (x, rest) → P x ∧ Orderly rest.lexemes

namespace Yields

theorem pure {a : α} (h : P a) : Yields (Pure.pure a : Reader α) P := by
  intro feed x rest hord hx
  cases hx
  exact ⟨h, hord⟩

theorem bind {p : Reader α} {k : α → Reader β} (hp : Yields p P)
    (hk : ∀ a, P a → Yields (k a) Q) : Yields (p >>= k) Q := by
  intro feed x rest hord hx
  obtain ⟨a, mid, ha, hb⟩ := bind_eq_ok_iff.1 hx
  obtain ⟨hpa, hmid⟩ := hp _ _ _ hord ha
  exact hk a hpa _ _ _ hmid hb

theorem map {p : Reader α} {f : α → β} (hp : Yields p P) (hf : ∀ a, P a → Q (f a)) :
    Yields (f <$> p) Q :=
  hp.bind fun a ha => .pure (hf a ha)

theorem ite {c : Prop} [Decidable c] {p q : Reader α} (hp : c → Yields p P)
    (hq : ¬ c → Yields q P) : Yields (if c then p else q) P := by
  split
  · next hc => exact hp hc
  · next hc => exact hq hc

theorem of_takes {p : Reader α} {R : α → List Lexeme → Prop} (hp : Takes p R)
    (h : ∀ x ls, R x ls → P x) : Yields p P := by
  intro feed x rest hord hx
  obtain ⟨used, hls, hr⟩ := hp _ _ _ hord hx
  rw [hls] at hord
  exact ⟨h x used hr, hord.right⟩

end Yields

theorem unexpected_yields (expected : List Expected) (found : Option Lexeme) :
    Yields (unexpected expected found) P :=
  fun _ _ _ _ h => (unexpected_ne_ok h).elim

theorem tooDeep_yields (limit : Nat) : Yields (tooDeep limit) P :=
  fun _ _ _ _ h => (tooDeep_ne_ok h).elim

/-! ## Single lexemes -/

/-- What is known of a lexeme that has been found: it is an orderly one. -/
def IsOrderly (found : Option Lexeme) : Prop := ∀ l ∈ found, Orderly [l]

theorem peek_yields : Yields peek IsOrderly := by
  intro feed found rest hord h
  obtain ⟨rfl, rfl⟩ := peek_eq_ok h
  refine ⟨fun l hl => ?_, hord⟩
  obtain ⟨ls, hls⟩ := List.head?_eq_some_iff.1 hl
  rw [hls] at hord
  exact hord.left (a := [l])

theorem next_yields : Yields next IsOrderly := by
  intro feed found rest hord h
  rcases next_eq_ok h with ⟨rfl, rfl, -⟩ | ⟨l, rfl, hls, -⟩
  · exact ⟨nofun, hord⟩
  · rw [hls] at hord
    refine ⟨fun l' hl' => ?_, hord.tail⟩
    cases hl'
    exact hord.left (a := [l])

theorem eat_yields (token : Token) : Yields (eat token) fun _ => True := by
  intro feed found rest hord h
  rcases eat_eq_ok h with ⟨rfl, rfl, -⟩ | ⟨l, rfl, -, hls⟩
  · exact ⟨trivial, hord⟩
  · rw [hls] at hord
    exact ⟨trivial, hord.tail⟩

theorem eats_yields (token : Token) : Yields (eats token) fun _ => True :=
  (eat_yields token).bind fun _ _ => .pure trivial

theorem expect_yields (token : Token) : Yields (expect token) fun _ => True := by
  intro feed l rest hord h
  obtain ⟨-, hls⟩ := expect_eq_ok h
  rw [hls] at hord
  exact ⟨trivial, hord.tail⟩

theorem last_yields : Yields last fun _ => True := by
  intro feed s rest hord h
  cases h
  exact ⟨trivial, hord⟩

/-! ## Repetition -/

theorem many_yields {item : Reader (Option α)} (hitem : Yields item fun x => ∀ a ∈ x, P a) :
    Yields (many item) fun xs => ∀ a ∈ xs, P a := by
  have hfrom : ∀ fuel, Yields (manyFrom item fuel) fun xs => ∀ a ∈ xs, P a := by
    intro fuel
    induction fuel with
    | zero => exact .pure nofun
    | succ fuel ih =>
      refine hitem.bind fun found hfound => ?_
      cases found with
      | none => exact .pure nofun
      | some x =>
        exact ih.bind fun xs hxs => .pure (List.forall_mem_cons.2 ⟨hfound x rfl, hxs⟩)
  exact fun feed => hfrom _ feed

theorem seq_yields {item : Reader α} (hitem : Yields item P) (close : Token) :
    Yields (seq close item) fun s => ∀ a ∈ s.items, P a := by
  have hfrom : ∀ fuel trailing, Yields (seqFrom close item fuel trailing)
      fun s => ∀ a ∈ s.items, P a := by
    intro fuel trailing feed s rest hord h
    induction fuel using Nat.strongRecOn generalizing trailing feed s with
    | ind fuel ih =>
      rcases seqFrom_cases h with ⟨c, hls, -, rfl⟩ | ⟨x, mid, c, hx, hafter⟩
      · rw [hls] at hord
        exact ⟨nofun, hord.tail⟩
      obtain ⟨hfirst, hmid⟩ := hitem _ _ _ hord hx
      rcases hafter with ⟨hls, -, rfl⟩ | ⟨left, after, s', rfl, hls, -, hs', rfl⟩
      · rw [hls] at hmid
        exact ⟨List.forall_mem_singleton.2 hfirst, hmid.tail⟩
      · rw [hls] at hmid
        obtain ⟨hmore, hrest⟩ := ih left (Nat.lt_succ_self left) true after s' hmid.tail hs'
        exact ⟨List.forall_mem_cons.2 ⟨hfirst, hmore⟩, hrest⟩
  exact fun feed => hfrom _ false feed

/-! ## Names and constants -/

theorem ident_yields : Yields ident fun i => isName i.name = true :=
  .of_takes ident_takes fun _ _ ⟨_, _, _, hname⟩ => hname

theorem ident?_yields : Yields ident? fun x => ∀ i ∈ x, isName i.name = true := by
  refine peek_yields.bind fun found _ => .ite (fun _ => ?_) fun _ => .pure nofun
  refine ident_yields.map fun i hi j hj => ?_
  cases hj
  exact hi

theorem textOf_yields (l : Lexeme) : Yields (textOf l) fun _ => True := by
  rw [textOf_feed, Feed.textOf]
  split
  · exact .pure trivial
  · exact fun _ _ _ _ h => by cases h

theorem charOf_yields (l : Lexeme) : Yields (Feed.charOf l) fun _ => True := by
  unfold Feed.charOf
  split
  · exact .pure trivial
  · exact fun _ _ _ _ h => by cases h

/-- Numbers are read as they are written. -/
theorem literalOf_yields {l : Lexeme} (hl : Orderly [l]) (negative : Bool) :
    Yields (literalOf l negative) fun v => ∀ n, v = .num n → n.IsWritten := by
  rw [literalOf_feed, Feed.literalOf]
  split
  · exact (textOf_yields l).map fun _ _ _ h => by cases h
  · exact (charOf_yields l).map fun _ _ _ h => by cases h
  · next ht =>
    have hspells := hl.spells List.mem_cons_self (by rw [ht]; rfl)
    rw [ht] at hspells
    split
    · next n hn =>
      refine .pure fun m hm => ?_
      cases hm
      exact isWritten_of_number? hspells hn
    · exact fun _ _ _ _ h => by cases h
  · exact .pure fun _ h => by cases h
  · exact .pure fun _ h => by cases h
  · exact unexpected_yields _ _

theorem textLit_yields : Yields textLit fun _ => True := by
  refine next_yields.bind fun found _ => ?_
  cases found with
  | none => exact unexpected_yields _ _
  | some l =>
    exact .ite (fun _ => (textOf_yields l).bind fun _ _ => .pure trivial)
      fun _ => unexpected_yields _ _

end Reader

end Stencil
