/-
  Gives — what holds of everything a reader can give.

  `Gives p P` says that whatever the reader `p` gives, on whatever feed, satisfies `P`.  Nothing is
  asked of the lexemes, and a reader that fails satisfies it.  It passes through sequencing, choice
  and repetition, so for a reader of the grammar it is proved by following the definition.
-/
import Stencil.Proofs.Reader.Take

namespace Stencil

namespace Reader

variable {α β : Type} {P : α → Prop} {Q : β → Prop}

/-- Whatever the reader gives satisfies `P`. -/
def Gives (p : Reader α) (P : α → Prop) : Prop := ∀ feed x rest, p feed = .ok (x, rest) → P x

theorem Gives.pure {a : α} (h : P a) : Gives (Pure.pure a : Reader α) P := by
  intro feed x rest hx
  cases hx
  exact h

/-- Of some readers nothing need be known. -/
theorem Gives.any (p : Reader α) : Gives p fun _ => True := fun _ _ _ _ => trivial

theorem Gives.bind {p : Reader α} {k : α → Reader β} (hp : Gives p P)
    (hk : ∀ a, P a → Gives (k a) Q) : Gives (p >>= k) Q := by
  intro feed x rest hx
  obtain ⟨a, mid, ha, hb⟩ := bind_eq_ok_iff.1 hx
  exact hk a (hp _ _ _ ha) _ _ _ hb

/-- As `Gives.bind`, where it does not matter what the first reader gives. -/
theorem Gives.after {p : Reader α} {k : α → Reader β} (hk : ∀ a, Gives (k a) Q) :
    Gives (p >>= k) Q :=
  (Gives.any p).bind fun a _ => hk a

theorem Gives.map {p : Reader α} {f : α → β} (hp : Gives p P) (hf : ∀ a, P a → Q (f a)) :
    Gives (f <$> p) Q :=
  hp.bind fun a ha => .pure (hf a ha)

theorem Gives.mono {p : Reader α} {P' : α → Prop} (hp : Gives p P) (h : ∀ a, P a → P' a) :
    Gives p P' :=
  fun feed x rest hx => h x (hp feed x rest hx)

theorem Gives.ite {c : Prop} [Decidable c] {p q : Reader α} (hp : Gives p P) (hq : Gives q P) :
    Gives (if c then p else q) P := by
  split
  · exact hp
  · exact hq

theorem unexpected_gives (expected : List Expected) (found : Option Lexeme) :
    Gives (unexpected expected found) P :=
  fun _ _ _ h => (unexpected_ne_ok h).elim

theorem tooDeep_gives (limit : Nat) : Gives (tooDeep limit) P :=
  fun _ _ _ h => (tooDeep_ne_ok h).elim

/-! ## Repetition -/

theorem manyFrom_gives {item : Reader (Option α)} (hitem : Gives item fun x => ∀ a ∈ x, P a)
    (fuel : Nat) : Gives (manyFrom item fuel) fun xs => ∀ a ∈ xs, P a := by
  induction fuel with
  | zero => exact .pure fun a ha => by cases ha
  | succ fuel ih =>
    refine hitem.bind fun found hfound => ?_
    cases found with
    | none => exact .pure fun a ha => by cases ha
    | some x =>
      refine ih.bind fun xs hxs => .pure fun a ha => ?_
      rcases List.mem_cons.1 ha with rfl | hmem
      · exact hfound a rfl
      · exact hxs a hmem

theorem many_gives {item : Reader (Option α)} (hitem : Gives item fun x => ∀ a ∈ x, P a) :
    Gives (many item) fun xs => ∀ a ∈ xs, P a :=
  fun feed => manyFrom_gives hitem (feed.lexemes.length + 1) feed

theorem seqFrom_gives {item : Reader α} (hitem : Gives item P) (close : Token) (fuel : Nat)
    (trailing : Bool) : Gives (seqFrom close item fuel trailing) fun s => ∀ a ∈ s.items, P a := by
  intro feed s rest h
  induction fuel using Nat.strongRecOn generalizing trailing feed s with
  | ind fuel ih =>
    rcases seqFrom_cases h with ⟨c, -, -, rfl⟩ | ⟨x, mid, c, hx, hafter⟩
    · exact fun a ha => by cases ha
    have hfirst : P x := hitem _ _ _ hx
    rcases hafter with ⟨-, -, rfl⟩ | ⟨left, after, s', rfl, -, -, hs', rfl⟩
    · intro a ha
      rw [List.mem_singleton.1 ha]
      exact hfirst
    · intro a ha
      rcases List.mem_cons.1 ha with rfl | hmem
      · exact hfirst
      · exact ih left (Nat.lt_succ_self left) true after s' hs' a hmem

theorem seq_gives {item : Reader α} (hitem : Gives item P) (close : Token) :
    Gives (seq close item) fun s => ∀ a ∈ s.items, P a :=
  fun feed => seqFrom_gives hitem close feed.lexemes.length false feed

end Reader

end Stencil
