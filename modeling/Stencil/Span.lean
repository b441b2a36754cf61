/-
  Spans — byte ranges of a source text.

  Every part of a parsed template remembers where it stood.  A span counts bytes of the UTF-8 form
  of the source, from `start` (inclusive) to `stop` (exclusive).  Nothing forces `start ≤ stop`: a
  span is a value that callers may build freely, so `length?` answers only when it makes sense.
-/

namespace Stencil

/-- A region of the source: the bytes from `start` up to, but not including, `stop`. -/
structure Span where
  start : Nat
  stop : Nat
  deriving DecidableEq

namespace Span

/-- The empty region at offset `p`. -/
def point (p : Nat) : Span := ⟨p, p⟩

/-- The smallest region that covers both. -/
def join (a b : Span) : Span := ⟨min a.start b.start, max a.stop b.stop⟩

/-- The number of bytes covered; a region that ends before it starts has none. -/
def length? (s : Span) : Option Nat := if s.start ≤ s.stop then some (s.stop - s.start) else none

/-- Whether the two ends coincide. -/
def isEmpty (s : Span) : Bool := s.start == s.stop

/-- The same region of a text with `k` more bytes in front. -/
def shift (k : Nat) (s : Span) : Span := ⟨s.start + k, s.stop + k⟩

@[simp] theorem join_start (a b : Span) : (a.join b).start = min a.start b.start := rfl
@[simp] theorem join_stop (a b : Span) : (a.join b).stop = max a.stop b.stop := rfl
@[simp] theorem shift_start (k : Nat) (s : Span) : (s.shift k).start = s.start + k := rfl
@[simp] theorem shift_stop (k : Nat) (s : Span) : (s.shift k).stop = s.stop + k := rfl

theorem join_self (a : Span) : a.join a = a := by
  simp [join]

end Span

end Stencil
