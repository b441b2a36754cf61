/-
  Diagnostic — a fault and the place it was found at.
-/
import Stencil.Fault
import Stencil.Span

namespace Stencil

/-- A fault with the region of the source it is about. -/
structure Diagnostic where
  fault : Fault
  span : Span
  deriving DecidableEq

namespace Diagnostic

/-- The wording of the fault, without its place. -/
def message (d : Diagnostic) : String := d.fault.message

/-- The class of the fault. -/
def kind (d : Diagnostic) : FaultKind := d.fault.kind

/-- Two diagnostics say the same when class, wording and place agree. -/
def agrees (a b : Diagnostic) : Bool :=
  a.kind == b.kind && a.message == b.message && a.span == b.span

/-- Whether two lists say the same in the same order. -/
def agreeing : List Diagnostic → List Diagnostic → Bool
  | [], [] => true
  | a :: as, b :: bs => a.agrees b && agreeing as bs
  | _, _ => false

/-- The same diagnostic for a source with `k` more bytes in front. -/
def shift (k : Nat) (d : Diagnostic) : Diagnostic := { d with span := d.span.shift k }

/-- The wording and the place on one line. -/
def plain (d : Diagnostic) : String :=
  d.message ++ " between bytes " ++ d.span.start.repr ++ " and " ++ d.span.stop.repr

end Diagnostic

end Stencil
