/-
  Equality — comparing patterns, places included.
-/
import Stencil.Pattern

namespace Stencil

mutual

/-- Whether two patterns are the same, places included. -/
def Pattern.same : Pattern → Pattern → Bool
  | .lit v s, .lit w t => v == w && s == t
  | .ident n s, .ident m t => n == m && s == t
  | .path p s, .path q t => p == q && s == t
  | .placeholder s, .placeholder t => s == t
  | .rest s, .rest t => s == t
  | .tupleStruct p ps s, .tupleStruct q qs t => p == q && Pattern.sameList ps qs && s == t
  | .struct p fs s, .struct q gs t => p == q && FieldPattern.sameList fs gs && s == t
  | .tuple ps s, .tuple qs t => Pattern.sameList ps qs && s == t
  | .slice ps s, .slice qs t => Pattern.sameList ps qs && s == t
  | .alternatives ps s, .alternatives qs t => Pattern.sameList ps qs && s == t
  | .destructured p ps s, .destructured q qs t => p.same q && Pattern.sameList ps qs && s == t
  | _, _ => false

/-- Whether two lists hold the same patterns in the same order. -/
def Pattern.sameList : List Pattern → List Pattern → Bool
  | [], [] => true
  | p :: ps, q :: qs => p.same q && Pattern.sameList ps qs
  | _, _ => false

/-- Whether both are missing or both are the same pattern. -/
def Pattern.sameOption : Option Pattern → Option Pattern → Bool
  | none, none => true
  | some p, some q => p.same q
  | _, _ => false

/-- Whether two field patterns are the same. -/
def FieldPattern.same : FieldPattern → FieldPattern → Bool
  | .field n p, .field m q => n == m && Pattern.sameOption p q
  | .rest s, .rest t => s == t
  | _, _ => false

/-- Whether two lists hold the same field patterns in the same order. -/
def FieldPattern.sameList : List FieldPattern → List FieldPattern → Bool
  | [], [] => true
  | f :: fs, g :: gs => f.same g && FieldPattern.sameList fs gs
  | _, _ => false

end

end Stencil
