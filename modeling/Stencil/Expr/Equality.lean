/-
  Equality — comparing expressions.

  Two expressions are the same when they have the same shape, the same leaves and the same places.
  The comparison follows both trees at once.
-/
import Stencil.Expr

namespace Stencil

mutual

/-- Whether two expressions are the same, places included. -/
def Expr.same : Expr → Expr → Bool
  | .lit v s, .lit w t => v == w && s == t
  | .var n s, .var m t => n == m && s == t
  | .path p s, .path q t => p == q && s == t
  | .binary o a b s, .binary o' a' b' t => o == o' && a.same a' && b.same b' && s == t
  | .unary o a s, .unary o' a' t => o == o' && a.same a' && s == t
  | .ref a s, .ref a' t => a.same a' && s == t
  | .attempt a s, .attempt a' t => a.same a' && s == t
  | .call f xs s, .call f' xs' t => f.same f' && xs.same xs' && s == t
  | .field a k s, .field a' k' t => a.same a' && k == k' && s == t
  | .index a i s, .index a' i' t => a.same a' && i.same i' && s == t
  | .range a b i s, .range a' b' i' t =>
    Expr.sameOption a a' && Expr.sameOption b b' && i == i' && s == t
  | .array es s, .array es' t => Expr.sameList es es' && s == t
  | .tuple es s, .tuple es' t => Expr.sameList es es' && s == t
  | .unit s, .unit t => s == t
  | .group a s, .group a' t => a.same a' && s == t
  | .filter a fs s, .filter a' fs' t => a.same a' && Filter.sameList fs fs' && s == t
  | .isDefined a n s, .isDefined a' n' t => a.same a' && n == n' && s == t
  | .macroCall p xs s, .macroCall p' xs' t => p == p' && xs.same xs' && s == t
  | _, _ => false

/-- Whether both are missing or both are the same expression. -/
def Expr.sameOption : Option Expr → Option Expr → Bool
  | none, none => true
  | some a, some b => a.same b
  | _, _ => false

/-- Whether two lists hold the same expressions in the same order. -/
def Expr.sameList : List Expr → List Expr → Bool
  | [], [] => true
  | a :: as, b :: bs => a.same b && Expr.sameList as bs
  | _, _ => false

/-- Whether two argument lists are the same. -/
def Args.same : Args → Args → Bool
  | .mk xs s, .mk ys t => Arg.sameList xs ys && s == t

/-- Whether two lists hold the same arguments in the same order. -/
def Arg.sameList : List Arg → List Arg → Bool
  | [], [] => true
  | a :: as, b :: bs => a.same b && Arg.sameList as bs
  | _, _ => false

/-- Whether two arguments are the same. -/
def Arg.same : Arg → Arg → Bool
  | .positional a, .positional b => a.same b
  | .named n a, .named m b => n == m && a.same b
  | _, _ => false

/-- Whether two filters are the same. -/
def Filter.same : Filter → Filter → Bool
  | .mk n xs s, .mk m ys t => n == m && Args.sameOption xs ys && s == t

/-- Whether both are missing or both are the same argument list. -/
def Args.sameOption : Option Args → Option Args → Bool
  | none, none => true
  | some a, some b => a.same b
  | _, _ => false

/-- Whether two lists hold the same filters in the same order. -/
def Filter.sameList : List Filter → List Filter → Bool
  | [], [] => true
  | a :: as, b :: bs => a.same b && Filter.sameList as bs
  | _, _ => false

end

end Stencil
