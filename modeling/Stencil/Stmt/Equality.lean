/-
  Equality — comparing statements, places included.
-/
import Stencil.Expr.Equality
import Stencil.Pattern.Equality
import Stencil.Stmt

namespace Stencil

/-- Whether two conditions are the same. -/
def Cond.same : Cond → Cond → Bool
  | .expr a, .expr b => a.same b
  | .bind p a, .bind q b => p.same q && a.same b
  | _, _ => false

/-- Whether two parameters are the same. -/
def Param.same (a b : Param) : Bool := a.name == b.name && Expr.sameOption a.default b.default

/-- Whether two lists hold the same parameters in the same order. -/
def Param.sameList : List Param → List Param → Bool
  | [], [] => true
  | a :: as, b :: bs => a.same b && sameList as bs
  | _, _ => false

/-- Whether two statements say the same. -/
def StmtKind.same : StmtKind → StmtKind → Bool
  | block n, block m => n == m
  | endBlock n, endBlock m => n == m
  | extendFrom p, extendFrom q => p == q
  | includeFrom p, includeFrom q => p == q
  | importAs p a, importAs q b => p == q && a == b
  | assign w m p v, assign w' m' p' v' =>
    w == w' && m == m' && p.same p' && Expr.sameOption v v'
  | forLoop p i c, forLoop p' i' c' => p.same p' && i.same i' && Expr.sameOption c c'
  | endFor, endFor => true
  | breakLoop, breakLoop => true
  | continueLoop, continueLoop => true
  | ifCond c, ifCond c' => c.same c'
  | elseIf c, elseIf c' => c.same c'
  | elseCond, elseCond => true
  | endIf, endIf => true
  | matchOn e, matchOn e' => e.same e'
  | endMatch, endMatch => true
  | whenArm p, whenArm p' => p.same p'
  | endWhen, endWhen => true
  | macroDef n ps, macroDef m qs => n == m && Param.sameList ps qs
  | endMacro n, endMacro m => n == m
  | callBlock bs e, callBlock bs' e' => bs == bs' && e.same e'
  | endCall, endCall => true
  | filterBlock fs, filterBlock gs => Filter.sameList fs gs
  | endFilter, endFilter => true
  | raw, raw => true
  | endRaw, endRaw => true
  | _, _ => false

/-- Whether two statements are the same, places included. -/
def Stmt.same (a b : Stmt) : Bool := a.kind.same b.kind && a.span == b.span

end Stencil
