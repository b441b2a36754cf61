/-
  Stmt — reading the statement of a control tag.

  A statement begins with a keyword, which settles what else belongs to it.  Its place runs from
  that keyword to the last lexeme read.
-/
import Stencil.Reader.Expr
import Stencil.Reader.Pattern
import Stencil.Stmt

namespace Stencil

namespace Reader

variable {ε σ : Type} [Supply σ ε]

/-- Reads `item` if a `token` stands before it. -/
def after? {α : Type} (token : Token) (item : Parser ε σ α) : Parser ε σ (Option α) := do
  if ← eats token then some <$> item else return none

/-- Reads the condition of a branch. -/
def cond (limit : Nat) : Parser ε σ Cond := do
  if ← eats (.keyword .letKw) then
    let p ← pattern limit
    let _ ← expect .eq
    return .bind p (← expr limit)
  else return .expr (← expr limit)

/-- Reads the other branch of a condition after its word. -/
def elseBranch (limit : Nat) : Parser ε σ StmtKind := do
  match ← after? (.keyword .ifKw) (cond limit) with
  | some c => return .elseIf c
  | none => return .elseCond

/-- Reads a parameter of a macro. -/
def param (limit : Nat) : Parser ε σ Param := do
  let name ← ident
  return ⟨name, ← after? .eq (expr limit)⟩

/-- Reads an assignment after its word. -/
def assign (limit : Nat) (word : LetWord) : Parser ε σ StmtKind := do
  let mutable ← eats (.keyword .mutKw)
  let p ← pattern limit
  return .assign word mutable p (← after? .eq (expr limit))

/-- Reads a loop after its word. -/
def forLoop (limit : Nat) : Parser ε σ StmtKind := do
  let p ← pattern limit
  let _ ← expect (.keyword .inKw)
  let iterable ← expr limit
  return .forLoop p iterable (← after? (.keyword .ifKw) (expr limit))

/-- Reads an import after its word. -/
def importAs : Parser ε σ StmtKind := do
  let path ← textLit
  let _ ← expect (.keyword .asKw)
  return .importAs path (← ident)

/-- Reads a macro definition after its word. -/
def macroDef (limit : Nat) : Parser ε σ StmtKind := do
  let name ← ident
  let _ ← expect .lparen
  return .macroDef name (← seq .rparen (param limit)).items

/-- Reads a call block after its word; what is called must be a call. -/
def callBlock (limit : Nat) : Parser ε σ StmtKind := do
  let bindings ← after? .lparen (seq .rparen ident)
  let call ← expr limit
  if call.isCall then return .callBlock (bindings.elim [] (·.items)) call
  else unexpected [.token .lparen] (← peek)

/-- Reads the filters of a filter block. -/
def filterBlock (limit : Nat) : Parser ε σ StmtKind := do
  let first ← filter (expr limit)
  return .filterBlock (first :: (← many (filter? (expr limit))))

/-- Reads what belongs to the statement that the keyword begins; `none` if no statement begins with
    it. -/
def stmtKind? (limit : Nat) : Keyword → Option (Parser ε σ StmtKind)
  | .blockKw => some (.block <$> ident)
  | .endBlock => some (.endBlock <$> ident?)
  | .extendsKw => some (.extendFrom <$> textLit)
  | .includeKw => some (.includeFrom <$> textLit)
  | .importKw => some importAs
  | .letKw => some (assign limit .letWord)
  | .setKw => some (assign limit .setWord)
  | .forKw => some (forLoop limit)
  | .endFor => some (pure .endFor)
  | .breakKw => some (pure .breakLoop)
  | .continueKw => some (pure .continueLoop)
  | .ifKw => some (.ifCond <$> cond limit)
  | .elseKw => some (elseBranch limit)
  | .elif => some (.elseIf <$> cond limit)
  | .endIf => some (pure .endIf)
  | .matchKw => some (.matchOn <$> expr limit)
  | .endMatch => some (pure .endMatch)
  | .whenKw => some (.whenArm <$> armPattern limit)
  | .endWhen => some (pure .endWhen)
  | .macroKw => some (macroDef limit)
  | .endMacro => some (.endMacro <$> ident?)
  | .callKw => some (callBlock limit)
  | .endCall => some (pure .endCall)
  | .filterKw => some (filterBlock limit)
  | .endFilter => some (pure .endFilter)
  | .rawKw => some (pure .raw)
  | .endRaw => some (pure .endRaw)
  | _ => none

/-- Reads a statement. -/
def stmt (limit : Nat) : Parser ε σ Stmt := do
  let found ← next
  match found with
  | none => unexpected [.statement] found
  | some l =>
    match l.token with
    | .keyword k =>
      match stmtKind? limit k with
      | none => unexpected [.statement] found
      | some body =>
        let kind ← body
        return ⟨kind, l.span.join (← last)⟩
    | _ => unexpected [.statement] found

end Reader

end Stencil
