/-
  Balance — whether the control tags of a template fit together.

  A template is a flat row of tags.  This module walks the row with a stack of the tags that are
  still open, the innermost first, and reports what does not fit:
    * a tag that the innermost open tag does not allow, which is then ignored;
    * an end tag that names another tag than the one it closes, which still closes it;
    * a loop statement that no loop encloses;
    * at the end, the tags still open, the outermost first.
  An arm of a match is closed by the next arm or by the end of the match.
-/
import Stencil.Diagnostic
import Stencil.Template

namespace Stencil

/-- A tag that is still open. -/
structure OpenTag where
  kind : Opener
  span : Span
  name : Option String
  /-- Whether the `else` of the tag has been met. -/
  hasElse : Bool
  deriving DecidableEq

namespace Balance

/-- The tags that are open, the innermost first. -/
abbrev Stack := List OpenTag

/-- What a tag does: the stack after it, and what is wrong with it. -/
abbrev Outcome := Stack × Option Diagnostic

/-- The kind of the innermost open tag. -/
def top? (stack : Stack) : Option Opener := stack.head?.map (·.kind)

/-- Opens a tag. -/
def opening (stack : Stack) (kind : Opener) (span : Span) (name : Option String) : Outcome :=
  (⟨kind, span, name, false⟩ :: stack, none)

/-- Reports a tag that does not belong here. -/
def misplaced (stack : Stack) (tag : String) (span : Span) : Outcome :=
  (stack, some ⟨.unbalanced (.misplaced tag), span⟩)

/-- The complaint about an end tag that names another tag than the one it closes. -/
def misnamed? (kind : Opener) (expected found : Option String) (span : Span) : Option Diagnostic :=
  match expected, found with
  | some e, some f => if e = f then none else some ⟨.unbalanced (.misnamed kind e f), span⟩
  | _, _ => none

/-- Closes the innermost open tag, which must be of the given kind. -/
def closing (stack : Stack) (kind : Opener) (span : Span) (name : Option String) : Outcome :=
  match stack with
  | tag :: rest =>
    if tag.kind = kind then (rest, misnamed? kind tag.name name span)
    else misplaced stack kind.endText span
  | [] => misplaced stack kind.endText span

/-- The stack after the arm on top of it, if there is one, has ended. -/
def endArm (stack : Stack) : Stack :=
  match stack with
  | tag :: rest => if tag.kind = .whenArm then rest else stack
  | [] => stack

/-- A further condition of a branch. -/
def elseIf (stack : Stack) (span : Span) : Outcome :=
  match stack with
  | tag :: _ =>
    if tag.kind = .ifCond ∧ tag.hasElse = false then (stack, none)
    else misplaced stack "else if" span
  | [] => misplaced stack "else if" span

/-- The last part of a branch or loop. -/
def elsePart (stack : Stack) (span : Span) : Outcome :=
  match stack with
  | tag :: rest =>
    if (tag.kind = .ifCond ∨ tag.kind = .forLoop) ∧ tag.hasElse = false then
      ({ tag with hasElse := true } :: rest, none)
    else misplaced stack "else" span
  | [] => misplaced stack "else" span

/-- An arm of a match. -/
def arm (stack : Stack) (span : Span) : Outcome :=
  let stack := endArm stack
  if top? stack = some .matchOn then opening stack .whenArm span none
  else misplaced stack "when" span

/-- A statement that only makes sense in a loop. -/
def inLoop (stack : Stack) (word : String) (span : Span) : Outcome :=
  if stack.any fun o => o.kind = .forLoop then (stack, none)
  else (stack, some ⟨.unbalanced (.outsideLoop word), span⟩)

/-- What a statement does to the open tags. -/
def visit (stack : Stack) (stmt : StmtKind) (span : Span) : Outcome :=
  match stmt with
  | .block name => opening stack .block span (some name.name)
  | .endBlock name => closing stack .block span (name.map (·.name))
  | .forLoop .. => opening stack .forLoop span none
  | .endFor => closing stack .forLoop span none
  | .ifCond _ => opening stack .ifCond span none
  | .elseIf _ => elseIf stack span
  | .elseCond => elsePart stack span
  | .endIf => closing stack .ifCond span none
  | .matchOn _ => opening stack .matchOn span none
  | .whenArm _ => arm stack span
  | .endWhen => closing stack .whenArm span none
  | .endMatch => closing (endArm stack) .matchOn span none
  | .macroDef name _ => opening stack .macroDef span (some name.name)
  | .endMacro name => closing stack .macroDef span (name.map (·.name))
  | .callBlock .. => opening stack .callBlock span none
  | .endCall => closing stack .callBlock span none
  | .filterBlock _ => opening stack .filterBlock span none
  | .endFilter => closing stack .filterBlock span none
  | .raw => opening stack .raw span none
  | .endRaw => closing stack .raw span none
  | .breakLoop => inLoop stack "break" span
  | .continueLoop => inLoop stack "continue" span
  | .extendFrom _ | .includeFrom _ | .importAs .. | .assign .. => (stack, none)

/-- The complaints about the tags that are still open, the outermost first. -/
def finish (stack : Stack) : List Diagnostic :=
  stack.reverse.map fun o => ⟨.unbalanced (.unclosed o.kind), o.span⟩

/-- What is wrong with a row of statements, given the tags that are open before it. -/
def check (stack : Stack) : List (StmtKind × Span) → List Diagnostic
  | [] => finish stack
  | (stmt, span) :: rest =>
    let (stack', problem) := visit stack stmt span
    problem.toList ++ check stack' rest

end Balance

/-- What is wrong with the nesting of the control tags. -/
def Template.validate (t : Template) : List Diagnostic :=
  Balance.check [] (t.tags.map fun (_, stmt, span) => (stmt.kind, span))

end Stencil
