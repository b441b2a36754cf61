/-
  Region — cutting a source into nodes.

  A source is read region by region.  A region gives a node, and a diagnostic if something is wrong
  with it.  A tag is read in two steps: its lexemes are collected up to the closing delimiter, then
  they are read as an expression or a statement.  When that fails the tag becomes an error node that
  ends where the tag ends, and reading goes on from there.
-/
import Stencil.Reader.Stmt
import Stencil.Template

namespace Stencil

variable [Letters]

/-- How sources are read. -/
structure Settings where
  delims : Delims
  /-- How many levels expressions and patterns may nest. -/
  limit : Nat

/-- The standard delimiters, and 64 levels of nesting. -/
def Settings.standard : Settings := ⟨Delims.standard, 64⟩

/-- A stretch of the source as it was read. -/
structure Region where
  /-- The node that stands for it; none if the stretch is empty. -/
  node : Option Node
  diagnostic : Option Diagnostic

namespace Region

/-- What stands between the delimiters of a tag. -/
inductive Body where
  | expr (expr : Expr)
  | stmt (stmt : Stmt)

/-- Whether a raw block begins after the tag. -/
def Body.isRaw : Body → Bool
  | expr _ => false
  | stmt s => s.isRaw

/-- The node of a tag. -/
def Body.toNode (trims : Trims) (span : Span) : Body → Node
  | expr e => .expr e trims span
  | stmt s => .tag s trims span

/-- Reads the inside of a tag and its closing delimiter. -/
def body {ε σ : Type} [Supply σ ε] (limit : Nat) (kind : TagKind) : Parser ε σ (Body × Lexeme) := do
  let b ← match kind with
    | .expr => Body.expr <$> Reader.expr limit
    | .block => Body.stmt <$> Reader.stmt limit
  return (b, ← Reader.expect (Token.closes kind))

/-- Reads the tag whose opening delimiter is `opening`, from the place after it on. -/
def readTag (s : Settings) (kind : TagKind) (opening : Lexeme) (lx : Lexer) : Region × Lexer :=
  let (lexemes, stop, after) := lx.feed s.delims
  match body s.limit kind (⟨lexemes, stop, opening.span⟩ : Feed) with
  | .ok ((b, closing), _) =>
    (⟨some (b.toNode ⟨opening.trim, closing.trim⟩ (opening.span.join closing.span)), none⟩,
      if b.isRaw then { after with mode := .raw } else after)
  | .error diagnostic =>
    let skipped := after.skipTag s.delims
    (⟨some (.error ⟨opening.span.start, skipped.pos⟩), some diagnostic⟩, skipped)

/-- The region of a lexeme outside a tag. -/
def ofLexeme (d : Delims) (l : Lexeme) : Region :=
  match l.token with
  | .content => ⟨some (.content (String.ofList l.text) l.span), none⟩
  | .comment => ⟨some (.comment (d.commentTrims l.text true) l.span), none⟩
  | .rawText => ⟨some (.raw (String.ofList l.text) l.span), none⟩
  | _ => ⟨none, none⟩

/-- The region of a comment or raw block that goes on to the end of the source.  An empty raw block
    has no node. -/
def ofFault (d : Delims) (lx next : Lexer) (diagnostic : Diagnostic) : Region :=
  let span : Span := ⟨lx.pos, next.pos⟩
  let node : Node :=
    match diagnostic.fault with
    | .unclosedComment => .comment (d.commentTrims lx.rest false) span
    | .unclosedRaw => .raw (String.ofList lx.rest) span
    | _ => .error span
  ⟨if span.isEmpty then none else some node, some diagnostic⟩

theorem length_readTag_le (s : Settings) (kind : TagKind) (opening : Lexeme) (lx : Lexer) :
    (readTag s kind opening lx).2.rest.length ≤ lx.rest.length := by
  have hfeed := Lexer.length_feed_le s.delims lx
  unfold readTag
  split
  next lexemes stop after heq =>
    simp only [heq] at hfeed
    split
    · dsimp only
      split <;> exact hfeed
    · exact Nat.le_trans (Lexer.length_skipTag_le s.delims after) hfeed

/-- At a place inside or after a tag there is less to do than before its opening delimiter. -/
theorem weight_lt_of_opening {d : Delims} {lx next after : Lexer} {kind : TagKind} {l : Lexeme}
    (h : lx.step d = .token l next) (hl : l.token.opens? = some kind)
    (hle : after.rest.length ≤ next.rest.length) : after.weight < lx.weight := by
  rcases Lexer.step_token_length h with hlt | ⟨hraw, _⟩
  · have := after.mode.pending_le_one
    unfold Lexer.weight
    omega
  · simp [hraw, Token.opens?] at hl

/-- Reading a tag leaves less to do than before its opening delimiter. -/
theorem weight_readTag_lt {s : Settings} {kind : TagKind} {lx next : Lexer} {l : Lexeme}
    (h : lx.step s.delims = .token l next) (hl : l.token.opens? = some kind) :
    (readTag s kind l next).2.weight < lx.weight :=
  weight_lt_of_opening h hl (length_readTag_le s kind l next)

end Region

/-- The regions of the source from a place on. -/
def regions (s : Settings) (lx : Lexer) : List Region :=
  match _h : lx.step s.delims with
  | .done => []
  | .fault diagnostic next => Region.ofFault s.delims lx next diagnostic :: regions s next
  | .token l next =>
    match _hl : l.token.opens? with
    | some kind =>
      let r := Region.readTag s kind l next
      r.1 :: regions s r.2
    | none => Region.ofLexeme s.delims l :: regions s next
termination_by lx.weight
decreasing_by
  · exact Lexer.step_fault_weight _h
  · exact Region.weight_readTag_lt _h _hl
  · exact Lexer.step_token_weight _h

end Stencil
