/-
  Machine — the state of the program that reads a source.

  A feed holds all lexemes of a tag before the first one is read.  The program has a lexer that stands
  somewhere in the source and is asked for a lexeme when one is needed; what has been looked at and not been
  taken waits in a queue.  Whether the closing delimiter of the tag has been taken, how deep the nesting is and
  which diagnostics there are is part of the state as well.

  The grammar is the one of `Stencil.Reader`; a machine supplies it with lexemes, and with texts and constants
  that it cuts out of the source by the places of the lexemes.  Looking two lexemes ahead is meant for places
  where the next one does not close the tag: behind the closing delimiter the lexer would go on with what comes
  after the tag.

  When the grammar fails, the machine is left as it is at that moment, and `recover` finds the end of the tag
  from there: the closing delimiter may have been taken, it may wait in the queue, or the lexer has not come to
  it.  A cut that goes wrong and what must not occur leave no state (`Halt.stuck`).
-/
import Stencil.Parse
import Stencil.Proofs.Checked.Trims

namespace Stencil.Checked

open Reader (unexpected tooDeep quotedBody decimalValue indexBound)

variable [Letters]

/-- More than the number of steps that can be made in the source. -/
def enough (source : List Char) : Nat := 2 * byteLen source + 2

/-! ## Literals -/

/-- The text between the quotes of a literal. -/
def quotedBody? (raw : List Char) : Option (List Char) := do
  slice? ⟨1, ← sub? (byteLen raw) 1⟩ raw

/-- The value of a text literal. -/
def textOf? (source : List Char) (l : Lexeme) : Option (Except Diagnostic String) := do
  let raw ← slice? l.span source
  match ← unescape? false (← quotedBody? raw) with
  | .ok value => return .ok (String.ofList value)
  | .error range => return .error ⟨.lex .badEscape, range.shift (l.span.start + 1)⟩

/-- The value of a character literal. -/
def charOf? (source : List Char) (l : Lexeme) : Option (Except Diagnostic Char) := do
  let raw ← slice? l.span source
  match ← unescape? true (← quotedBody? raw) with
  | .ok (c :: _) => return .ok c
  | _ => return .error ⟨.lex .badEscape, l.span⟩

/-- The value of a number. -/
def numberOf? (source : List Char) (l : Lexeme) (negative : Bool) :
    Option (Except Diagnostic Number) := do
  let raw ← slice? l.span source
  match ← number? raw negative with
  | some n => return .ok n
  | none => return .error ⟨.lex .badNumber, l.span⟩

/-- The constant that a lexeme spells. -/
def literalOf? (source : List Char) (l : Lexeme) (negative : Bool) :
    Option (Except Diagnostic Literal) :=
  match l.token with
  | .str => (textOf? source l).map (·.map .str)
  | .char => (charOf? source l).map (·.map .char)
  | .number => (numberOf? source l negative).map (·.map .num)
  | .keyword .trueKw => some (.ok (.bool true))
  | .keyword .falseKw => some (.ok (.bool false))
  | t => some (.error ⟨.unexpected [.literal] (some t), l.span⟩)

/-- The value of a number as the index of a tuple. -/
def indexOf? (source : List Char) (l : Lexeme) : Option (Except Diagnostic Nat) := do
  let raw ← slice? l.span source
  let value := decimalValue raw
  if raw.all (·.isDigit) && decide (value < indexBound) then return .ok value
  else return .error ⟨.indexTooLarge, l.span⟩

/-- A call that decodes what the lexer has taken as a literal, and what it gave. -/
inductive Decoding where
  /-- The constant that a lexeme spells, after a minus sign if `negative` says so. -/
  | constant (l : Lexeme) (negative : Bool) (result : Except Diagnostic Literal)
  /-- The value of a text literal that stands as an operand. -/
  | text (l : Lexeme) (result : Except Diagnostic String)
  /-- The index that a number is as the member of a tuple. -/
  | index (l : Lexeme) (result : Except Diagnostic Nat)

/-! ## States -/

/-- What the program remembers while it reads a source. -/
structure Machine (d : Delims) (source : List Char) where
  /-- The byte that the lexer has come to. -/
  cursor : Nat
  mode : Mode
  /-- The lexemes that have been looked at and not been taken. -/
  peeked : List Lexeme
  /-- The place of the lexeme that was taken last. -/
  last : Span
  /-- The place of the closing delimiter of the tag, once it has been taken. -/
  closed : Option Span
  /-- The levels of nesting that have been entered and not been left. -/
  depth : Nat
  /-- What is wrong with the source, as far as it has been read. -/
  errors : List Diagnostic
  /-- The calls so far that decoded a literal. -/
  calls : List Decoding

/-- Why a program stops before its end. -/
inductive Halt (d : Delims) (source : List Char) where
  /-- A cut went wrong, or something occurred that must not. -/
  | stuck
  | failed (diagnostic : Diagnostic) (state : Machine d source)

/-- Takes lexemes from a machine to give a value, or halts. -/
abbrev Program (d : Delims) (source : List Char) (α : Type) : Type :=
  Parser (Halt d source) (Machine d source) α

namespace Machine

variable {d : Delims} {source : List Char} {α : Type}

/-- A machine at the beginning of the source. -/
def start (d : Delims) (source : List Char) : Machine d source where
  cursor := 0
  mode := .template
  peeked := []
  last := Span.point 0
  closed := none
  depth := 0
  errors := []
  calls := []

/-- The machine with its lexer at another place. -/
def moved (m : Machine d source) (place : Lexer) : Machine d source :=
  { m with cursor := place.pos, mode := place.mode }

/-- The machine with other lexemes waiting. -/
def queueing (m : Machine d source) (queue : List Lexeme) : Machine d source := { m with peeked := queue }

omit [Letters] in
@[simp] theorem peeked_queueing (m : Machine d source) (queue : List Lexeme) :
    (m.queueing queue).peeked = queue := rfl

/-- The machine at another depth. -/
def sunk (m : Machine d source) (depth : Nat) : Machine d source := { m with depth := depth }

/-- The machine after one more complaint. -/
def blaming (m : Machine d source) (diagnostic : Diagnostic) : Machine d source :=
  { m with errors := m.errors ++ [diagnostic] }

/-- The machine after one more call that decoded a literal. -/
def noting (m : Machine d source) (call : Decoding) : Machine d source := { m with calls := m.calls ++ [call] }

/-- Something has occurred that must not. -/
def stuck : Program d source α := fun _ => .error .stuck

/-- A cut that must be possible. -/
def cut (x : Option α) : Program d source α := fun m =>
  match x with
  | some a => .ok (a, m)
  | none => .error .stuck

/-- Fails, and leaves the machine as it is. -/
def fail (diagnostic : Diagnostic) : Program d source α := fun m => .error (.failed diagnostic m)

/-! ## Lexemes -/

/-- At most `fuel` rounds of `pull`. -/
def pullFrom : Nat → Program d source (Option Lexeme)
  | 0 => stuck
  | fuel + 1 => fun m =>
    match step? d source m.cursor m.mode with
    | none => .error .stuck
    | some .done => .ok (none, m)
    | some (.fault diagnostic place) => .error (.failed diagnostic (m.moved place))
    | some (.token l place) =>
      if l.token = .blank then pullFrom fuel (m.moved place) else .ok (some l, m.moved place)

/-- Asks the lexer for the next lexeme that is not a blank. -/
def pull : Program d source (Option Lexeme) := pullFrom (enough source)

/-- Asks the lexer for `n` more lexemes, which wait in the queue. -/
def lookAhead : Nat → Program d source Unit
  | 0 => return ()
  | n + 1 => do
    match ← pull with
    | none => return ()
    | some l => fun m => lookAhead n (m.queueing (m.peeked ++ [l]))

/-- The lexeme before which `n` others have not been taken. -/
def peekNth (n : Nat) : Program d source (Option Lexeme) := fun m =>
  match lookAhead (n + 1 - m.peeked.length) m with
  | .ok (_, m) => .ok (m.peeked[n]?, m)
  | .error halt => .error halt

/-- The machine when the lexeme has been taken. -/
def taking (m : Machine d source) (l : Lexeme) : Machine d source :=
  { m with last := l.span, closed := if l.token.isClosing then some l.span else m.closed }

/-- Takes the next lexeme, from the queue if there is one. -/
def next : Program d source (Option Lexeme) := fun m =>
  match m.peeked with
  | l :: rest => .ok (some l, (m.queueing rest).taking l)
  | [] =>
    match pull m with
    | .ok (found, m) => .ok (found, found.elim m m.taking)
    | .error halt => .error halt

/-- The end of the source. -/
def eof : Program d source Span := fun m => .ok (Span.point (byteLen source), m)

instance : Tokens (Machine d source) (Halt d source) where
  peek := peekNth 0
  peekSecond := peekNth 1
  next := next
  last m := .ok (m.last, m)
  eof := eof
  fail := fail
  left _ := enough source

/-! ## Texts and nesting -/

/-- Notes the call of a decoder with what it gave, and goes on with that. -/
def decode (x : Option (Except Diagnostic α)) (call : Except Diagnostic α → Decoding) :
    Program d source α := do
  let result ← cut x
  fun m => match result with
    | .ok a => .ok (a, m.noting (call result))
    | .error diagnostic => fail diagnostic (m.noting (call result))

/-- The place and the text of a lexeme without its last byte. -/
def stem (l : Lexeme) : Program d source (Span × List Char) := do
  let place : Span := ⟨l.span.start, ← cut (sub? l.span.stop 1)⟩
  return (place, ← cut (slice? place source))

/-- Enters a level of nesting; beyond the limit this fails at the next lexeme. -/
def enter (limit : Nat) : Program d source Unit := fun m =>
  if m.depth + 1 > limit then tooDeep limit (m.sunk (m.depth + 1)) else .ok ((), m.sunk (m.depth + 1))

/-- Leaves a level of nesting. -/
def leave : Program d source Unit := fun m =>
  match sub? m.depth 1 with
  | some depth => .ok ((), m.sunk depth)
  | none => .error .stuck

/-- Texts are cut out of the source, and a level that is entered for reading is left behind it.  The grammar
    asks to go beyond its last level only where that fails. -/
instance : Supply (Machine d source) (Halt d source) where
  spelled l := cut (slice? l.span source)
  stem := stem
  literalOf l negative := decode (literalOf? source l negative) (.constant l negative)
  textOf l := decode (textOf? source l) (.text l)
  indexOf l := decode (indexOf? source l) (.index l)
  item items i _ := cut items[i]?
  difference a b := cut (sub? a b)
  within limit p := do
    enter limit
    let x ← p
    leave
    return x
  beyond limit := do
    enter limit
    stuck

/-! ## Tags -/

/-- The machine where a tag begins: its closing delimiter has not been taken, and nothing has been entered. -/
def beginTag (m : Machine d source) : Machine d source := { m with closed := none, depth := 0 }

/-- The byte where the tag ends in which reading has failed, and the machine there.  Of the closing delimiter it
    is enough that it has been seen; otherwise the lexer skips what is left of the tag. -/
def recover (m : Machine d source) : Option (Nat × Machine d source) :=
  match m.closed with
  | some place => some (place.stop, { m with closed := none, peeked := [] })
  | none =>
    match m.peeked.find? (·.token.isClosing) with
    | some l => some (l.span.stop, m.queueing [])
    | none => do
      let place ← skipTag? d source (enough source) m.cursor m.mode
      return (place.pos, (m.moved place).queueing [])

end Machine

namespace Machine

variable {s : Settings} {source : List Char}

/-- Reads the tag whose opening delimiter has been taken. -/
def tag (kind : TagKind) (opening : Lexeme) (m : Machine s.delims source) :
    Option (Node × Machine s.delims source) :=
  match Region.body s.limit kind m.beginTag with
  | .ok ((b, closing), m) => do
    let first ← openingTrim? s.delims source opening.span.start
    let final ← closingTrim? s.delims (.tag kind) source closing.span.start
    return (b.toNode ⟨first, final⟩ (opening.span.join closing.span),
      if b.isRaw then { m with mode := .raw } else m)
  | .error (.failed diagnostic m) => do
    let (stop, m) ← recover (m.blaming diagnostic)
    return (.error ⟨opening.span.start, stop⟩, m)
  | .error .stuck => none

/-- The node of a lexeme outside a tag. -/
def node? (d : Delims) (source : List Char) (l : Lexeme) : Option Node :=
  match l.token with
  | .content => do return .content (String.ofList (← slice? l.span source)) l.span
  | .comment => do return .comment (← commentTrims? d source l.span true) l.span
  | .rawText => do return .raw (String.ofList (← slice? l.span source)) l.span
  | _ => none

/-- The node of a comment or raw block that goes on to the end of the source. -/
def unclosed? (d : Delims) (source : List Char) (span : Span) : Fault → Option Node
  | .unclosedComment => do return .comment (← commentTrims? d source span false) span
  | .unclosedRaw => do return .raw (String.ofList (← slice? span source)) span
  | _ => return .error span

/-- The node that begins with a lexeme outside a tag, and the machine behind it. -/
def node (l : Lexeme) (m : Machine s.delims source) : Option (Node × Machine s.delims source) :=
  match l.token.opens? with
  | some kind => tag kind l m
  | none => (node? s.delims source l).map (·, m)

/-- At most `fuel` rounds of `template`. -/
def templateFrom : Nat → Machine s.delims source → Option (List Node × Machine s.delims source)
  | 0, _ => none
  | fuel + 1, m =>
    match next m with
    | .error .stuck => none
    | .error (.failed diagnostic after) => do
      let span : Span := ⟨m.cursor, after.cursor⟩
      let node ← unclosed? s.delims source span diagnostic.fault
      if span.isEmpty then return ([], after.blaming diagnostic)
      else
        let (nodes, final) ← templateFrom fuel (after.blaming diagnostic)
        return (node :: nodes, final)
    | .ok (none, after) => some ([], after)
    | .ok (some l, after) => do
      let (n, after) ← node l after
      let (nodes, final) ← templateFrom fuel after
      return (n :: nodes, final)

/-- Reads a whole source: its nodes, and the machine at its end. -/
def template (s : Settings) (source : List Char) : Option (List Node × Machine s.delims source) :=
  templateFrom (enough source) (start s.delims source)

end Machine

/-- Reads a source with a machine. -/
def parse? (s : Settings) (source : String) : Option Parsed := do
  let (nodes, m) ← Machine.template s source.toList
  return { source := source, template := ⟨nodes⟩, diagnostics := m.errors }

end Stencil.Checked
