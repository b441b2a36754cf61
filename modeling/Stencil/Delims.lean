/-
  Delims — which delimiters mark the tags of a template.

  A template has up to three kinds of tags: expressions, statements (blocks) and comments, each
  with an opening and a closing delimiter.  A delimiter is never empty, so it is kept as a first
  character and the rest.  Any kind may be switched off, and delimiters of different kinds may
  overlap; which of them wins is settled in `Stencil.Delims.Search`.
-/

namespace Stencil

/-- The two kinds of tags whose inside is read as lexemes. -/
inductive TagKind where
  | expr
  | block
  deriving DecidableEq

/-- What a delimiter encloses: the inside of a tag, or a comment. -/
inductive DelimKind where
  | tag (kind : TagKind)
  | comment
  deriving DecidableEq

/-- A delimiter: a non-empty text. -/
structure Delim where
  head : Char
  tail : List Char
  deriving DecidableEq

namespace Delim

/-- The characters of the delimiter. -/
def text (d : Delim) : List Char := d.head :: d.tail

/-- The number of characters of the delimiter. -/
def length (d : Delim) : Nat := d.tail.length + 1

/-- The delimiter written `s`, unless `s` is empty. -/
def ofString? (s : String) : Option Delim :=
  match s.toList with
  | [] => none
  | c :: cs => some ⟨c, cs⟩

/-- The delimiter as a string. -/
def toString (d : Delim) : String := String.ofList d.text

/-- Whether `cs` starts with the delimiter. -/
def startsAt (d : Delim) (cs : List Char) : Bool := d.text.isPrefixOf cs

@[simp] theorem length_text (d : Delim) : d.text.length = d.length := rfl

theorem length_pos (d : Delim) : 0 < d.length := Nat.succ_pos _

theorem startsAt_iff {d : Delim} {cs : List Char} : d.startsAt cs = true ↔ d.text <+: cs := by
  simp [startsAt]

theorem not_startsAt_nil (d : Delim) : d.startsAt [] = false := by
  simp [startsAt, text]

end Delim

/-- An opening delimiter and the closing one that answers it. -/
structure DelimPair where
  opening : Delim
  closing : Delim
  deriving DecidableEq

/-- The delimiters of a template; a missing pair switches that kind off. -/
structure Delims where
  expr : Option DelimPair
  block : Option DelimPair
  comment : Option DelimPair
  deriving DecidableEq

namespace Delims

/-- No delimiters at all: every template is plain content. -/
def empty : Delims := ⟨none, none, none⟩

/-- The pair configured for a kind. -/
def pair (d : Delims) : DelimKind → Option DelimPair
  | .tag .expr => d.expr
  | .tag .block => d.block
  | .comment => d.comment

/-- The same delimiters with those of one kind replaced. -/
def set (d : Delims) (kind : DelimKind) (p : DelimPair) : Delims :=
  match kind with
  | .tag .expr => { d with expr := some p }
  | .tag .block => { d with block := some p }
  | .comment => { d with comment := some p }

/-- As `set`, from texts; refused when one of them is empty. -/
def set? (d : Delims) (kind : DelimKind) (opening closing : String) : Option Delims := do
  let o ← Delim.ofString? opening
  let c ← Delim.ofString? closing
  return d.set kind ⟨o, c⟩

/-- The delimiters used when nothing else is asked for: a brace doubled for expressions, a brace
    with a percent sign for statements and with a hash for comments. -/
def standard : Delims where
  expr := some ⟨⟨'{', ['{']⟩, ⟨'}', ['}']⟩⟩
  block := some ⟨⟨'{', ['%']⟩, ⟨'%', ['}']⟩⟩
  comment := some ⟨⟨'{', ['#']⟩, ⟨'#', ['}']⟩⟩

@[simp] theorem pair_set_self (d : Delims) (k : DelimKind) (p : DelimPair) :
    (d.set k p).pair k = some p := by
  rcases k with (_ | _) | _ <;> rfl

theorem pair_set_of_ne (d : Delims) {k k' : DelimKind} (p : DelimPair) (h : k ≠ k') :
    (d.set k p).pair k' = d.pair k' := by
  rcases k with (_ | _) | _ <;> rcases k' with (_ | _) | _ <;>
    simp_all [set, pair]

end Delims

end Stencil
