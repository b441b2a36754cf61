/-
  Keyword — the words with a meaning of their own inside a tag.

  Most keywords matter only at the start of a statement and are ordinary names elsewhere; the
  reserved ones never are.
-/

namespace Stencil

/-- A word with a meaning of its own inside a tag. -/
inductive Keyword where
  | blockKw
  | endBlock
  | extendsKw
  | includeKw
  | importKw
  | asKw
  | letKw
  | setKw
  | mutKw
  | forKw
  | inKw
  | endFor
  | breakKw
  | continueKw
  | ifKw
  | elseKw
  | elif
  | endIf
  | matchKw
  | endMatch
  | whenKw
  | endWhen
  | macroKw
  | endMacro
  | callKw
  | endCall
  | filterKw
  | endFilter
  | rawKw
  | endRaw
  | isKw
  | notKw
  | definedKw
  | withKw
  | orKw
  | xorKw
  | bitAnd
  | bitOr
  | trueKw
  | falseKw
  deriving DecidableEq

namespace Keyword

/-- All keywords, in the order of their declaration. -/
def all : List Keyword :=
  [blockKw, endBlock, extendsKw, includeKw, importKw, asKw, letKw, setKw, mutKw, forKw, inKw,
   endFor, breakKw, continueKw, ifKw, elseKw, elif, endIf, matchKw, endMatch, whenKw, endWhen,
   macroKw, endMacro, callKw, endCall, filterKw, endFilter, rawKw, endRaw, isKw, notKw, definedKw,
   withKw, orKw, xorKw, bitAnd, bitOr, trueKw, falseKw]

/-- The word as it is written in a template. -/
def text : Keyword → String
  | blockKw => "block"
  | endBlock => "endblock"
  | extendsKw => "extends"
  | includeKw => "include"
  | importKw => "import"
  | asKw => "as"
  | letKw => "let"
  | setKw => "set"
  | mutKw => "mut"
  | forKw => "for"
  | inKw => "in"
  | endFor => "endfor"
  | breakKw => "break"
  | continueKw => "continue"
  | ifKw => "if"
  | elseKw => "else"
  | elif => "elif"
  | endIf => "endif"
  | matchKw => "match"
  | endMatch => "endmatch"
  | whenKw => "when"
  | endWhen => "endwhen"
  | macroKw => "macro"
  | endMacro => "endmacro"
  | callKw => "call"
  | endCall => "endcall"
  | filterKw => "filter"
  | endFilter => "endfilter"
  | rawKw => "raw"
  | endRaw => "endraw"
  | isKw => "is"
  | notKw => "not"
  | definedKw => "defined"
  | withKw => "with"
  | orKw => "or"
  | xorKw => "xor"
  | bitAnd => "bitand"
  | bitOr => "bitor"
  | trueKw => "true"
  | falseKw => "false"

/-- The name of the keyword in records. -/
def label : Keyword → String
  | blockKw => "Block"
  | endBlock => "EndBlock"
  | extendsKw => "Extends"
  | includeKw => "Include"
  | importKw => "Import"
  | asKw => "As"
  | letKw => "Let"
  | setKw => "Set"
  | mutKw => "Mut"
  | forKw => "For"
  | inKw => "In"
  | endFor => "EndFor"
  | breakKw => "Break"
  | continueKw => "Continue"
  | ifKw => "If"
  | elseKw => "Else"
  | elif => "Elif"
  | endIf => "EndIf"
  | matchKw => "Match"
  | endMatch => "EndMatch"
  | whenKw => "When"
  | endWhen => "EndWhen"
  | macroKw => "Macro"
  | endMacro => "EndMacro"
  | callKw => "Call"
  | endCall => "EndCall"
  | filterKw => "Filter"
  | endFilter => "EndFilter"
  | rawKw => "Raw"
  | endRaw => "EndRaw"
  | isKw => "Is"
  | notKw => "Not"
  | definedKw => "Defined"
  | withKw => "With"
  | orKw => "Or"
  | xorKw => "Xor"
  | bitAnd => "BitAnd"
  | bitOr => "BitOr"
  | trueKw => "True"
  | falseKw => "False"

/-- The keyword written `word`. -/
def ofString? (word : String) : Option Keyword := all.find? fun k => k.text == word

/-- Whether the word can never be used as a name. -/
def isReserved : Keyword → Bool
  | asKw | mutKw | inKw | isKw | notKw | withKw | orKw | xorKw | bitAnd | bitOr | trueKw
  | falseKw => true
  | _ => false

theorem mem_all (k : Keyword) : k ∈ all := by
  cases k <;> decide

/-- Every keyword is read back from its text. -/
theorem ofString?_text (k : Keyword) : ofString? k.text = some k := by
  cases k <;> decide +kernel

end Keyword

end Stencil
