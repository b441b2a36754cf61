/-
  Parse — from a source to a template.

  `Settings.parse` never fails: what is wrong with a source is among the diagnostics, and the
  template still covers the whole source.
-/
import Stencil.Balance
import Stencil.Template.Region
import Stencil.Text.Unicode

namespace Stencil

variable [Letters]

/-- A source that has been read. -/
structure Parsed where
  source : String
  template : Template
  /-- What is wrong with the source, in its order. -/
  diagnostics : List Diagnostic

/-- Reads a source. -/
def Settings.parse (s : Settings) (source : String) : Parsed :=
  let rs := regions s (Lexer.start source.toList)
  { source := source
    template := ⟨rs.filterMap (·.node)⟩
    diagnostics := rs.filterMap (·.diagnostic) }

/-- Reads a source with the standard settings. -/
def parse (source : String) : Parsed := Settings.standard.parse source

namespace Parsed

/-- Whether nothing is wrong with the source. -/
def isOk (p : Parsed) : Bool := p.diagnostics.isEmpty

/-- What is wrong with the nesting of the control tags. -/
def validate (p : Parsed) : List Diagnostic := p.template.validate

end Parsed

end Stencil
