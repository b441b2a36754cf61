import Stencil.Diagnostic.Record
import Stencil.Parse
import Stencil.Proofs.Balance.Fate
import Stencil.Proofs.Balance.Grammar
import Stencil.Proofs.Balance.Report
import Stencil.Proofs.Checked.Extent
import Stencil.Proofs.Checked.Literals
import Stencil.Proofs.Checked.Parse
import Stencil.Proofs.Checked.Progress
import Stencil.Proofs.Checked.Search
import Stencil.Proofs.Lexer.EscapeGrammar
import Stencil.Proofs.Template.EndTag
import Stencil.Proofs.Template.Exprs
import Stencil.Proofs.Template.Faithful
import Stencil.Proofs.Template.FirstClosing
import Stencil.Proofs.Template.Height
import Stencil.Proofs.Template.Limit
import Stencil.Proofs.Template.Memoryless
import Stencil.Proofs.Template.NestedComment
import Stencil.Proofs.Template.NumberLiteral
import Stencil.Proofs.Template.Openings
import Stencil.Proofs.Template.Parentheses
import Stencil.Proofs.Template.Parts
import Stencil.Proofs.Template.PrintedExpr
import Stencil.Proofs.Template.PrintedPattern
import Stencil.Proofs.Template.PrintedStmt
import Stencil.Proofs.Template.QuotedLiteral
import Stencil.Proofs.Template.RawBlock
import Stencil.Proofs.Template.ReadBack
import Stencil.Proofs.Template.SnippetLine
import Stencil.Proofs.Template.Whitespace
import Stencil.Stmt.Printer
import Stencil.Template.Equality
