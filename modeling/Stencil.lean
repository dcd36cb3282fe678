import Stencil.CommandLine.Run
import Stencil.Decimal.Read
import Stencil.Decimal.Write
import Stencil.Document.Block
import Stencil.Document.Read
import Stencil.Expr.Basic
import Stencil.Expr.Parser
import Stencil.Expr.Read
import Stencil.Expr.Scan
import Stencil.Json.Read
import Stencil.Library
import Stencil.Loader
import Stencil.Main
import Stencil.Markup.Scan
import Stencil.Proofs.Document.BlockText
import Stencil.Proofs.Document.BlockTiling
import Stencil.Proofs.Document.Blocks
import Stencil.Proofs.Document.Concatenation
import Stencil.Proofs.Document.Draft
import Stencil.Proofs.Document.ExpressionNesting
import Stencil.Proofs.Document.Expressions
import Stencil.Proofs.Document.FaultPlace
import Stencil.Proofs.Document.Loop
import Stencil.Proofs.Document.LoopText
import Stencil.Proofs.Document.LoopVariable
import Stencil.Proofs.Document.Nesting
import Stencil.Proofs.Document.Reading
import Stencil.Proofs.Document.RoundTrip
import Stencil.Proofs.Document.TagArguments
import Stencil.Proofs.Document.TagCall
import Stencil.Proofs.Document.TagFaultPlace
import Stencil.Proofs.Document.TagNesting
import Stencil.Proofs.Document.Tags
import Stencil.Proofs.Document.WordCut
import Stencil.Proofs.Document.WordJoin
import Stencil.Proofs.Document.Words
import Stencil.Proofs.Expr.Balance
import Stencil.Proofs.Expr.Complete
import Stencil.Proofs.Expr.Coverage
import Stencil.Proofs.Expr.Embedded
import Stencil.Proofs.Expr.FaultPlace
import Stencil.Proofs.Expr.FilterName
import Stencil.Proofs.Expr.Grammar
import Stencil.Proofs.Expr.Named
import Stencil.Proofs.Expr.Nesting
import Stencil.Proofs.Expr.Number
import Stencil.Proofs.Expr.Place
import Stencil.Proofs.Expr.Precedence
import Stencil.Proofs.Expr.Print
import Stencil.Proofs.Expr.Reading
import Stencil.Proofs.Expr.Relocation
import Stencil.Proofs.Expr.RoundTrip
import Stencil.Proofs.Expr.Separated
import Stencil.Proofs.Expr.Sound
import Stencil.Proofs.Expr.Spaced
import Stencil.Proofs.Expr.Spelling
import Stencil.Proofs.Expr.Subterms
import Stencil.Proofs.Expr.ViablePrefix
import Stencil.Proofs.Grammar.Blocks
import Stencil.Proofs.Grammar.Expression
import Stencil.Proofs.Grammar.Rule
import Stencil.Proofs.Loader.Search
import Stencil.Proofs.Markup.Between
import Stencil.Proofs.Markup.Fragments
import Stencil.Proofs.Markup.Lossless
import Stencil.Proofs.Markup.Seam
import Stencil.Proofs.Registry.History
import Stencil.Proofs.Registry.Library
import Stencil.Proofs.Registry.Names
import Stencil.Proofs.Registry.Resolution
import Stencil.Proofs.Render.Autoescape
import Stencil.Proofs.Render.Comment
import Stencil.Proofs.Render.Concatenation
import Stencil.Proofs.Render.Escaping
import Stencil.Proofs.Render.FaultPlace
import Stencil.Proofs.Render.FreeNames
import Stencil.Proofs.Render.Inert
import Stencil.Proofs.Render.Keywords
import Stencil.Proofs.Render.Lexical
import Stencil.Proofs.Render.Outcome
import Stencil.Proofs.Render.Relocation
import Stencil.Proofs.Render.Verbatim
import Stencil.Proofs.Source.Counting
import Stencil.Proofs.Source.Location
import Stencil.Proofs.Source.Nesting
import Stencil.Proofs.Source.Pieces
import Stencil.Proofs.Text.Escape
import Stencil.Proofs.Text.Markup
import Stencil.Proofs.Value.Equality
import Stencil.Proofs.Value.Inert
import Stencil.Proofs.Value.Integer
import Stencil.Proofs.Value.Lexicographic
import Stencil.Proofs.Value.Order
import Stencil.Proofs.Value.Repetition
import Stencil.Proofs.Value.Unambiguous
import Stencil.Proofs.Value.Views
import Stencil.Render.Document
import Stencil.Render.Eval
import Stencil.Source
import Stencil.TagWords
import Stencil.Template
import Stencil.Text.Basic
import Stencil.Text.Case
import Stencil.Text.Escape
import Stencil.Text.Reader
import Stencil.Toml.Read
import Stencil.Toml.Scalar
import Stencil.Value.Arithmetic
import Stencil.Value.Basic
import Stencil.Value.Comparison
import Stencil.Value.Entries
