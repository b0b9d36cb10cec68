import Marginalia.Text.Blank
import Marginalia.Text.Scan
import Marginalia.Text.Search
import Marginalia.Text.Range
import Marginalia.Text.Position
import Marginalia.Text.Hex
import Marginalia.Text.Quoted
import Marginalia.Text.Utf8
import Marginalia.Text.Newline
import Marginalia.Text.Percent
import Marginalia.Text.Wildcard
import Marginalia.Number.Shortest
import Marginalia.Data.Value
import Marginalia.Data.Json.Reader
import Marginalia.Data.Json.Printer
import Marginalia.Variable.Reference
import Marginalia.Comment.Span
import Marginalia.Annotation.Findings
import Marginalia.Variable.Surroundings
import Marginalia.Path
import Marginalia.Uri
import Marginalia.Data.Toml.Reader
import Marginalia.Data.Ordered
import Marginalia.Variable.Entry
import Marginalia.Settings
import Marginalia.Report.Account
import Marginalia.Report.Basic
import Marginalia.Document.Library
import Marginalia.Variable.Resolution
import Marginalia.Document.Scan
import Marginalia.Engine
import Marginalia.Tool
import Marginalia.Command.Scan
import Marginalia.Command.Expand
import Marginalia.Main
import Marginalia.Proofs.Text.Scan
import Marginalia.Proofs.Text.Search
import Marginalia.Proofs.Variable.Dollar
import Marginalia.Proofs.Variable.Substitution
import Marginalia.Proofs.Variable.Nesting
import Marginalia.Proofs.Variable.Reachability
import Marginalia.Proofs.Variable.Stack
import Marginalia.Proofs.Text.NulFree
import Marginalia.Proofs.Variable.OnePass
import Marginalia.Proofs.Comment.Rows
import Marginalia.Proofs.Annotation.Ranges
import Marginalia.Proofs.Annotation.Layout
import Marginalia.Proofs.Annotation.RoundTrip
import Marginalia.Proofs.Comment.Shape
import Marginalia.Proofs.Comment.Coverage
import Marginalia.Proofs.Document.Refresh
import Marginalia.Proofs.Variable.Trail
import Marginalia.Proofs.Document.History
import Marginalia.Proofs.Engine.Cache
import Marginalia.Proofs.Variable.Chain
import Marginalia.Proofs.Variable.Enclosing
import Marginalia.Proofs.Variable.Listing
import Marginalia.Proofs.Variable.Doubled
import Marginalia.Proofs.Variable.Locality
import Marginalia.Proofs.Comment.Surrounded
import Marginalia.Proofs.Annotation.Surrounded
import Marginalia.Proofs.Annotation.Grammar
import Marginalia.Proofs.Annotation.Shortened
import Marginalia.Proofs.Annotation.Judgement
import Marginalia.Proofs.Annotation.Outcome
import Marginalia.Proofs.Comment.Order
import Marginalia.Proofs.Comment.Content
import Marginalia.Proofs.Annotation.Appended
import Marginalia.Proofs.Annotation.Order
import Marginalia.Proofs.Variable.Places
import Marginalia.Proofs.Variable.Divider
import Marginalia.Proofs.Annotation.Mentions
import Marginalia.Proofs.Variable.Around
import Marginalia.Proofs.Variable.Verdict
import Marginalia.Proofs.Engine.Stack
import Marginalia.Proofs.Engine.Diagnostics
import Marginalia.Proofs.Json.Grammar
import Marginalia.Proofs.Json.Literal
import Marginalia.Proofs.Json.Reading
import Marginalia.Proofs.Variable.DefinitionLine
import Marginalia.Proofs.Text.Position
import Marginalia.Proofs.Json.Token
import Marginalia.Proofs.Json.Nesting
import Marginalia.Proofs.Json.Acceptance
import Marginalia.Proofs.Variable.Declaration
import Marginalia.Proofs.Json.Printed
import Marginalia.Proofs.Variable.Redeclaration
import Marginalia.Proofs.Variable.Repetition
import Marginalia.Proofs.Text.Utf8
import Marginalia.Proofs.Settings.Loading
import Marginalia.Proofs.Settings.Discovery
import Marginalia.Proofs.Document.Tree
import Marginalia.Proofs.Text.Wildcard
import Marginalia.Proofs.Variable.Surroundings
import Marginalia.Proofs.Data.Along
import Marginalia.Proofs.Document.Selection
import Marginalia.Proofs.Document.Scan
import Marginalia.Proofs.Text.Percent
import Marginalia.Proofs.Document.Location
import Marginalia.Proofs.Document.Workspace
