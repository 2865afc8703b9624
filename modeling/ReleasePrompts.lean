import ReleasePrompts.Archive.Bits
import ReleasePrompts.Archive.Checksum
import ReleasePrompts.Archive.Code
import ReleasePrompts.Archive.Gzip
import ReleasePrompts.Archive.Inflate
import ReleasePrompts.Archive.Pack
import ReleasePrompts.Archive.Tar
import ReleasePrompts.Cache.Lru
import ReleasePrompts.Cache.Store
import ReleasePrompts.Diff.Lines
import ReleasePrompts.Diff.Matching
import ReleasePrompts.Diff.Rows
import ReleasePrompts.Diff.Segments
import ReleasePrompts.Document.Reader
import ReleasePrompts.Document.Spelling
import ReleasePrompts.Document.Value
import ReleasePrompts.Document.Writer
import ReleasePrompts.Failure
import ReleasePrompts.Literal.Escape
import ReleasePrompts.Literal.Locator
import ReleasePrompts.Literal.NumberText
import ReleasePrompts.Log
import ReleasePrompts.Number.Binary64
import ReleasePrompts.Number.Layout
import ReleasePrompts.Number.Numeral
import ReleasePrompts.Number.Shortest
import ReleasePrompts.Pairs
import ReleasePrompts.Prompt.Extraction
import ReleasePrompts.Prompt.Name
import ReleasePrompts.Proofs.Archive.Decompression
import ReleasePrompts.Proofs.Archive.Inflating
import ReleasePrompts.Proofs.Archive.Members
import ReleasePrompts.Proofs.Archive.Reading
import ReleasePrompts.Proofs.Archive.Scan
import ReleasePrompts.Proofs.Archive.Slices
import ReleasePrompts.Proofs.Archive.Stored
import ReleasePrompts.Proofs.Cache.Inclusion
import ReleasePrompts.Proofs.Cache.Recency
import ReleasePrompts.Proofs.Cache.Store
import ReleasePrompts.Proofs.Diff.Columns
import ReleasePrompts.Proofs.Diff.Groups
import ReleasePrompts.Proofs.Diff.Hunks
import ReleasePrompts.Proofs.Diff.Lines
import ReleasePrompts.Proofs.Diff.Matching
import ReleasePrompts.Proofs.Diff.Rows
import ReleasePrompts.Proofs.Diff.Segments
import ReleasePrompts.Proofs.Diff.Summary
import ReleasePrompts.Proofs.Literal.Balance
import ReleasePrompts.Proofs.Literal.Deviation
import ReleasePrompts.Proofs.Literal.Enclosure
import ReleasePrompts.Proofs.Literal.Escape
import ReleasePrompts.Proofs.Literal.Integer
import ReleasePrompts.Proofs.Literal.Lexemes
import ReleasePrompts.Proofs.Literal.Location
import ReleasePrompts.Proofs.Literal.NumberText
import ReleasePrompts.Proofs.Literal.Reading
import ReleasePrompts.Proofs.Literal.StringValue
import ReleasePrompts.Proofs.Number.DecimalNumeral
import ReleasePrompts.Proofs.Number.Layout
import ReleasePrompts.Proofs.Number.Numeral
import ReleasePrompts.Proofs.Number.Rounding
import ReleasePrompts.Proofs.Number.Shortest
import ReleasePrompts.Proofs.Prompt.Fallback
import ReleasePrompts.Proofs.Prompt.Independence
import ReleasePrompts.Proofs.Registry.Dates
import ReleasePrompts.Proofs.Registry.Download
import ReleasePrompts.Proofs.Registry.Releases
import ReleasePrompts.Proofs.Registry.Validation
import ReleasePrompts.Proofs.Release.Calendar
import ReleasePrompts.Proofs.Release.Merging
import ReleasePrompts.Proofs.Release.Offset
import ReleasePrompts.Proofs.Release.Order
import ReleasePrompts.Proofs.Release.Sorting
import ReleasePrompts.Proofs.Release.Spelling
import ReleasePrompts.Proofs.Release.Stability
import ReleasePrompts.Proofs.Release.Timestamp
import ReleasePrompts.Proofs.Release.Triple
import ReleasePrompts.Proofs.Scope.Address
import ReleasePrompts.Proofs.Scope.Binding
import ReleasePrompts.Proofs.Scope.Chain
import ReleasePrompts.Proofs.Scope.Extraction
import ReleasePrompts.Proofs.Scope.Filling
import ReleasePrompts.Proofs.Scope.Frame
import ReleasePrompts.Proofs.Scope.Layer
import ReleasePrompts.Proofs.Scope.Pieces
import ReleasePrompts.Proofs.Scope.Reuse
import ReleasePrompts.Proofs.Scope.Search
import ReleasePrompts.Proofs.Scope.Soundness
import ReleasePrompts.Proofs.Scope.Substitution
import ReleasePrompts.Proofs.Scope.Visibility
import ReleasePrompts.Proofs.Script.Ahead
import ReleasePrompts.Proofs.Script.Nesting
import ReleasePrompts.Proofs.Script.Selection
import ReleasePrompts.Proofs.Script.Sources
import ReleasePrompts.Proofs.Script.Templates
import ReleasePrompts.Proofs.Service.Answers
import ReleasePrompts.Proofs.Service.Batches
import ReleasePrompts.Proofs.Service.Desk
import ReleasePrompts.Proofs.Service.Failures
import ReleasePrompts.Proofs.Service.LatestPair
import ReleasePrompts.Proofs.Service.Loading
import ReleasePrompts.Proofs.Service.Resting
import ReleasePrompts.Proofs.Service.Rounds
import ReleasePrompts.Proofs.Service.Session
import ReleasePrompts.Proofs.Service.Sharing
import ReleasePrompts.Proofs.Service.Tabs
import ReleasePrompts.Proofs.Text.Utf16
import ReleasePrompts.Proofs.Text.Utf8
import ReleasePrompts.Registry.Client
import ReleasePrompts.Registry.Download
import ReleasePrompts.Registry.Metadata
import ReleasePrompts.Registry.Site
import ReleasePrompts.Release.Calendar
import ReleasePrompts.Release.Merging
import ReleasePrompts.Release.Sorting
import ReleasePrompts.Release.Timestamp
import ReleasePrompts.Release.Version
import ReleasePrompts.Scope.Layer
import ReleasePrompts.Scope.Resolver
import ReleasePrompts.Scope.Template
import ReleasePrompts.Script.Grammar.Expression
import ReleasePrompts.Script.Grammar.Function
import ReleasePrompts.Script.Grammar.Markup
import ReleasePrompts.Script.Grammar.Phrase
import ReleasePrompts.Script.Grammar.Statement
import ReleasePrompts.Script.Lexeme
import ReleasePrompts.Script.Node
import ReleasePrompts.Script.Profile
import ReleasePrompts.Script.Program
import ReleasePrompts.Service.Comparison
import ReleasePrompts.Service.Load
import ReleasePrompts.Service.Request
import ReleasePrompts.Service.Shared
import ReleasePrompts.Settings
import ReleasePrompts.Text.Blank
import ReleasePrompts.Text.Digit
import ReleasePrompts.Text.Percent
import ReleasePrompts.Text.Printable
import ReleasePrompts.Text.Quoted
import ReleasePrompts.Text.Range
import ReleasePrompts.Text.Search
import ReleasePrompts.Text.Surrogate
import ReleasePrompts.Text.Utf8
import ReleasePrompts.Text.Word
import ReleasePrompts.Web.Address
import ReleasePrompts.Web.Endpoint
import ReleasePrompts.Web.Query
import ReleasePrompts.Web.Response
