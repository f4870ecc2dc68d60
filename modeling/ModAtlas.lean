import ModAtlas.CommandLine.Arguments
import ModAtlas.CommandLine.Run
import ModAtlas.CommandLine.Usage
import ModAtlas.Document.Fault
import ModAtlas.Document.Linked
import ModAtlas.Document.Node
import ModAtlas.Document.Place
import ModAtlas.Document.Reader
import ModAtlas.Document.Token
import ModAtlas.Files.Authority
import ModAtlas.Files.Finder
import ModAtlas.Files.Path
import ModAtlas.Files.Tree
import ModAtlas.Files.Uri
import ModAtlas.Image.Crc32
import ModAtlas.Image.Size
import ModAtlas.Journal.Basic
import ModAtlas.Journal.Clock
import ModAtlas.Journal.EditorLog
import ModAtlas.Journal.Layout
import ModAtlas.Journal.Level
import ModAtlas.Journal.Record
import ModAtlas.Json.Compact
import ModAtlas.Json.Escape
import ModAtlas.Json.Literal
import ModAtlas.Json.Numeral
import ModAtlas.Json.Strict
import ModAtlas.Json.Value
import ModAtlas.Main
import ModAtlas.Number.Binary64
import ModAtlas.Number.Number
import ModAtlas.Number.Reading
import ModAtlas.Pattern.Basic
import ModAtlas.Pattern.Reading
import ModAtlas.Reference.Analysis
import ModAtlas.Reference.Category
import ModAtlas.Reference.Classification
import ModAtlas.Reference.Completion
import ModAtlas.Reference.Definition
import ModAtlas.Reference.Diagnostic
import ModAtlas.Reference.Hover
import ModAtlas.Schema.Association
import ModAtlas.Schema.Correction
import ModAtlas.Schema.Library
import ModAtlas.Schema.Matching
import ModAtlas.Schema.Pointer
import ModAtlas.Schema.Prepared
import ModAtlas.Schema.Scope
import ModAtlas.Schema.Subschema
import ModAtlas.Schema.Tag
import ModAtlas.Service.Basic
import ModAtlas.Service.Inquiry
import ModAtlas.Service.Ledger
import ModAtlas.Service.Rebuild
import ModAtlas.Service.Workshop
import ModAtlas.Settings.Conversion
import ModAtlas.Settings.Logging
import ModAtlas.Settings.Property
import ModAtlas.Settings.Store
import ModAtlas.Settings.Workspace
import ModAtlas.Text.Base64
import ModAtlas.Text.Blank
import ModAtlas.Text.Digit
import ModAtlas.Text.Lines
import ModAtlas.Text.Percent
import ModAtlas.Text.Piece
import ModAtlas.Text.Printable
import ModAtlas.Text.Upper
import ModAtlas.Text.Utf8
import ModAtlas.Validation.Evaluation
import ModAtlas.Validation.Keyword
import ModAtlas.Validation.Outcome
import ModAtlas.Validation.Problem
import ModAtlas.Validation.Reference
import ModAtlas.Workspace.Atlas
import ModAtlas.Workspace.IdentifierIndex
import ModAtlas.Workspace.Localization
import ModAtlas.Workspace.MemberStore
import ModAtlas.Proofs.Service.Step
import ModAtlas.Proofs.Service.Gate
import ModAtlas.Proofs.Service.Versions
import ModAtlas.Proofs.Document.Walk
import ModAtlas.Proofs.Schema.Rules
import ModAtlas.Proofs.Schema.Closure
import ModAtlas.Proofs.Document.Owner
import ModAtlas.Proofs.Text.Piece
import ModAtlas.Proofs.Reference.References
import ModAtlas.Proofs.Document.Gap
import ModAtlas.Proofs.Json.Quoted
import ModAtlas.Proofs.Json.Numeral
import ModAtlas.Proofs.Json.Magnitude
import ModAtlas.Proofs.Json.Integer
import ModAtlas.Proofs.Json.Merging
import ModAtlas.Proofs.Document.Form
import ModAtlas.Proofs.Document.Rewriting
import ModAtlas.Proofs.Document.Bare
import ModAtlas.Proofs.Document.Makers
import ModAtlas.Proofs.Document.Links
import ModAtlas.Proofs.Document.Complete
import ModAtlas.Proofs.Document.Exact
import ModAtlas.Proofs.Document.Following
import ModAtlas.Proofs.Document.Ranges
import ModAtlas.Proofs.Document.Spelling
import ModAtlas.Proofs.Document.Grammar
import ModAtlas.Proofs.Schema.Enumeration
import ModAtlas.Proofs.Schema.Tagging
import ModAtlas.Proofs.Reference.Sight
import ModAtlas.Proofs.Document.Beginning
import ModAtlas.Proofs.Document.Due
import ModAtlas.Proofs.Service.Language
import ModAtlas.Proofs.Workspace.Population
import ModAtlas.Proofs.Service.Renewal
import ModAtlas.Proofs.Files.Finding
import ModAtlas.Proofs.Workspace.Loading
import ModAtlas.Proofs.Document.Nesting
import ModAtlas.Proofs.Schema.Precedence
import ModAtlas.Proofs.Reference.Precedence
import ModAtlas.Proofs.Workspace.Texts
import ModAtlas.Proofs.Service.Texts
import ModAtlas.Proofs.Validation.Verdict
import ModAtlas.Proofs.Validation.Violations
import ModAtlas.Proofs.Validation.Problems
import ModAtlas.Proofs.Validation.Targets
import ModAtlas.Proofs.Validation.Draft7
import ModAtlas.Proofs.Validation.Requirements
import ModAtlas.Proofs.Validation.Placement
import ModAtlas.Proofs.Schema.Force
import ModAtlas.Proofs.Service.Delivery
import ModAtlas.Proofs.Service.Settling
import ModAtlas.Proofs.CommandLine.Batch
import ModAtlas.Proofs.Text.Newlines
import ModAtlas.Proofs.Json.Newlines
import ModAtlas.Proofs.Document.Comments
import ModAtlas.Proofs.Document.Alike
import ModAtlas.Proofs.Document.Newlines
import ModAtlas.Proofs.Document.Exchange
import ModAtlas.Proofs.Files.Suffixes
import ModAtlas.Proofs.Reference.Acceptance
import ModAtlas.Proofs.Reference.Labels
import ModAtlas.Proofs.Files.Ways
import ModAtlas.Proofs.Text.Utf8
import ModAtlas.Proofs.Text.Percent
import ModAtlas.Proofs.Files.Uris
import ModAtlas.Proofs.Schema.Lookup
import ModAtlas.Proofs.Workspace.Indexing
import ModAtlas.Proofs.Text.Boundaries
import ModAtlas.Proofs.Text.Occurrences
import ModAtlas.Proofs.Workspace.KeyPositions
import ModAtlas.Proofs.Document.Strict
import ModAtlas.Proofs.Document.Keys
import ModAtlas.Proofs.Workspace.KeySearch
import ModAtlas.Proofs.Workspace.LocatedKeys
import ModAtlas.Proofs.Text.Lines
import ModAtlas.Proofs.Document.Innermost
import ModAtlas.Proofs.Service.Overwriting
import ModAtlas.Proofs.Reference.Locations
import ModAtlas.Proofs.Service.Definitions
import ModAtlas.Proofs.Document.Agreement
import ModAtlas.Proofs.Schema.Edits
import ModAtlas.Proofs.Schema.Corrections
import ModAtlas.Proofs.Schema.Sources
import ModAtlas.Proofs.Number.Overflow
import ModAtlas.Proofs.Document.Integers
import ModAtlas.Proofs.Number.Decimal
import ModAtlas.Proofs.Schema.Addresses
import ModAtlas.Proofs.Settings.Changes
import ModAtlas.Proofs.Settings.Contents
import ModAtlas.Proofs.Document.Insertion
import ModAtlas.Proofs.Reference.EmptyArrays
