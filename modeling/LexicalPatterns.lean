import LexicalPatterns.Text.Span
import LexicalPatterns.Text.Escaped
import LexicalPatterns.Token.Basic
import LexicalPatterns.Token.Quote
import LexicalPatterns.Token.Scan
import LexicalPatterns.Syntax.Tree
import LexicalPatterns.Syntax.Forest
import LexicalPatterns.Syntax.Builder
import LexicalPatterns.Syntax.Parse
import LexicalPatterns.Machine.Instruction
import LexicalPatterns.Machine.CodeBuffer
import LexicalPatterns.Machine.CompileError
import LexicalPatterns.Machine.Run
import LexicalPatterns.NameTable
import LexicalPatterns.Program
import LexicalPatterns.Batch
import LexicalPatterns.Text.CharRanges
import LexicalPatterns.Text.Printable
import LexicalPatterns.Text.GraphemeExtend
import LexicalPatterns.Text.Quoted
import LexicalPatterns.Text.Utf8
import LexicalPatterns.Text.Lines
import LexicalPatterns.Text.Terminal
import LexicalPatterns.Text.Json
import LexicalPatterns.Document
import LexicalPatterns.Diagnostic
import LexicalPatterns.Origins
import LexicalPatterns.Library
import LexicalPatterns.Report.Basic
import LexicalPatterns.Report.Text
import LexicalPatterns.Report.Json
import LexicalPatterns.Report.Format
import LexicalPatterns.Report.Listing
import LexicalPatterns.Text.WhiteSpace
import LexicalPatterns.Yaml.Character
import LexicalPatterns.Yaml.Scalar
import LexicalPatterns.Yaml.Token
import LexicalPatterns.Yaml.Value
import LexicalPatterns.Settings
import LexicalPatterns.Files.Path
import LexicalPatterns.Files.Tree
import LexicalPatterns.Files.Glob
import LexicalPatterns.Files.Glob.Match
import LexicalPatterns.Files.Glob.Expression
import LexicalPatterns.Files.Ignore
import LexicalPatterns.Files.Read
import LexicalPatterns.Files.Repository
import LexicalPatterns.Files.IgnoreLevel
import LexicalPatterns.Files.Discover
import LexicalPatterns.Files.Search
import LexicalPatterns.CommandLine.Arguments
import LexicalPatterns.CommandLine.Run
import LexicalPatterns.Main
import LexicalPatterns.Proofs.Except
import LexicalPatterns.Proofs.Machine.Backtrack
import LexicalPatterns.Proofs.Machine.Moves
import LexicalPatterns.Proofs.Machine.Stall
import LexicalPatterns.Proofs.Machine.Generation
import LexicalPatterns.Proofs.Machine.Worklist
import LexicalPatterns.Proofs.Machine.Duplicates
import LexicalPatterns.Proofs.Machine.DepthFirst
import LexicalPatterns.Proofs.Machine.FullRun
import LexicalPatterns.Proofs.Machine.Termination
import LexicalPatterns.Proofs.Machine.Limits
import LexicalPatterns.Proofs.Machine.Relocation
import LexicalPatterns.Proofs.Machine.Agree
import LexicalPatterns.Proofs.Machine.Reachable
import LexicalPatterns.Proofs.Machine.Search
import LexicalPatterns.Proofs.Meaning.Basic
import LexicalPatterns.Proofs.Meaning.Empty
import LexicalPatterns.Proofs.Meaning.Layout
import LexicalPatterns.Proofs.Meaning.Drafts
import LexicalPatterns.Proofs.NameTable.Buckets
import LexicalPatterns.Proofs.NameTable.Lookup
import LexicalPatterns.Proofs.NameTable.Registration
import LexicalPatterns.Proofs.Syntax.Derivation
import LexicalPatterns.Proofs.Syntax.Readers
import LexicalPatterns.Proofs.Syntax.Soundness
import LexicalPatterns.Proofs.Batch.Contents
import LexicalPatterns.Proofs.Batch.Patterns
import LexicalPatterns.Proofs.Program.Meaning
import LexicalPatterns.Proofs.Meaning.Closed
import LexicalPatterns.Proofs.Meaning.Forks
import LexicalPatterns.Proofs.Meaning.Uses
import LexicalPatterns.Proofs.Batch.Session
import LexicalPatterns.Proofs.Batch.Tiling
import LexicalPatterns.Proofs.Batch.References
import LexicalPatterns.Proofs.Program.Independence
import LexicalPatterns.Proofs.Program.Order
import LexicalPatterns.Proofs.Syntax.Completeness
import LexicalPatterns.Proofs.Syntax.Building
import LexicalPatterns.Proofs.Syntax.Grammar
import LexicalPatterns.Proofs.Emission.Draft
import LexicalPatterns.Proofs.Emission.Steps
import LexicalPatterns.Proofs.Emission.Repetitions
import LexicalPatterns.Proofs.Emission.Trees
import LexicalPatterns.Proofs.Emission.Check
import LexicalPatterns.Proofs.Emission.Afresh
import LexicalPatterns.Proofs.Batch.Rollback
import LexicalPatterns.Proofs.Batch.Validity
import LexicalPatterns.Proofs.Batch.Afresh
import LexicalPatterns.Proofs.Tokens.Scanning
import LexicalPatterns.Proofs.Tokens.Shapes
import LexicalPatterns.Proofs.Tokens.Bytes
import LexicalPatterns.Proofs.Tokens.Tiling
import LexicalPatterns.Proofs.Shift.Basic
import LexicalPatterns.Proofs.Shift.Tokens
import LexicalPatterns.Proofs.Shift.Syntax
import LexicalPatterns.Proofs.Shift.Emission
import LexicalPatterns.Proofs.Shift.Batch
import LexicalPatterns.Proofs.Shift.Source
import LexicalPatterns.Proofs.Meaning.Mentions
import LexicalPatterns.Proofs.Library.Loading
import LexicalPatterns.Proofs.Library.Strictness
import LexicalPatterns.Proofs.Library.Warnings
import LexicalPatterns.Proofs.Emission.Size
import LexicalPatterns.Proofs.Batch.Size
import LexicalPatterns.Proofs.Tokens.Literals
import LexicalPatterns.Proofs.Tokens.Shown
import LexicalPatterns.Proofs.Syntax.Positions
import LexicalPatterns.Proofs.Syntax.Construction
import LexicalPatterns.Proofs.Syntax.Histories
import LexicalPatterns.Proofs.Syntax.Placement
import LexicalPatterns.Proofs.Syntax.Spans
import LexicalPatterns.Proofs.Documents.Starts
import LexicalPatterns.Proofs.Documents.Places
import LexicalPatterns.Proofs.Documents.Lookup
import LexicalPatterns.Proofs.Library.Pointing
import LexicalPatterns.Proofs.Syntax.Checked
import LexicalPatterns.Proofs.Syntax.Safety
import LexicalPatterns.Proofs.Batch.Blame
import LexicalPatterns.Proofs.Batch.Location
import LexicalPatterns.Proofs.Library.Columns
import LexicalPatterns.Proofs.Syntax.Addresses
import LexicalPatterns.Proofs.Syntax.Flattening
import LexicalPatterns.Proofs.Listings.Lines
import LexicalPatterns.Proofs.Listings.Tokens
import LexicalPatterns.Proofs.Listings.Display
import LexicalPatterns.Proofs.Batch.Identifiers
import LexicalPatterns.Proofs.Listings.Instructions
import LexicalPatterns.Proofs.Files.Segments
import LexicalPatterns.Proofs.Files.Order
import LexicalPatterns.Proofs.Files.Reached
import LexicalPatterns.Proofs.Files.Search
import LexicalPatterns.Proofs.Files.Distinct
import LexicalPatterns.Proofs.Machine.Growth
