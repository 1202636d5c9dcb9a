import StyleCheck.Analysis
import StyleCheck.Animation.Binding
import StyleCheck.Animation.Name
import StyleCheck.Audit.Issue
import StyleCheck.Audit.Run
import StyleCheck.Cascade.Conflict
import StyleCheck.Cascade.Merge
import StyleCheck.CommandLine.Arguments
import StyleCheck.CommandLine.Run
import StyleCheck.Declaration
import StyleCheck.Identifier.Category
import StyleCheck.Identifier.Extract
import StyleCheck.Identifier.Set
import StyleCheck.Identifier.Tally
import StyleCheck.Integrity.Comparison
import StyleCheck.Integrity.Score
import StyleCheck.Main
import StyleCheck.Parse.Block
import StyleCheck.Parse.Comment
import StyleCheck.Parse.Problem
import StyleCheck.Parse.Quoting
import StyleCheck.Proofs.Cascade.Contention
import StyleCheck.Proofs.Cascade.Settled
import StyleCheck.Proofs.Distinct
import StyleCheck.Proofs.Identifier.Grouping
import StyleCheck.Proofs.Identifier.Lines
import StyleCheck.Proofs.Identifier.Tallies
import StyleCheck.Proofs.Parse.Blocks
import StyleCheck.Proofs.Parse.Clean
import StyleCheck.Proofs.Parse.Comments
import StyleCheck.Proofs.Parse.Concatenation
import StyleCheck.Proofs.Parse.Continuation
import StyleCheck.Proofs.Parse.Items
import StyleCheck.Proofs.Parse.Lexing
import StyleCheck.Proofs.Parse.Literals
import StyleCheck.Proofs.Parse.Marks
import StyleCheck.Proofs.Parse.Nesting
import StyleCheck.Proofs.Parse.Recovery
import StyleCheck.Proofs.Parse.Rules
import StyleCheck.Proofs.Parse.Tracing
import StyleCheck.Proofs.RoundTrip
import StyleCheck.Proofs.Text.Blank
import StyleCheck.Proofs.Text.Cutting
import StyleCheck.Proofs.Text.Respacing
import StyleCheck.Proofs.Text.Tracing
import StyleCheck.Proofs.Theme.Partition
import StyleCheck.Proofs.Variable.Dictionary
import StyleCheck.Report.Json
import StyleCheck.Report.Plain
import StyleCheck.Report.Value
import StyleCheck.Rule
import StyleCheck.Script.Catalog
import StyleCheck.Script.Pattern
import StyleCheck.Script.Scan
import StyleCheck.Selector.Basic
import StyleCheck.Selector.Names
import StyleCheck.Selector.Theme
import StyleCheck.Source.Decoding
import StyleCheck.Source.FileTree
import StyleCheck.Source.Kind
import StyleCheck.Source.Load
import StyleCheck.Stylesheet
import StyleCheck.Text.Basic
import StyleCheck.Text.Word
import StyleCheck.ThemeSplit
import StyleCheck.Variable.Colour
import StyleCheck.Variable.Diff
import StyleCheck.Variable.Map
import StyleCheck.Proofs.Theme.Scopes
import StyleCheck.Proofs.Animation.Crosscheck
import StyleCheck.Proofs.Parse.Plain
import StyleCheck.Proofs.Animation.Pairing
import StyleCheck.Proofs.Identifier.Reduction
import StyleCheck.Proofs.Integrity.Preservation
import StyleCheck.Proofs.Variable.Comparison
import StyleCheck.Proofs.Audit.Findings
import StyleCheck.Proofs.CommandLine.Auditing
import StyleCheck.Proofs.Parse.Removal
import StyleCheck.Proofs.Parse.LineEndings
import StyleCheck.Proofs.Parse.CommentContents
import StyleCheck.Proofs.RenderedLiterals
import StyleCheck.Proofs.Cascade.Emptied
import StyleCheck.Proofs.Identifier.Merging
import StyleCheck.Proofs.Variable.Counted
import StyleCheck.Proofs.Audit.EmptiedRules
import StyleCheck.Proofs.Parse.Canonical
import StyleCheck.Proofs.Parse.Closing
import StyleCheck.Proofs.Bytes.Names
import StyleCheck.Proofs.Bytes.Refinement
import StyleCheck.Proofs.Bytes.Stripping
import StyleCheck.Proofs.Selector.Parts
import StyleCheck.Proofs.Declaration.Decoding
import StyleCheck.Proofs.Bytes.Runs
import StyleCheck.Proofs.Parse.Preludes
import StyleCheck.Proofs.Theme.Quoted
import StyleCheck.Proofs.Variable.Keys
import StyleCheck.Proofs.Variable.Colours
import StyleCheck.Proofs.Audit.Limits
import StyleCheck.Proofs.Cascade.Duplicates
import StyleCheck.Proofs.Script.Matching
import StyleCheck.Proofs.Script.Recording
import StyleCheck.Proofs.Script.References
import StyleCheck.Proofs.Parse.Urls
import StyleCheck.Proofs.Identifier.Indexed
import StyleCheck.Proofs.Identifier.Descent
import StyleCheck.Proofs.Theme.Independence
import StyleCheck.Proofs.CommandLine.Splitting
import StyleCheck.Proofs.Integrity.Rounding
