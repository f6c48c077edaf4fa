import Jianpu.Cli.Arguments
import Jianpu.Cli.Compile
import Jianpu.Cli.Inspect
import Jianpu.Cli.Outcome
import Jianpu.Compile
import Jianpu.Composition
import Jianpu.Diagnostic
import Jianpu.Diagnostic.Excerpt
import Jianpu.Gzip.Bits
import Jianpu.Gzip.Huffman
import Jianpu.Gzip.Inflate
import Jianpu.Gzip.Member
import Jianpu.Journal
import Jianpu.Key
import Jianpu.Macro.Call
import Jianpu.Macro.Expander
import Jianpu.Macro.Expansion
import Jianpu.Macro.Scope
import Jianpu.Macro.Stack
import Jianpu.Main
import Jianpu.Pitch
import Jianpu.Proofs.Diagnostic.Marking
import Jianpu.Proofs.Macro.Binding
import Jianpu.Proofs.Macro.Braces
import Jianpu.Proofs.Macro.Dialogue
import Jianpu.Proofs.Macro.Ends
import Jianpu.Proofs.Macro.Feed
import Jianpu.Proofs.Macro.Flat
import Jianpu.Proofs.Macro.Flatten
import Jianpu.Proofs.Macro.Height
import Jianpu.Proofs.Macro.Level
import Jianpu.Proofs.Macro.Matched
import Jianpu.Proofs.Macro.Moves
import Jianpu.Proofs.Macro.Pattern
import Jianpu.Proofs.Macro.PlainReads
import Jianpu.Proofs.Macro.Reports
import Jianpu.Proofs.Macro.Scoping
import Jianpu.Proofs.Macro.Serve
import Jianpu.Proofs.Macro.Spans
import Jianpu.Proofs.Schedule.Alike
import Jianpu.Proofs.Schedule.Arrival
import Jianpu.Proofs.Schedule.Balance
import Jianpu.Proofs.Schedule.Cues
import Jianpu.Proofs.Schedule.Drain
import Jianpu.Proofs.Schedule.Gaps
import Jianpu.Proofs.Schedule.History
import Jianpu.Proofs.Schedule.Merge
import Jianpu.Proofs.Schedule.Notes
import Jianpu.Proofs.Schedule.Performance
import Jianpu.Proofs.Schedule.Play
import Jianpu.Proofs.Schedule.Rendition
import Jianpu.Proofs.Schedule.Stage
import Jianpu.Proofs.Schedule.Staging
import Jianpu.Proofs.Schedule.Timeline
import Jianpu.Proofs.Schedule.Turns
import Jianpu.Proofs.Score.BuildRecord
import Jianpu.Proofs.Score.Builder
import Jianpu.Proofs.Score.Chain
import Jianpu.Proofs.Score.FilledSlots
import Jianpu.Proofs.Score.ForkJoin
import Jianpu.Proofs.Score.Fronts
import Jianpu.Proofs.Score.Links
import Jianpu.Proofs.Score.Nesting
import Jianpu.Proofs.Score.Pace
import Jianpu.Proofs.Score.Shape
import Jianpu.Proofs.Score.Weave
import Jianpu.Proofs.Sheet.Acceptance
import Jianpu.Proofs.Sheet.Arguments
import Jianpu.Proofs.Sheet.Beside
import Jianpu.Proofs.Sheet.Bookkeeping
import Jianpu.Proofs.Sheet.BuilderGrowth
import Jianpu.Proofs.Sheet.Builds
import Jianpu.Proofs.Sheet.Draft
import Jianpu.Proofs.Sheet.Entries
import Jianpu.Proofs.Sheet.Grammar
import Jianpu.Proofs.Sheet.Instructions
import Jianpu.Proofs.Sheet.Manuscript
import Jianpu.Proofs.Sheet.Marks
import Jianpu.Proofs.Sheet.Meaning
import Jianpu.Proofs.Sheet.Parts
import Jianpu.Proofs.Sheet.Passage
import Jianpu.Proofs.Sheet.PassageReading
import Jianpu.Proofs.Sheet.Phrase
import Jianpu.Proofs.Sheet.PhraseReading
import Jianpu.Proofs.Sheet.Ranges
import Jianpu.Proofs.Sheet.Regroup
import Jianpu.Proofs.Sheet.Requests
import Jianpu.Proofs.Sheet.Roster
import Jianpu.Proofs.Sheet.SameTracks
import Jianpu.Proofs.Sheet.Script
import Jianpu.Proofs.Sheet.SheetState
import Jianpu.Proofs.Sheet.Spans
import Jianpu.Proofs.Sheet.Steps
import Jianpu.Proofs.Sheet.Strip
import Jianpu.Proofs.Sheet.Tracks
import Jianpu.Proofs.Sheet.Untimed
import Jianpu.Proofs.Sheet.Voices
import Jianpu.Proofs.Smf.Distances
import Jianpu.Proofs.Smf.Files
import Jianpu.Proofs.Smf.Messages
import Jianpu.Proofs.Smf.Output
import Jianpu.Proofs.Smf.Retrigger
import Jianpu.Proofs.Smf.Verbatim
import Jianpu.Proofs.Text.Columns
import Jianpu.Proofs.Text.Order
import Jianpu.Proofs.Text.Utf8
import Jianpu.Proofs.Token.Appended
import Jianpu.Proofs.Token.Layout
import Jianpu.Proofs.Token.Places
import Jianpu.Proofs.Token.Quoted
import Jianpu.Proofs.Token.Rescan
import Jianpu.Proofs.Token.Scanned
import Jianpu.Publish
import Jianpu.Schedule.Event
import Jianpu.Schedule.Overlap
import Jianpu.Schedule.Queue
import Jianpu.Score.Double
import Jianpu.Score.Graph
import Jianpu.Score.Modifier
import Jianpu.Score.Strand
import Jianpu.Sheet.Argument
import Jianpu.Sheet.Arrange
import Jianpu.Sheet.Body
import Jianpu.Sheet.Directive
import Jianpu.Sheet.Parse
import Jianpu.Smf.Chunk
import Jianpu.Smf.Message
import Jianpu.Smf.Quantity
import Jianpu.Smf.Reader
import Jianpu.Smf.Report
import Jianpu.Smf.Writer
import Jianpu.Table
import Jianpu.Text.Blank
import Jianpu.Text.Hex
import Jianpu.Text.Json
import Jianpu.Text.Lines
import Jianpu.Text.Numeral
import Jianpu.Text.Position
import Jianpu.Text.Terminal
import Jianpu.Text.Utf8
import Jianpu.Token
import Jianpu.Token.Scan
import Jianpu.Token.Source
