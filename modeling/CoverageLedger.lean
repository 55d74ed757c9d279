import CoverageLedger.Calendar
import CoverageLedger.Carry
import CoverageLedger.CommandLine
import CoverageLedger.CommandLine.Usage
import CoverageLedger.Commands
import CoverageLedger.Decimal.Binary64
import CoverageLedger.Decimal.Fixed
import CoverageLedger.Decimal.Reader
import CoverageLedger.Decimal.Shortest
import CoverageLedger.Diff
import CoverageLedger.Diff.Shift
import CoverageLedger.Diff.Unified
import CoverageLedger.Error
import CoverageLedger.Json.Basic
import CoverageLedger.Json.Printer
import CoverageLedger.Json.Reader
import CoverageLedger.Line
import CoverageLedger.Line.Merge
import CoverageLedger.Line.Record
import CoverageLedger.LineRanges
import CoverageLedger.Main
import CoverageLedger.PathFilter
import CoverageLedger.Pattern
import CoverageLedger.Pattern.Class
import CoverageLedger.Pattern.Footprint
import CoverageLedger.Pattern.Language
import CoverageLedger.Pattern.Reader
import CoverageLedger.Pattern.Simplest
import CoverageLedger.Program
import CoverageLedger.Reading
import CoverageLedger.Reading.Merge
import CoverageLedger.Report
import CoverageLedger.Report.Archive
import CoverageLedger.Report.Edit
import CoverageLedger.Session
import CoverageLedger.Settings
import CoverageLedger.Settings.Toml
import CoverageLedger.Settings.Toml.Text
import CoverageLedger.Settings.Toml.Value
import CoverageLedger.Settings.Value
import CoverageLedger.Shadow
import CoverageLedger.SourceFile
import CoverageLedger.Store
import CoverageLedger.Store.FileForm
import CoverageLedger.Table
import CoverageLedger.Text.Blank
import CoverageLedger.Text.ByteRange
import CoverageLedger.Text.CharSet
import CoverageLedger.Text.Folding
import CoverageLedger.Text.Numeral
import CoverageLedger.Text.Rows
import CoverageLedger.Text.Utf8
import CoverageLedger.Text.Word
import CoverageLedger.Totals
import CoverageLedger.Tracefile
import CoverageLedger.Upload
import CoverageLedger.View
import CoverageLedger.Proofs.Report.Slots
import CoverageLedger.Proofs.Report.Deletion
import CoverageLedger.Proofs.Report.Consistency
import CoverageLedger.Proofs.View.Carried
import CoverageLedger.Proofs.Decimal.Binary64
import CoverageLedger.Proofs.Reading.Merge
import CoverageLedger.Proofs.Line.Sessions
import CoverageLedger.Proofs.Report.Append
import CoverageLedger.Proofs.Upload.Source
import CoverageLedger.Proofs.Upload.Order
import CoverageLedger.Proofs.Json.Scalars
import CoverageLedger.Proofs.Json.Documents
import CoverageLedger.Proofs.Json.Accepted
import CoverageLedger.Proofs.Json.Records
import CoverageLedger.Proofs.Line.Stored
import CoverageLedger.Proofs.Report.Manifest
import CoverageLedger.Proofs.Report.Archive
import CoverageLedger.Proofs.SourceFile.Sound
import CoverageLedger.Proofs.Report.Sound
import CoverageLedger.Proofs.Report.Edits
import CoverageLedger.Proofs.Report.Reached
import CoverageLedger.Proofs.Store.Saved
import CoverageLedger.Proofs.SourceFile.Sessions
import CoverageLedger.Proofs.Text.Pieces
import CoverageLedger.Proofs.SourceFile.Unread
import CoverageLedger.Proofs.Upload.Told
import CoverageLedger.Proofs.Upload.Improvement
import CoverageLedger.Proofs.Upload.Undone
import CoverageLedger.Proofs.SourceFile.Tally
import CoverageLedger.Proofs.Report.Rows
import CoverageLedger.Proofs.Report.Each
import CoverageLedger.Proofs.Report.Current
import CoverageLedger.Proofs.Store.Loaded
import CoverageLedger.Proofs.Store.History
import CoverageLedger.Proofs.Shadow.Calls
import CoverageLedger.Proofs.Shadow.Recorded
import CoverageLedger.Proofs.Shadow.Watched
import CoverageLedger.Proofs.Store.Arena
import CoverageLedger.Proofs.Line.Accounted
import CoverageLedger.Proofs.Report.AllLines
import CoverageLedger.Proofs.Upload.Lines
import CoverageLedger.Proofs.Decimal.Rounding
import CoverageLedger.Proofs.Decimal.ReadBack
import CoverageLedger.Proofs.Json.Counts
import CoverageLedger.Proofs.Line.Steady
import CoverageLedger.Proofs.View.Shares
import CoverageLedger.Proofs.View.Lent
import CoverageLedger.Proofs.Reading.Columns
import CoverageLedger.Proofs.Reading.ColumnWalk
import CoverageLedger.Proofs.Line.AnyOrder
import CoverageLedger.Proofs.Diff.Lands
import CoverageLedger.Proofs.SourceFile.Shifted
import CoverageLedger.Proofs.SourceFile.Kept
import CoverageLedger.Proofs.Upload.Contribution
import CoverageLedger.Proofs.Report.Spared
import CoverageLedger.Proofs.Line.Rederived
import CoverageLedger.Proofs.Report.Untagged
import CoverageLedger.Proofs.Report.Labels
import CoverageLedger.Proofs.SourceFile.Refused
import CoverageLedger.Proofs.Report.Resolved
import CoverageLedger.Proofs.Report.Renumbered
import CoverageLedger.Proofs.View.Renumbered
import CoverageLedger.Proofs.Report.Copied
import CoverageLedger.Proofs.Diff.Printed
import CoverageLedger.Proofs.Line.Decoded
import CoverageLedger.Proofs.Report.Entries
import CoverageLedger.Proofs.Tracefile.OnePass
import CoverageLedger.Proofs.Upload.Exact
import CoverageLedger.Proofs.Line.Absorbed
import CoverageLedger.Proofs.Upload.Absorbed
import CoverageLedger.Proofs.Line.Datapoints
import CoverageLedger.Proofs.LineRanges.Bridged
import CoverageLedger.Proofs.Carry.Rounds
import CoverageLedger.Proofs.Report.NextSession
import CoverageLedger.Proofs.Carry.LeftBehind
