import HintQuality.Align
import HintQuality.Correspondence
import HintQuality.Dataset.HintSet
import HintQuality.Dataset.Rating
import HintQuality.Dataset.Run
import HintQuality.Decimal.Binary
import HintQuality.Decimal.Notation
import HintQuality.Decimal.Reader
import HintQuality.Decimal.Shortest
import HintQuality.Diff
import HintQuality.Digest.Basic
import HintQuality.Digest.Block
import HintQuality.Digest.Md5
import HintQuality.Digest.Sha1
import HintQuality.Digest.Sha256
import HintQuality.Edit.Basic
import HintQuality.Edit.Export
import HintQuality.Edit.Key
import HintQuality.EventLog.Console
import HintQuality.EventLog.Icon
import HintQuality.EventLog.Journal
import HintQuality.Failure
import HintQuality.Folder.Basic
import HintQuality.Folder.Path
import HintQuality.Gold.Basic
import HintQuality.Gold.Spreadsheet
import HintQuality.Grove.Basic
import HintQuality.Grove.Prune
import HintQuality.Grove.Normalize
import HintQuality.Grove.Columns
import HintQuality.Hint
import HintQuality.Increasing
import HintQuality.Json.Basic
import HintQuality.Json.Display
import HintQuality.Json.Number
import HintQuality.Json.Parser
import HintQuality.Json.Printer
import HintQuality.Main
import HintQuality.Normalize
import HintQuality.Outcome
import HintQuality.Policy
import HintQuality.Proofs.LawfulView
import HintQuality.Proofs.Position
import HintQuality.Rating.Basic
import HintQuality.Rating.Export
import HintQuality.Rating.Listing
import HintQuality.Rating.Matching
import HintQuality.Rating.Report
import HintQuality.Rating.Request
import HintQuality.Rating.Run
import HintQuality.Rating.Score
import HintQuality.Rating.Table
import HintQuality.Settings.Basic
import HintQuality.Settings.Check
import HintQuality.Settings.Compose
import HintQuality.Settings.Merge
import HintQuality.Settings.Override
import HintQuality.Settings.Preset
import HintQuality.Settings.Reference
import HintQuality.Settings.Source
import HintQuality.Sheet.Basic
import HintQuality.Sheet.Export
import HintQuality.Sorting
import HintQuality.Text.Blank
import HintQuality.Text.Digit
import HintQuality.Text.Lines
import HintQuality.Text.Markup
import HintQuality.Text.Printable
import HintQuality.Text.Quoted
import HintQuality.Trace
import HintQuality.Tree.Basic
import HintQuality.Tree.Numbering
import HintQuality.Tree.Outline
import HintQuality.Tree.Reader
import HintQuality.Tree.Slot
import HintQuality.Tree.Writer
import HintQuality.Validity
import HintQuality.View
import HintQuality.Weight
import HintQuality.Yaml.Cursor
import HintQuality.Yaml.Node
import HintQuality.Yaml.Reader
import HintQuality.Yaml.Scalar
import HintQuality.Yaml.Text
import HintQuality.Yaml.Token
import HintQuality.Yaml.Writer
import HintQuality.Proofs.Pairing
import HintQuality.Proofs.Increasing
import HintQuality.Proofs.Moves
import HintQuality.Proofs.Keys
import HintQuality.Proofs.EditSets
import HintQuality.Proofs.Faithful
import HintQuality.Proofs.WellFormed
import HintQuality.Proofs.Recovery
import HintQuality.Proofs.Stability
import HintQuality.Proofs.Consistency
import HintQuality.Proofs.StableSort
import HintQuality.Proofs.Verdict
import HintQuality.Proofs.Independence
import HintQuality.Proofs.FreshNames
import HintQuality.Proofs.Insertion
import HintQuality.Proofs.ExtraNode
import HintQuality.Proofs.Leftovers
import HintQuality.Proofs.MoreHints
import HintQuality.Proofs.Grouping
import HintQuality.Proofs.Attribution
import HintQuality.Proofs.JsonText
import HintQuality.Proofs.TreeText
import HintQuality.Proofs.DecimalText
import HintQuality.Proofs.Doubles
import HintQuality.Proofs.SheetText
import HintQuality.Proofs.Spreadsheet
import HintQuality.Proofs.MinimalMoves
import HintQuality.Proofs.Accounting
import HintQuality.Proofs.LongestBlocks
import HintQuality.Proofs.Twins
import HintQuality.Proofs.Unchanged
import HintQuality.Proofs.RunEvents
import HintQuality.Proofs.NormalValues
import HintQuality.Proofs.LostIds
import HintQuality.Proofs.Part
import HintQuality.Proofs.Pruning
import HintQuality.Proofs.Emptied
import HintQuality.Proofs.PruningInPlace
import HintQuality.Proofs.Renaming
import HintQuality.Proofs.GroveSteps
import HintQuality.Proofs.Standing
import HintQuality.Proofs.Planting
import HintQuality.Proofs.NormalizingInPlace
import HintQuality.Proofs.ExactWeights
import HintQuality.Proofs.Scores
import HintQuality.Proofs.Endorsement
import HintQuality.Proofs.ScoreViews
import HintQuality.Proofs.Attachments
import HintQuality.Gold.Groups
import HintQuality.Proofs.Lookups
import HintQuality.Proofs.ExactIntegers
import HintQuality.Proofs.HintIds
import HintQuality.Proofs.ExportedIds
import HintQuality.Proofs.NodeGrammar
import HintQuality.Proofs.TreeSources
import HintQuality.Proofs.Reweighing
import HintQuality.Proofs.TextLines
import HintQuality.Proofs.LineDiffs
import HintQuality.Proofs.DiffContext
import HintQuality.Proofs.DiffMarkup
import HintQuality.Proofs.ChildLabels
import HintQuality.Increasing.Links
import HintQuality.Proofs.SelectionLinks
import HintQuality.Edit.KeyTable
import HintQuality.Proofs.KeyTable
import HintQuality.Proofs.Numbering
import HintQuality.EventLog.Session
import HintQuality.Proofs.NumberText
import HintQuality.Proofs.FolderWays
import HintQuality.Proofs.Rotation
import HintQuality.Proofs.LogLines
import HintQuality.Proofs.BoundData
import HintQuality.Proofs.ReadingBack
import HintQuality.Proofs.Rounding
import HintQuality.Proofs.Packing
import HintQuality.Proofs.DecimalDoubles
import HintQuality.Proofs.ShortestDecimals
import HintQuality.Proofs.DoubleText
