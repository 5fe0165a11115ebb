import TaskTidy.Main
import TaskTidy.Proofs.Reflowed
import TaskTidy.Proofs.Renames
import TaskTidy.Proofs.RoundTrip
import TaskTidy.Proofs.ScalarInjections
import TaskTidy.Proofs.Stability
import TaskTidy.Proofs.UniqueKeys
import TaskTidy.Rule.Stock
import TaskTidy.Proofs.ExactLog
import TaskTidy.Proofs.Withdrawal
import TaskTidy.Proofs.LineEnds
import TaskTidy.Proofs.Canonical
import TaskTidy.Proofs.Rereading
import TaskTidy.Proofs.SecondRun
import TaskTidy.Proofs.Separation
import TaskTidy.Proofs.Boundary
import TaskTidy.Proofs.LineSeparation
import TaskTidy.Proofs.LowerBlocks
import TaskTidy.Proofs.BlockSeparation
import TaskTidy.Proofs.Independence
import TaskTidy.Proofs.Outlines
import TaskTidy.Proofs.Endless
import TaskTidy.Proofs.Noninterference
import TaskTidy.Proofs.Endings
import TaskTidy.Proofs.FoldedMarks
import TaskTidy.Proofs.CommandOrder
import TaskTidy.Proofs.FieldOrder
import TaskTidy.Proofs.HiddenFields
import TaskTidy.Proofs.FileTrees
import TaskTidy.Proofs.SecondFields
import TaskTidy.Proofs.Batches
import TaskTidy.Proofs.RunEffects
import TaskTidy.Proofs.Backups
import TaskTidy.Proofs.Reassembly
import TaskTidy.Proofs.Sequences
import TaskTidy.Proofs.OtherFields
import TaskTidy.Proofs.ScalarReach
import TaskTidy.Proofs.KeptKeys
import TaskTidy.Proofs.CommaEdits
import TaskTidy.Proofs.Plays
import TaskTidy.Proofs.Listings
import TaskTidy.Proofs.StrictTasks
import TaskTidy.Proofs.Notes
import TaskTidy.Proofs.NotedDocuments
import TaskTidy.Proofs.Registrations
import TaskTidy.Proofs.LayeredSettings
import TaskTidy.Proofs.FoundFiles
import TaskTidy.Proofs.ByteOffsets
import TaskTidy.Proofs.QuotedText
