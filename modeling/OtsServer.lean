import OtsServer.Library.Bytes
import OtsServer.Library.Sha256
import OtsServer.Library.HashChain
import OtsServer.Library.Text
import OtsServer.Library.Transition
import OtsServer.Library.Prog
import OtsServer.Library.Directory
import OtsServer.Library.Streaks
import OtsServer.Library.Traverse
import OtsServer.Library.Slots
import OtsServer.Library.JsonValue
import OtsServer.VerifyClaim.Proof
import OtsServer.VerifyClaim.Grammar
import OtsServer.VerifyClaim.Reading
import OtsServer.VerifyClaim.Accepts
import OtsServer.VerifyClaim.Headers
import OtsServer.VerifyClaim.Chain
import OtsServer.VerifyClaim.Verdict
import OtsServer.VerifyClaim.Pinning
import OtsServer.VerifyClaim.Bound
import OtsServer.Aggregator.Threads
import OtsServer.Aggregator.Committed
import OtsServer.Aggregator.Horizon
import OtsServer.Service.World
import OtsServer.Service.Storage
import OtsServer.Service.Receipts
import OtsServer.Service.Blocks
import OtsServer.Service.Pass
import OtsServer.Service.Runs
import OtsServer.Service.Moves
import OtsServer.Service.Lines
import OtsServer.Service.ReceiptSteps
import OtsServer.Service.PassSteps
import OtsServer.Service.Steps
import OtsServer.Service.Entries
import OtsServer.Service.Json
import OtsServer.Service.Ledger
import OtsServer.Service.Watermarks
import OtsServer.Service.Earned
import OtsServer.Service.Restart
import OtsServer.Service.Discovery
import OtsServer.Service.Refusals
import OtsServer.Service.Repairs
import OtsServer.Service.Departure
import OtsServer.Journal.Writer
import OtsServer.Journal.Kept
import OtsServer.Selfstamp.Ots
import OtsServer.Selfstamp.Readers
import OtsServer.Selfstamp.Splice
import OtsServer.Selfstamp.Files
import OtsServer.Selfstamp.Passes
import OtsServer.Selfstamp.Shelf
import OtsServer.Selfstamp.Improves
import OtsServer.Selfstamp.Foreign
import OtsServer.Selfstamp.Strongest
import OtsServer.Selfstamp.Manifest
import OtsServer.Selfstamp.Inbox
import OtsServer.Selfstamp.Desk
import OtsServer.Selfstamp.Sparing
import OtsServer.Selfstamp.Faults
import OtsServer.Selfstamp.Matching
import OtsServer.Selfstamp.Companions
import OtsServer.Selfstamp.Consumed
import OtsServer.Selfstamp.Orphans
import OtsServer.Selfstamp.Reached
import OtsServer.Selfstamp.Handled
import OtsServer.Selfstamp.Mispaired
import OtsServer.Selfstamp.Awaiting
import OtsServer.ExportHeaders.Export
import OtsServer.ExportHeaders.Chained
import OtsServer.ExportHeaders.Runs
import OtsServer.LevelDb.Store
import OtsServer.LevelDb.Facts
import OtsServer.LevelDb.Merge
import OtsServer.LevelDb.Unfolding
import OtsServer.LevelDb.Plain
import OtsServer.Watch.Queue
import OtsServer.Watch.Run
import OtsServer.Watch.Steps
import OtsServer.Watch.Orderly
import OtsServer.Watch.Capped
import OtsServer.Watch.Once
import OtsServer.Watch.Exact
import OtsServer.Watch.Decide
import OtsServer.Watch.Alarm
import OtsServer.Watch.Closed
import OtsServer.Watch.Outage
import OtsServer.LevelDb.Batches
import OtsServer.BlockPath.Anchor
import OtsServer.Selfstamp.Vouched
import OtsServer.VerifyClaim.Codec
import OtsServer.Service.Foreign
import OtsServer.Service.Settled
import OtsServer.Library.Lines
import OtsServer.Selfstamp.Binding
import OtsServer.Selfstamp.Returning
import OtsServer.Selfstamp.Verdicts
import OtsServer.Watch.Sourced
import OtsServer.Service.Owed
import OtsServer.Service.Versions
import OtsServer.Service.Mature
import OtsServer.Service.Counts
import OtsServer.Service.Billing
import OtsServer.Service.Undercount
import OtsServer.Selfstamp.Rescued
import OtsServer.Selfstamp.Written
