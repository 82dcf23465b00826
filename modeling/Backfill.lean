import Backfill.Main
import Backfill.Scenario.Scripts
import Backfill.Rehearsal.Trial
import Backfill.Proofs.Axis
import Backfill.Proofs.Range.Values
import Backfill.Proofs.Range.Exclude
import Backfill.Proofs.Range.Pieces
import Backfill.Proofs.Range.Split
import Backfill.Proofs.Range.Todo
import Backfill.Proofs.Timestamp
import Backfill.Proofs.Coverage
import Backfill.Proofs.Store
import Backfill.Proofs.Store.Calls
import Backfill.Proofs.Plan.Shares
import Backfill.Proofs.Plan.Turns
import Backfill.Proofs.Plan.Served
import Backfill.Proofs.Plan.Rename
import Backfill.Proofs.Plan.Missing
import Backfill.Proofs.Plan.Recipients
import Backfill.Proofs.Plan.Exactness
import Backfill.Proofs.Plan.Slices
import Backfill.Proofs.Plan.Convergence
import Backfill.Proofs.Updater
import Backfill.Proofs.Assignment
import Backfill.Proofs.PacedCall
import Backfill.Proofs.Pass
import Backfill.Proofs.Pass.Feed
import Backfill.Proofs.Pass.Closing
import Backfill.Proofs.Plan.Scans
import Backfill.Proofs.Plan.Bounds
import Backfill.Proofs.Plan.Caps
import Backfill.Proofs.Plan.Recent
import Backfill.Proofs.Plan.Retries
import Backfill.Proofs.Plan.Samples
import Backfill.Proofs.Plan.Grid
import Backfill.Proofs.Pass.Imported
import Backfill.Proofs.Worker
import Backfill.Proofs.Worker.Rounds
import Backfill.Proofs.Updater.Run
import Backfill.Proofs.Weights
import Backfill.Proofs.Sharing
import Backfill.Proofs.Pass.Flags
import Backfill.Proofs.Runner
import Backfill.Proofs.Runner.Schedule
import Backfill.Proofs.PacedCall.Crowd
import Backfill.Proofs.Plan.Reach
import Backfill.Proofs.Plan.Batching
import Backfill.Proofs.Plan.Batches
import Backfill.Proofs.Plan.Newest
import Backfill.Proofs.PacedCall.Attempts
import Backfill.Proofs.Remote
import Backfill.Proofs.Remote.Batch
import Backfill.Proofs.Remote.Fault
import Backfill.Proofs.Remote.Quantity
import Backfill.Proofs.Pass.Attempts
import Backfill.Proofs.Runner.Posts
import Backfill.Proofs.Runner.Handover
import Backfill.Proofs.Pass.Searches
import Backfill.Proofs.Coverage.Flushes
import Backfill.Proofs.Plan.Deferral
import Backfill.Proofs.Plan.Costs
import Backfill.Proofs.Plan.Sums
import Backfill.Proofs.Plan.Ticks
import Backfill.Proofs.Weights.Portions
import Backfill.Proofs.Runner.Start
import Backfill.Proofs.Lock.Exclusive
import Backfill.Proofs.Lock.Waiting
import Backfill.Proofs.Pass.Outcomes
import Backfill.Proofs.PacedCall.Owners
import Backfill.Proofs.Plan.Tiling
import Backfill.Proofs.Plan.Packing
import Backfill.Proofs.Plan.Division
import Backfill.Proofs.Range.Beside
import Backfill.Proofs.Range.Ending
import Backfill.Proofs.Range.Slivers
import Backfill.Proofs.Range.Image
import Backfill.Proofs.Range.Millis
import Backfill.Proofs.Coverage.Instants
import Backfill.Proofs.ImportState
