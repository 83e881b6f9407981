import DistribuQ.Library.Table
import DistribuQ.Library.SortedSet
import DistribuQ.Library.Tally
import DistribuQ.Library.Transition
import DistribuQ.Library.Matching
import DistribuQ.Library.Eventually
import DistribuQ.Library.Linearization
import DistribuQ.Library.Flow
import DistribuQ.Library.Ranks
import DistribuQ.Library.Regex
import DistribuQ.Library.Simulation
import DistribuQ.Model.Schema
import DistribuQ.Model.Redis
import DistribuQ.Model.Retry
import DistribuQ.Model.Statements
import DistribuQ.Model.Call
import DistribuQ.Model.Worker
import DistribuQ.Model.Api
import DistribuQ.Model.Scheduler
import DistribuQ.Model.System
import DistribuQ.Model.Solo
import DistribuQ.Model.DateTime
import DistribuQ.Model.Text
import DistribuQ.Model.Recurrence
import DistribuQ.Model.Columns
import DistribuQ.Model.Listing
import DistribuQ.Model.ConnectionManager
import DistribuQ.Model.Percentiles
import DistribuQ.Model.EventFeed
import DistribuQ.Model.Fleet
import DistribuQ.Model.Board
import DistribuQ.Model.Reports
import DistribuQ.Model.LoadTest
import DistribuQ.Model.ChaosTest
import DistribuQ.Model.Dashboard
import DistribuQ.Proofs.Steps
import DistribuQ.Proofs.Rows
import DistribuQ.Proofs.Conditions
import DistribuQ.Proofs.Workers
import DistribuQ.Proofs.Processes
import DistribuQ.Proofs.DeadLetters
import DistribuQ.Proofs.Holders
import DistribuQ.Proofs.Lifecycle
import DistribuQ.Proofs.Carried
import DistribuQ.Proofs.Executions
import DistribuQ.Proofs.Budget
import DistribuQ.Proofs.Exclusion
import DistribuQ.Proofs.Fencing
import DistribuQ.Proofs.Recurrence
import DistribuQ.Proofs.Tokens
import DistribuQ.Proofs.Queues
import DistribuQ.Proofs.Delay
import DistribuQ.Proofs.Routing
import DistribuQ.Proofs.Ledger
import DistribuQ.Proofs.Loss
import DistribuQ.Proofs.FailureFree
import DistribuQ.Proofs.Accounting
import DistribuQ.Proofs.Consistency
import DistribuQ.Proofs.Duplicates
import DistribuQ.Proofs.Backoff
import DistribuQ.Proofs.Reclaims
import DistribuQ.Proofs.Announcements
import DistribuQ.Proofs.Solo
import DistribuQ.Proofs.Submission
import DistribuQ.Proofs.Attempts
import DistribuQ.Proofs.Outcomes
import DistribuQ.Proofs.Passes
import DistribuQ.Proofs.Recovery
import DistribuQ.Proofs.Promotion
import DistribuQ.Proofs.Sync
import DistribuQ.Proofs.Expiry
import DistribuQ.Proofs.DueTime
import DistribuQ.Proofs.Cancellation
import DistribuQ.Proofs.Removals
import DistribuQ.Proofs.Replays
import DistribuQ.Proofs.Successors
import DistribuQ.Proofs.Reservation
import DistribuQ.Proofs.Ordering
import DistribuQ.Proofs.Shutdown
import DistribuQ.Proofs.RetryDelays
import DistribuQ.Proofs.Spellings
import DistribuQ.Proofs.Intervals
import DistribuQ.Proofs.Dispatch
import DistribuQ.Proofs.NextRun
import DistribuQ.Proofs.Columns
import DistribuQ.Proofs.Paging
import DistribuQ.Proofs.Broadcast
import DistribuQ.Proofs.Percentiles
import DistribuQ.Proofs.Draining
import DistribuQ.Proofs.Salvage
import DistribuQ.Proofs.Rescue
import DistribuQ.Proofs.EventFeed
import DistribuQ.Proofs.Provenance
import DistribuQ.Proofs.Spacing
import DistribuQ.Proofs.Registry
import DistribuQ.Proofs.Deadlines
import DistribuQ.Proofs.Refinement
import DistribuQ.Proofs.Timestamps
import DistribuQ.Proofs.RetrySpan
import DistribuQ.Proofs.Reports
import DistribuQ.Proofs.Posting
import DistribuQ.Proofs.LoadTest
import DistribuQ.Proofs.WorkerStats
import DistribuQ.Proofs.Stopping
import DistribuQ.Proofs.Fleet
import DistribuQ.Proofs.Sparing
import DistribuQ.Proofs.ChaosTest
import DistribuQ.Proofs.Dashboard
import DistribuQ.Proofs.Monitoring
import DistribuQ.Proofs.Viewing
