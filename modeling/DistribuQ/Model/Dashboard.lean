import DistribuQ.Model.Columns
import DistribuQ.Model.Redis

/-! `dashboard/app.js`: what a page keeps of the messages of its socket and of the answers of the API. -/

namespace DistribuQ

/-- What is kept of a worker. -/
structure WorkerCard where
  id : WorkerId
  status : WorkerStatus
  jobsProcessed : Nat
  lastHeartbeat : Time

/-- A message of the socket. -/
inductive Message
  | event (e : Event)
  | statsSnapshot (counts : JobStatus → Nat) (activeWorkers : Nat)
  | workerHeartbeat (data : WorkerCard)
  | unhandled

structure Envelope where
  timestamp : Time
  message : Message

/-- An item of the event feed, with the event that its text is made of. -/
structure FeedItem where
  time : Time
  badge : String
  event : Event

structure Bucket where
  success : Nat
  failed : Nat

/-- `currentBucket` counts a status. -/
def Bucket.add (b : Bucket) : JobStatus → Bucket
  | .success => { b with success := b.success + 1 }
  | .failed | .deadLetter => { b with failed := b.failed + 1 }
  | _ => b

/-- A request that the page sends. -/
inductive Fetch
  | stats | workers | jobs
  deriving DecidableEq

/-- How a request ends. -/
inductive Answer
  -- `fetch` raises, or the status is not ok
  | failed (f : Fetch)
  | stats (jobCounts : JobStatus → Nat) (activeWorkers : Nat) (workers : List WorkerCard)
  | workers (list : List WorkerCard)
  | jobs

def Answer.fetch : Answer → Fetch
  | failed f => f
  | stats .. => .stats
  | workers _ => .workers
  | jobs => .jobs

structure Dashboard where
  counts : JobStatus → Nat
  /-- `state.workers`, in the order of insertion. -/
  workers : Table WorkerCard.id
  chartBuckets : List Bucket
  currentBucket : Bucket
  eventFeed : List FeedItem
  workerCountBadge : Nat
  workerList : List WorkerCard
  /-- `refreshJobsTimeout` is set. -/
  refreshJobsTimeout : Bool
  /-- The requests that are under way. -/
  fetching : List Fetch

namespace Dashboard

def maxBuckets : Nat := 20

def maxItems : Nat := 60

/-- The page after `DOMContentLoaded`. -/
def init : Dashboard where
  counts _ := 0
  workers := Table.empty
  chartBuckets := List.replicate maxBuckets ⟨0, 0⟩
  currentBucket := ⟨0, 0⟩
  eventFeed := []
  workerCountBadge := 0
  workerList := []
  refreshJobsTimeout := false
  fetching := [.stats, .workers, .jobs]

variable (s : Dashboard)

def fetch (f : Fetch) : Dashboard := { s with fetching := s.fetching ++ [f] }

/-- `refreshJobs` is called when the timeout has run off. -/
def throttledRefreshJobs : Dashboard := { s with refreshJobsTimeout := true }

/-- The item is put before the others, and the last ones go. -/
def addEventFeedItem (item : FeedItem) : Dashboard :=
  { s with eventFeed := (item :: s.eventFeed).take maxItems }

def updateStatsCards (counts : JobStatus → Nat) : Dashboard := { s with counts := counts }

def renderWorkersList (workers : List WorkerCard) : Dashboard :=
  { s with workerList := workers, workerCountBadge := workers.countP fun w => w.status = .alive }

/-- `state.workers.set(w.id, w)` -/
def setWorker (w : WorkerCard) : Dashboard :=
  if h : s.workers.find? w.id = none then { s with workers := s.workers.insert w h }
  else
    let put := fun v : WorkerCard => { w with id := v.id }
    { s with workers := s.workers.update (·.id = w.id) put fun _ => rfl }

def updateWorkerState (data : WorkerCard) : Dashboard :=
  let s := s.setWorker data
  s.renderWorkersList s.workers.rows

def markWorkerDeadState (workerId : WorkerId) : Dashboard :=
  if s.workers.find? workerId = none then s
  else
    let workers := s.workers.update (·.id = workerId) (fun w => { w with status := .dead }) fun _ => rfl
    { s with workers := workers }.renderWorkersList workers.rows

def handleIncomingEvent (envelope : Envelope) : Dashboard :=
  match envelope.message with
  | .statsSnapshot counts activeWorkers => { s.updateStatsCards counts with workerCountBadge := activeWorkers }
  | .event (.jobSubmitted j type priority scheduledFor) =>
    let s := s.addEventFeedItem ⟨envelope.timestamp, "SUBMITTED", .jobSubmitted j type priority scheduledFor⟩
    { s with counts := Function.update s.counts .pending (s.counts .pending + 1) }.throttledRefreshJobs
  | .event (.jobStatusChanged j type status workerId) =>
    let s := s.addEventFeedItem ⟨envelope.timestamp, status.text, .jobStatusChanged j type status workerId⟩
    ({ s with currentBucket := s.currentBucket.add status }.throttledRefreshJobs).fetch .stats
  | .event (.workerDead workerId) =>
    let s := s.markWorkerDeadState workerId
    (s.addEventFeedItem ⟨envelope.timestamp, "DEAD", .workerDead workerId⟩).fetch .workers
  | .workerHeartbeat data => s.updateWorkerState data
  | .unhandled => s

def answered : Answer → Dashboard
  | .failed _ | .jobs => s
  | .stats jobCounts _ workers => (s.updateStatsCards jobCounts).renderWorkersList workers
  | .workers list => (list.foldl setWorker s).renderWorkersList list

inductive Action
  -- `onmessage`; the text may be none that `JSON.parse` and the handler take
  | message (envelope : Option Envelope)
  | opened
  | answered (a : Answer)
  -- the timeout of `throttledRefreshJobs`
  | refreshJobs
  | refreshClicked
  -- the intervals of the chart, of 5 s, and of the polling, of 10 s
  | chartTick
  | poll
  | clearFeed

/-- The interval of `initChart`. -/
def pushBucket : Dashboard :=
  let buckets := s.chartBuckets ++ [s.currentBucket]
  { s with
    chartBuckets := if maxBuckets < buckets.length then buckets.tail else buckets
    currentBucket := ⟨0, 0⟩ }

def step : Action → Option Dashboard
  | .message envelope => some (envelope.elim s s.handleIncomingEvent)
  | .opened => some (((s.fetch .stats).fetch .workers).fetch .jobs)
  | .answered a => if a.fetch ∈ s.fetching then
      some ({ s with fetching := s.fetching.erase a.fetch }.answered a) else none
  | .refreshJobs => if s.refreshJobsTimeout then
      some ({ s with refreshJobsTimeout := false }.fetch .jobs) else none
  | .refreshClicked => some (s.fetch .jobs)
  | .chartTick => some s.pushBucket
  | .poll => some ((s.fetch .stats).fetch .workers)
  | .clearFeed => some { s with eventFeed := [] }

end Dashboard
end DistribuQ
