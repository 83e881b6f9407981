import DistribuQ.Model.Statements
import DistribuQ.Model.Redis
import DistribuQ.Model.Retry

/-! The calls at which a process of the system gives way to the others, each one atomic step: a SQL
transaction (for `cancel_job` and `replay_dead_letter` a statement), a Redis command or script, or a
local computation that reads the clock, draws a random number or runs a handler. -/

namespace DistribuQ

/-- What the processes share. One clock serves Postgres and every process. -/
structure Store where
  db : Database
  redis : Redis
  clock : Time

/-- The settings the processes read, and `compute_next_run` with the time it reads; `none` when it
raises. -/
structure Env where
  visibilityTimeoutSec : Nat := 60
  workerTimeoutSec : Nat := 10
  computeNextRun : String → Time → Option Time

/-- How a remote call ends: it returns, it raises and had no effect, or it raises after its effect. -/
inductive Fault
  | none
  | raised (error : String)
  | lost (error : String)
  deriving DecidableEq

/-- What a handler raises: an `Exception`, with its text, or a `BaseException` that is none, as `CancelledError` and
`SystemExit` are. -/
inductive Raised
  | exception (error : String)
  | baseException
  deriving DecidableEq

/-- All that a step does not determine by itself: the fault of its call, a new UUID, the order in
which a query returns rows, what the handler does, a random draw and the reading of
`time.monotonic()`. -/
structure Choice where
  fault : Fault := .none
  freshId : Uuid := 0
  order : List Uuid := []
  outcome : Except Raised Json := .ok .null
  draw : Draw := default
  monotonic : Time := 0

inductive Call
  -- `worker/db.py`
  | fetchAndLockJob (j : Uuid) (w : WorkerId)
  | markJobSuccess (j : Uuid) (result : Json)
  | markJobRetrying (j : Uuid) (error : String) (nextRetryAt : Time)
  | moveToDeadLetter (j : Uuid) (finalError : String) (attemptsMade : Nat)
  | getPendingScheduledJobs
  | upsertWorkerHeartbeat (w : WorkerId) (jobsProcessed : Nat)
  | markWorkerDead (w : WorkerId)
  | markExpiredWorkersDead (timeoutSeconds : Nat)
  | reclaimStaleJobs (visibilityTimeoutSeconds : Nat)
  | reclaimDueRetryJobs
  | scheduleNextOccurrence (new : NewJob)
  -- `api/db.py`
  | createJob (new : NewJob)
  | cancelSelect (j : Uuid)
  | cancelUpdate (j : Uuid)
  | replaySelect (identifier : Uuid)
  | replayWrite (deadLetterId j : Uuid)
  -- Redis
  | lpush (q : Queue) (j : Uuid)
  | rpush (q : Queue) (j : Uuid)
  | lrem (q : Queue) (j : Uuid)
  | lpushProcessing (j : Uuid)
  | lremProcessing (j : Uuid)
  | rpoplpush (q : Queue)
  | brpop (qs : List Queue)
  | zadd (j : Uuid) (score : Time)
  | zrem (j : Uuid)
  | promoteScheduled (target : Queue) (now : Time)
  | publish (e : Event)
  -- local
  | skip
  | now
  | monotonic
  | executeHandler (jobType : String) (payload : Payload)
  | computeNextRetryAt (attempt : Int) (baseDelay : Json)
  | computeNextRun (rule : String)

namespace Call

/-- What a call returns. -/
@[reducible] def Ret : Call → Type
  | fetchAndLockJob .. => Option LockedJob
  | getPendingScheduledJobs => List ScheduledJob
  | markExpiredWorkersDead _ => List WorkerId
  | reclaimStaleJobs _ => List StaleJob
  | reclaimDueRetryJobs => List DueRetry
  | scheduleNextOccurrence _ | createJob _ => Job
  | cancelSelect _ | cancelUpdate _ => Option CancelRecord
  | replaySelect _ => Option DeadLetter
  | rpoplpush _ => Option Uuid
  | brpop _ => Option (Queue × Uuid)
  | promoteScheduled .. => List Uuid
  | now | monotonic => Time
  | executeHandler .. => Except Raised Json
  | computeNextRetryAt .. | computeNextRun _ => Option Time
  | _ => Unit

def sql : Call → Bool
  | fetchAndLockJob .. | markJobSuccess .. | markJobRetrying .. | moveToDeadLetter ..
  | getPendingScheduledJobs | upsertWorkerHeartbeat .. | markWorkerDead _ | markExpiredWorkersDead _
  | reclaimStaleJobs _ | reclaimDueRetryJobs | scheduleNextOccurrence _ | createJob _
  | cancelSelect _ | cancelUpdate _ | replaySelect _ | replayWrite .. => true
  | _ => false

def isLocal : Call → Bool
  | skip | now | monotonic | executeHandler .. | computeNextRetryAt .. | computeNextRun _ => true
  | _ => false

/-- The effect of a call and what it returns; `none` when the choice does not fit, a UUID that is
not new. -/
def run (env : Env) (ch : Choice) (st : Store) : (c : Call) → Option (Store × c.Ret)
  | fetchAndLockJob j w =>
    let (db, row) := st.db.fetchAndLockJob st.clock j w
    some ({ st with db := db }, row)
  | markJobSuccess j result => some ({ st with db := st.db.markJobSuccess st.clock j result }, ())
  | markJobRetrying j error t => some ({ st with db := st.db.markJobRetrying st.clock j error t }, ())
  | moveToDeadLetter j error n =>
    (st.db.moveToDeadLetter st.clock ch.freshId j error n).map fun db => ({ st with db := db }, ())
  | getPendingScheduledJobs =>
    some (st, Table.inOrder ScheduledJob.id ch.order st.db.getPendingScheduledJobs)
  | upsertWorkerHeartbeat w n =>
    some ({ st with db := st.db.upsertWorkerHeartbeat st.clock w n }, ())
  | markWorkerDead w => some ({ st with db := st.db.markWorkerDead w }, ())
  | markExpiredWorkersDead n =>
    let (db, ids) := st.db.markExpiredWorkersDead st.clock n
    some ({ st with db := db }, ids)
  | reclaimStaleJobs n =>
    let (db, rows) := st.db.reclaimStaleJobs st.clock n
    some ({ st with db := db }, Table.inOrder StaleJob.id ch.order rows)
  | reclaimDueRetryJobs =>
    let (db, rows) := st.db.reclaimDueRetryJobs st.clock
    some ({ st with db := db }, Table.inOrder DueRetry.id ch.order rows)
  | scheduleNextOccurrence new =>
    (st.db.scheduleNextOccurrence st.clock ch.freshId new).map fun (db, row) => ({ st with db := db }, row)
  | createJob new =>
    (st.db.createJob st.clock ch.freshId new).map fun (db, row) => ({ st with db := db }, row)
  | cancelSelect j => some (st, st.db.cancelSelect j)
  | cancelUpdate j =>
    let (db, row) := st.db.cancelUpdate st.clock j
    some ({ st with db := db }, row)
  | replaySelect i => some (st, (Table.inOrder DeadLetter.id ch.order (st.db.replaySelect i)).head?)
  | replayWrite d j => some ({ st with db := st.db.replayWrite st.clock d j }, ())
  | lpush q j => some ({ st with redis := st.redis.lpush q j }, ())
  | rpush q j => some ({ st with redis := st.redis.rpush q j }, ())
  | lrem q j => some ({ st with redis := st.redis.lrem q j }, ())
  | lpushProcessing j => some ({ st with redis := st.redis.lpushProcessing j }, ())
  | lremProcessing j => some ({ st with redis := st.redis.lremProcessing j }, ())
  | rpoplpush q =>
    let (r, j) := st.redis.rpoplpush q
    some ({ st with redis := r }, j)
  | brpop qs =>
    let (r, j) := st.redis.brpop qs
    some ({ st with redis := r }, j)
  | zadd j score => some ({ st with redis := st.redis.zadd j score }, ())
  | zrem j => some ({ st with redis := st.redis.zrem j }, ())
  | promoteScheduled target t =>
    let (r, js) := st.redis.promoteScheduled target t
    some ({ st with redis := r }, js)
  | publish e => some ({ st with redis := st.redis.publish e }, ())
  | skip => some (st, ())
  | now => some (st, st.clock)
  | monotonic => some (st, ch.monotonic)
  | executeHandler .. => some (st, ch.outcome)
  | computeNextRetryAt n b => some (st, Retry.computeNextRetryAt st.clock n b ch.draw)
  | computeNextRun rule => some (st, env.computeNextRun rule st.clock)

end Call

/-- A call and what the process does next with its result or its exception. -/
structure Op (α : Type) where
  call : Call
  resume : Except String call.Ret → α

namespace Op
variable {α β : Type}

def map (f : α → β) (op : Op α) : Op β := ⟨op.call, fun r => f (op.resume r)⟩

def exec (env : Env) (ch : Choice) (op : Op α) (st : Store) : Option (Store × α) :=
  match (if op.call.isLocal then Fault.none else ch.fault) with
  | .none => (op.call.run env ch st).map fun (st', r) => (st', op.resume (.ok r))
  | .raised e => some (st, op.resume (.error e))
  | .lost e => (op.call.run env ch st).map fun (st', _) => (st', op.resume (.error e))

end Op
end DistribuQ
