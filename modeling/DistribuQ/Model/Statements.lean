import DistribuQ.Model.Schema

/-! The SQL of `worker/db.py` and `api/db.py`, one definition a function and, where a function runs
two statements that other processes can get between, one a statement. `now` is `NOW()`. -/

namespace DistribuQ

/-- The arguments of `create_job` and `schedule_next_occurrence`. -/
structure NewJob where
  type : String
  payload : Payload
  priority : Int
  maxAttempts : Nat
  scheduledFor : Option Time
  recurrenceRule : Option String

/-- The row they insert, with the defaults of `db/schema.sql`. -/
def NewJob.toJob (new : NewJob) (now : Time) (id : Uuid) : Job where
  id := id
  type := new.type
  payload := new.payload
  status := .pending
  priority := new.priority
  attempts := 0
  maxAttempts := new.maxAttempts
  nextRetryAt := none
  scheduledFor := new.scheduledFor
  recurrenceRule := new.recurrenceRule
  result := none
  error := none
  lockedBy := none
  lockedAt := none
  createdAt := now
  updatedAt := now

/-! The columns that `fetch_and_lock_job`, `get_pending_scheduled_jobs`, `reclaim_stale_jobs`,
`reclaim_due_retry_jobs` and `cancel_job` return, where they update after the update. -/

structure LockedJob where
  id : Uuid
  type : String
  payload : Payload
  priority : Int
  attempts : Nat
  maxAttempts : Nat
  recurrenceRule : Option String

structure ScheduledJob where
  id : Uuid
  scheduledFor : Time
  priority : Int

structure StaleJob where
  id : Uuid
  type : String
  priority : Int
  lockedBy : Option WorkerId

structure DueRetry where
  id : Uuid
  type : String
  priority : Int
  attempts : Nat
  maxAttempts : Nat

structure CancelRecord where
  id : Uuid
  status : JobStatus
  type : String
  priority : Int

namespace Job

def toLocked (r : Job) : LockedJob :=
  ⟨r.id, r.type, r.payload, r.priority, r.attempts, r.maxAttempts, r.recurrenceRule⟩

def toStale (r : Job) : StaleJob := ⟨r.id, r.type, r.priority, r.lockedBy⟩

def toDueRetry (r : Job) : DueRetry := ⟨r.id, r.type, r.priority, r.attempts, r.maxAttempts⟩

def toCancelRecord (r : Job) : CancelRecord := ⟨r.id, r.status, r.type, r.priority⟩

/-! The `SET` clauses. -/

def lock (r : Job) (w : WorkerId) (now : Time) : Job :=
  { r with status := .running, lockedBy := some w, lockedAt := some now, attempts := r.attempts + 1 }

def succeed (r : Job) (result : Option Json) : Job :=
  { r with status := .success, result := result, error := none, lockedBy := none, lockedAt := none }

def fail (r : Job) (error : String) : Job :=
  { r with status := .failed, error := some error, lockedBy := none, lockedAt := none }

def retry (r : Job) (error : String) (nextRetryAt : Time) : Job :=
  { r with status := .retrying, error := some error, nextRetryAt := some nextRetryAt,
           lockedBy := none, lockedAt := none }

def bury (r : Job) (error : String) : Job :=
  { r with status := .deadLetter, error := some error, lockedBy := none, lockedAt := none }

def release (r : Job) : Job := { r with status := .pending, lockedBy := none, lockedAt := none }

def cancel (r : Job) : Job :=
  { r with status := .failed, error := some "Job cancelled by user", lockedBy := none, lockedAt := none }

def reset (r : Job) : Job :=
  { r with status := .pending, attempts := 0, error := none, result := none, nextRetryAt := none,
           lockedBy := none, lockedAt := none }

/-- `set_jobs_updated_at` -/
def touch (r : Job) (now : Time) : Job := { r with updatedAt := now }

def claimable (r : Job) : Bool := r.status = .pending || r.status = .retrying

/-- The rows that `reclaim_due_retry_jobs` selects. -/
def dueRetry (r : Job) (now : Time) : Bool := r.status = .retrying && r.nextRetryAt.any (· ≤ now)

end Job

namespace Database

/-- `UPDATE jobs`, with its trigger. -/
def updateJobs (db : Database) (now : Time) (p : Job → Bool) (f : Job → Job)
    (hf : ∀ r, (f r).id = r.id := by exact fun _ => rfl) : Database :=
  { db with jobs := db.jobs.update p (fun r => (f r).touch now) hf }

/-- `INSERT INTO jobs`; `gen_random_uuid()` gives an id that no row has. -/
def insertJob (db : Database) (now : Time) (id : Uuid) (new : NewJob) : Option (Database × Job) :=
  if h : db.jobs.find? (new.toJob now id).id = none then
    some ({ db with jobs := db.jobs.insert (new.toJob now id) h }, new.toJob now id)
  else none

def createJob := insertJob

def scheduleNextOccurrence := insertJob

def fetchAndLockJob (db : Database) (now : Time) (j : Uuid) (w : WorkerId) : Database × Option LockedJob :=
  let p := fun r : Job => r.id = j && r.claimable
  (db.updateJobs now p (·.lock w now), ((db.jobs.select p).map fun r => (r.lock w now).toLocked).head?)

def markJobSuccess (db : Database) (now : Time) (j : Uuid) (result : Json) : Database :=
  db.updateJobs now (·.id = j) (·.succeed result.column)

/-- No process calls it. -/
def markJobFailed (db : Database) (now : Time) (j : Uuid) (error : String) : Database :=
  db.updateJobs now (·.id = j) (·.fail error)

def markJobRetrying (db : Database) (now : Time) (j : Uuid) (error : String) (nextRetryAt : Time) :
    Database :=
  db.updateJobs now (·.id = j) (·.retry error nextRetryAt)

/-- Both statements are in one transaction; `id` is the new row's. -/
def moveToDeadLetter (db : Database) (now : Time) (id j : Uuid) (finalError : String) (attemptsMade : Nat) :
    Option Database :=
  let row : DeadLetter := ⟨id, j, finalError, attemptsMade, now⟩
  if h : db.deadLetters.find? row.id = none then
    some { db.updateJobs now (·.id = j) (·.bury finalError) with deadLetters := db.deadLetters.insert row h }
  else none

def getPendingScheduledJobs (db : Database) : List ScheduledJob :=
  (db.jobs.select fun r => r.status = .pending).filterMap fun r =>
    r.scheduledFor.map fun t => ⟨r.id, t, r.priority⟩

def upsertWorkerHeartbeat (db : Database) (now : Time) (w : WorkerId) (jobsProcessed : Nat) : Database :=
  let row : WorkerRow := ⟨w, .alive, now, jobsProcessed, now⟩
  let beat := fun v : WorkerRow =>
    { v with status := .alive, lastHeartbeat := now, jobsProcessed := jobsProcessed }
  if h : db.workers.find? row.id = none then { db with workers := db.workers.insert row h }
  else { db with workers := db.workers.update (·.id = w) beat fun _ => rfl }

def markWorkerDead (db : Database) (w : WorkerId) : Database :=
  { db with workers := db.workers.update (·.id = w) (fun v => { v with status := .dead }) fun _ => rfl }

def markExpiredWorkersDead (db : Database) (now : Time) (timeoutSeconds : Nat) : Database × List WorkerId :=
  let p := fun v : WorkerRow => v.status = .alive && decide (v.lastHeartbeat < now - seconds timeoutSeconds)
  ({ db with workers := db.workers.update p (fun v => { v with status := .dead }) fun _ => rfl },
    (db.workers.select p).map WorkerRow.id)

/-- The rows that `reclaim_stale_jobs` selects. -/
def stale (db : Database) (now : Time) (visibilityTimeoutSeconds : Nat) (r : Job) : Bool :=
  r.status = .running &&
    (r.lockedAt.any (· < now - seconds visibilityTimeoutSeconds) ||
      r.lockedBy.any fun w => db.workers.rows.any fun v => v.id = w &&
        (v.status = .dead || decide (v.lastHeartbeat < now - seconds visibilityTimeoutSeconds)))

def reclaimStaleJobs (db : Database) (now : Time) (visibilityTimeoutSeconds : Nat) :
    Database × List StaleJob :=
  let p := db.stale now visibilityTimeoutSeconds
  (db.updateJobs now p (·.release), (db.jobs.select p).map fun r => r.release.toStale)

def reclaimDueRetryJobs (db : Database) (now : Time) : Database × List DueRetry :=
  let p := fun r : Job => r.dueRetry now
  (db.updateJobs now p (·.release), (db.jobs.select p).map fun r => r.release.toDueRetry)

/-! The two statements of `cancel_job` and those of `replay_dead_letter`. -/

def cancelSelect (db : Database) (j : Uuid) : Option CancelRecord := (db.job? j).map (·.toCancelRecord)

def cancelUpdate (db : Database) (now : Time) (j : Uuid) : Database × Option CancelRecord :=
  let p := fun r : Job => r.id = j && r.status = .pending
  (db.updateJobs now p (·.cancel), ((db.jobs.select p).map fun r => r.cancel.toCancelRecord).head?)

/-- Every `(dead_letter_id, job_id)` that the `SELECT` of `replay_dead_letter` matches. -/
def replaySelect (db : Database) (identifier : Uuid) : List DeadLetter :=
  db.deadLetters.select fun d => d.id = identifier || d.jobId = identifier

/-- The `DELETE` and the `UPDATE` of `replay_dead_letter`, which other transactions see at its commit:
each waits for a writer of the same row, and neither reads anything the other writes. -/
def replayWrite (db : Database) (now : Time) (deadLetterId j : Uuid) : Database :=
  { db.updateJobs now (·.id = j) (·.reset) with
    deadLetters := db.deadLetters.delete fun d => d.id = deadLetterId }

end Database
end DistribuQ
