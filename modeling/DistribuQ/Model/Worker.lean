import DistribuQ.Model.Call

/-! `worker/worker.py`: the loop of `Worker.start`, `priority_reserve_job` as it calls it,
`process_job` and `shutdown`. A program point is named after the call that is made there. The loop
swallows every `Exception` that leaves `process_job`, and ends with what is none. -/

namespace DistribuQ
namespace Worker

inductive Pc
  -- `start`, at the test of `self.running`
  | loop
  -- `priority_reserve_job`: the keys left to poll, then the blocking pop and its `LPUSH`
  | poll (qs : List Queue)
  | lpushProcessing (j : Uuid)
  -- `process_job`
  | fetchAndLock (j : Uuid)
  | ackUnlocked (j : Uuid)
  | emitRunning (job : LockedJob)
  | handler (job : LockedJob)
  | markSuccess (job : LockedJob) (result : Json)
  | emitSuccess (job : LockedJob)
  | computeNextRun (job : LockedJob) (rule : String)
  | scheduleNext (job : LockedJob) (rule : String) (nextRun : Time)
  | zaddNext (job : LockedJob) (nextId : Uuid) (nextRun : Time)
  | computeRetry (job : LockedJob) (error : String)
  | markRetrying (job : LockedJob) (error : String) (nextRetry : Time)
  | emitRetrying (job : LockedJob)
  | moveToDeadLetter (job : LockedJob) (error : String)
  | emitDeadLetter (job : LockedJob)
  | ack (job : LockedJob)
  -- the same call, made while what is no `Exception` is on its way out of `process_job`
  | ackExit (job : LockedJob)
  -- `shutdown`
  | emitDead
  | markDead
  | stopped

end Worker

structure Worker where
  pc : Worker.Pc := .loop
  running : Bool := true
  jobsProcessed : Nat := 0

namespace Worker

def at' (p : Worker) (pc : Pc) : Worker := { p with pc := pc }

def count (p : Worker) : Worker := { p with jobsProcessed := p.jobsProcessed + 1 }

/-- The `except` branch of `process_job`, up to its first call. -/
def onFailure (job : LockedJob) (error : String) : Pc :=
  if job.attempts < job.maxAttempts then .computeRetry job error else .moveToDeadLetter job error

/-- `payload.get("_base_delay", 1.0)` -/
def baseDelay (payload : Payload) : Json := (payload.lookup "_base_delay").getD (.num 1)

/-- The payload the handler gets: the keys that start with `_` are left out. -/
def handlerPayload (payload : Payload) : Payload := payload.filter fun kv => !kv.1.startsWith "_"

/-- The recurrence branch of `process_job`, up to its first call. -/
def afterSuccess (job : LockedJob) : Pc :=
  match job.recurrenceRule with
  | some rule => if rule ≠ "" then .computeNextRun job rule else .ack job
  | none => .ack job

def nextOccurrence (job : LockedJob) (rule : String) (nextRun : Time) : NewJob :=
  ⟨job.type, job.payload, job.priority, job.maxAttempts, some nextRun, some rule⟩

/-- The next call of worker `w` and what follows it. -/
def next (w : WorkerId) (p : Worker) : Option (Op Worker) :=
  match p.pc with
  | .loop => some ⟨.skip, fun _ => p.at' (if p.running then .poll Queue.ordered else .emitDead)⟩
  | .poll (q :: qs) => some ⟨.rpoplpush q, fun
    | .ok (some j) => p.at' (.fetchAndLock j)
    | .ok none => p.at' (.poll qs)
    | .error _ => p.at' .loop⟩
  | .poll [] => some ⟨.brpop Queue.ordered, fun
    | .ok (some (_, j)) => p.at' (.lpushProcessing j)
    | .ok none | .error _ => p.at' .loop⟩
  | .lpushProcessing j => some ⟨.lpushProcessing j, fun
    | .ok _ => p.at' (.fetchAndLock j)
    | .error _ => p.at' .loop⟩
  | .fetchAndLock j => some ⟨.fetchAndLockJob j w, fun
    | .ok (some job) => p.at' (.emitRunning job)
    | .ok none => p.at' (.ackUnlocked j)
    | .error _ => p.at' .loop⟩
  | .ackUnlocked j => some ⟨.lremProcessing j, fun _ => p.at' .loop⟩
  | .emitRunning job => some ⟨.publish (.jobStatusChanged job.id job.type .running (some w)), fun _ =>
      p.at' (.handler job)⟩
  | .handler job => some ⟨.executeHandler job.type (handlerPayload job.payload), fun
    | .ok (.ok result) => p.at' (.markSuccess job result)
    | .ok (.error (.exception e)) | .error e => p.at' (onFailure job e)
    | .ok (.error .baseException) => p.at' (.ackExit job)⟩
  | .markSuccess job result => some ⟨.markJobSuccess job.id result, fun
    | .ok _ => p.count.at' (.emitSuccess job)
    | .error e => p.at' (onFailure job e)⟩
  | .emitSuccess job => some ⟨.publish (.jobStatusChanged job.id job.type .success (some w)), fun _ =>
      p.at' (afterSuccess job)⟩
  | .computeNextRun job rule => some ⟨.computeNextRun rule, fun
    | .ok (some t) => p.at' (.scheduleNext job rule t)
    | .ok none | .error _ => p.at' (.ack job)⟩
  | .scheduleNext job rule t => some ⟨.scheduleNextOccurrence (nextOccurrence job rule t), fun
    | .ok row => p.at' (.zaddNext job row.id t)
    | .error _ => p.at' (.ack job)⟩
  | .zaddNext job nextId t => some ⟨.zadd nextId t, fun _ => p.at' (.ack job)⟩
  | .computeRetry job e => some ⟨.computeNextRetryAt job.attempts (baseDelay job.payload), fun
    | .ok (some t) => p.at' (.markRetrying job e t)
    | .ok none | .error _ => p.at' (.ack job)⟩
  | .markRetrying job e t => some ⟨.markJobRetrying job.id e t, fun
    | .ok _ => p.at' (.emitRetrying job)
    | .error _ => p.at' (.ack job)⟩
  | .emitRetrying job => some ⟨.publish (.jobStatusChanged job.id job.type .retrying (some w)), fun _ =>
      p.count.at' (.ack job)⟩
  | .moveToDeadLetter job e => some ⟨.moveToDeadLetter job.id e job.attempts, fun
    | .ok _ => p.at' (.emitDeadLetter job)
    | .error _ => p.at' (.ack job)⟩
  | .emitDeadLetter job => some ⟨.publish (.jobStatusChanged job.id job.type .deadLetter (some w)), fun _ =>
      p.count.at' (.ack job)⟩
  | .ack job => some ⟨.lremProcessing job.id, fun _ => p.at' .loop⟩
  | .ackExit job => some ⟨.lremProcessing job.id, fun
    -- it leaves the loop of `start`; `self.running` is not read any more, so clearing it says the same
    | .ok _ => { p with running := false }.at' .loop
    -- the exception of the call takes its place, and the loop goes on
    | .error _ => p.at' .loop⟩
  | .emitDead => some ⟨.publish (.workerDead w), fun _ => p.at' .markDead⟩
  | .markDead => some ⟨.markWorkerDead w, fun _ => p.at' .stopped⟩
  | .stopped => none

end Worker
end DistribuQ
