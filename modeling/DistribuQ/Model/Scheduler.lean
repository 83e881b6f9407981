import DistribuQ.Model.Call

/-! `scheduler/scheduler.py` and `worker/reaper.py`. -/

namespace DistribuQ
namespace Scheduler

inductive Pc
  -- `sync_from_db`
  | syncSelect
  | sync (j : ScheduledJob) (js : List ScheduledJob)
  -- `start`, at the test of `self.running`
  | loop
  -- `run_once`
  | promoteNow
  | promote (now : Time)
  -- `promote_retries`
  | retries
  | pushRetries (j : DueRetry) (js : List DueRetry)
  -- `start`, at `time.monotonic()`
  | monotonic
  -- `run_reaper`
  | expire
  | stale
  | pushStale (j : StaleJob) (js : List StaleJob)
  | stopped

end Scheduler

structure Scheduler where
  pc : Scheduler.Pc := .syncSelect
  running : Bool := true
  lastReaperRun : Time := 0

namespace Scheduler

def at' (p : Scheduler) (pc : Pc) : Scheduler := { p with pc := pc }

def syncLoop : List ScheduledJob → Pc
  | [] => .loop
  | j :: js => .sync j js

def retryLoop : List DueRetry → Pc
  | [] => .monotonic
  | j :: js => .pushRetries j js

def staleLoop : List StaleJob → Pc
  | [] => .loop
  | j :: js => .pushStale j js

/-- The loop of `sync_from_db` over the rows it has read, and the count it returns, if every call returns. -/
def syncFromDb (r : Redis) (pendingJobs : List ScheduledJob) : Redis × Nat :=
  pendingJobs.foldl (fun (r, count) j => (r.zadd j.id j.scheduledFor, count + 1)) (r, 0)

/-- An exception ends `sync_from_db`, `promote_retries` or `run_reaper`, with the rest of its batch. -/
def next (env : Env) (p : Scheduler) : Option (Op Scheduler) :=
  match p.pc with
  | .syncSelect => some ⟨.getPendingScheduledJobs, fun
    | .ok js => p.at' (syncLoop js)
    | .error _ => p.at' .loop⟩
  | .sync j js => some ⟨.zadd j.id j.scheduledFor, fun
    | .ok _ => p.at' (syncLoop js)
    | .error _ => p.at' .loop⟩
  | .loop => some ⟨.skip, fun _ => p.at' (if p.running then .promoteNow else .stopped)⟩
  | .promoteNow => some ⟨.now, fun
    | .ok t => p.at' (.promote t)
    | .error _ => p.at' .loop⟩
  | .promote t => some ⟨.promoteScheduled .default t, fun
    | .ok _ => p.at' .retries
    | .error _ => p.at' .loop⟩
  | .retries => some ⟨.reclaimDueRetryJobs, fun
    | .ok js => p.at' (retryLoop js)
    | .error _ => p.at' .monotonic⟩
  | .pushRetries j js => some ⟨.lpush (Queue.ofPriority j.priority) j.id, fun
    | .ok _ => p.at' (retryLoop js)
    | .error _ => p.at' .monotonic⟩
  | .monotonic => some ⟨.monotonic, fun
    | .ok now => if now - p.lastReaperRun ≥ seconds 5 then { p with pc := .expire, lastReaperRun := now }
      else p.at' .loop
    | .error _ => p.at' .loop⟩
  | .expire => some ⟨.markExpiredWorkersDead env.workerTimeoutSec, fun
    | .ok _ => p.at' .stale
    | .error _ => p.at' .loop⟩
  | .stale => some ⟨.reclaimStaleJobs env.visibilityTimeoutSec, fun
    | .ok js => p.at' (staleLoop js)
    | .error _ => p.at' .loop⟩
  | .pushStale j js => some ⟨.lpush (Queue.ofPriority j.priority) j.id, fun
    | .ok _ => p.at' (staleLoop js)
    | .error _ => p.at' .loop⟩
  | .stopped => none

end Scheduler

namespace Reaper

inductive Pc
  -- `_loop`, at the test of `self.running`
  | loop
  -- `run_once`
  | expire
  | stale
  | requeueRem (j : StaleJob) (js : List StaleJob)
  | requeuePush (j : StaleJob) (js : List StaleJob)
  | retries
  | pushRetries (j : DueRetry) (js : List DueRetry)
  | stopped

end Reaper

structure Reaper where
  visibilityTimeoutSec : Nat := 60
  heartbeatTimeoutSec : Nat := 10
  pc : Reaper.Pc := .loop
  running : Bool := true

namespace Reaper

def at' (p : Reaper) (pc : Pc) : Reaper := { p with pc := pc }

def staleLoop : List StaleJob → Pc
  | [] => .retries
  | j :: js => .requeueRem j js

def retryLoop : List DueRetry → Pc
  | [] => .loop
  | j :: js => .pushRetries j js

/-- The two loops of `run_once` catch what a push raises and go on with the next job; every push
goes to `source_queue`. -/
def next (p : Reaper) : Option (Op Reaper) :=
  match p.pc with
  | .loop => some ⟨.skip, fun _ => p.at' (if p.running then .expire else .stopped)⟩
  | .expire => some ⟨.markExpiredWorkersDead p.heartbeatTimeoutSec, fun
    | .ok _ => p.at' .stale
    | .error _ => p.at' .loop⟩
  | .stale => some ⟨.reclaimStaleJobs p.visibilityTimeoutSec, fun
    | .ok js => p.at' (staleLoop js)
    | .error _ => p.at' .loop⟩
  | .requeueRem j js => some ⟨.lremProcessing j.id, fun
    | .ok _ => p.at' (.requeuePush j js)
    | .error _ => p.at' (staleLoop js)⟩
  | .requeuePush j js => some ⟨.rpush .default j.id, fun _ => p.at' (staleLoop js)⟩
  | .retries => some ⟨.reclaimDueRetryJobs, fun
    | .ok js => p.at' (retryLoop js)
    | .error _ => p.at' .loop⟩
  | .pushRetries j js => some ⟨.lpush .default j.id, fun _ => p.at' (retryLoop js)⟩
  | .stopped => none

end Reaper
end DistribuQ
