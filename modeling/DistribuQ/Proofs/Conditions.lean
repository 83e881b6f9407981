import DistribuQ.Proofs.Rows

/-! The conditions on the steps of a run under which properties of the system are stated. Each is a
predicate on the state before a step and its action, decidable so that a run can be checked. -/

namespace DistribuQ

def Fault.isLost : Fault → Bool
  | lost _ => true
  | _ => false

/-! What a call is about: the job whose outcome it writes, the dead letter it replays with its job, the
timeout of a stale reclaim. -/

namespace Call

def outcome? : Call → Option Uuid
  | markJobSuccess j _ | markJobRetrying j _ _ | moveToDeadLetter j _ _ => some j
  | _ => none

def replayed? : Call → Option (Uuid × Uuid)
  | replayWrite d j => some (d, j)
  | _ => none

def staleTimeout? : Call → Option Nat
  | reclaimStaleJobs n => some n
  | _ => none

end Call

/-! What a worker is at: the job it has locked and not yet written an outcome for, the one whose handler it
is about to execute, the one whose handler it is executing. -/

namespace Worker.Pc

def attempt? : Pc → Option LockedJob
  | emitRunning job | handler job | markSuccess job _ | computeRetry job _ | markRetrying job _ _
  | moveToDeadLetter job _ => some job
  | _ => none

def starting? : Pc → Option LockedJob
  | emitRunning job => some job
  | _ => none

def executing? : Pc → Option LockedJob
  | handler job => some job
  | _ => none

end Worker.Pc

namespace Proc

def ofPc {β : Type} (f : Worker.Pc → Option β) : Proc → Option β
  | worker p => f p.pc
  | _ => none

def attempt? (p : Proc) : Option LockedJob := p.ofPc Worker.Pc.attempt?

def starting? (p : Proc) : Option LockedJob := p.ofPc Worker.Pc.starting?

def executing? (p : Proc) : Option LockedJob := p.ofPc Worker.Pc.executing?

/-- A replay request that has not ended. -/
def replaying : Proc → Bool
  | replay .finished => false
  | replay _ => true
  | _ => false

def isWorker : Proc → Bool
  | worker _ => true
  | _ => false

end Proc

/-- The row of `j` is `RUNNING` and locked by `pid`. -/
def State.Holds (s : State) (pid : Nat) (j : Uuid) : Prop :=
  ∃ r ∈ s.store.db.job? j, r.status = .running ∧ r.lockedBy = some pid

instance (s : State) (pid : Nat) (j : Uuid) : Decidable (s.Holds pid j) :=
  inferInstanceAs (Decidable (∃ r ∈ s.store.db.job? j, _))

/-- Worker `w` is in attempt `n` of `j`, from the lock up to its outcome write. -/
def State.InAttempt (s : State) (w : WorkerId) (j : Uuid) (n : Nat) : Prop :=
  ∃ p ∈ s.procs[w]?, ∃ job ∈ p.attempt?, job.id = j ∧ job.attempts = n

instance (s : State) (w : WorkerId) (j : Uuid) (n : Nat) : Decidable (s.InAttempt w j n) :=
  inferInstanceAs (Decidable (∃ p ∈ s.procs[w]?, _))

/-- Worker `w` is executing the handler of `j` in attempt `n`. -/
def State.Executes (s : State) (w : WorkerId) (j : Uuid) (n : Nat) : Prop :=
  ∃ p ∈ s.procs[w]?, ∃ job ∈ p.executing?, job.id = j ∧ job.attempts = n

instance (s : State) (w : WorkerId) (j : Uuid) (n : Nat) : Decidable (s.Executes w j n) :=
  inferInstanceAs (Decidable (∃ p ∈ s.procs[w]?, _))

/-- The action is a stale reclaim that takes `j`. -/
def State.Reclaims (env : Env) (s : State) (a : Action) (j : Uuid) : Prop :=
  ∃ x ∈ s.call? env a, ∃ n ∈ x.2.staleTimeout?, ∃ r ∈ s.store.db.job? j,
    s.store.db.stale s.store.clock n r = true

instance (env : Env) (s : State) (a : Action) (j : Uuid) : Decidable (s.Reclaims env a j) :=
  inferInstanceAs (Decidable (∃ x ∈ s.call? env a, _))

def Database.HasLetter (db : Database) (d j : Uuid) : Prop := ∃ l ∈ db.deadLetters.find? d, l.jobId = j

instance (db : Database) (d j : Uuid) : Decidable (db.HasLetter d j) :=
  inferInstanceAs (Decidable (∃ l ∈ db.deadLetters.find? d, _))

section
variable (env : Env) (s : State) (a : Action)

/-- Every outcome is written by a worker that still holds the lock, and every replay still finds the
dead letter it has read. -/
def Fenced : Prop :=
  ∀ x ∈ s.call? env a, (∀ j ∈ x.2.outcome?, s.Holds x.1 j) ∧
    ∀ l ∈ x.2.replayed?, s.store.db.HasLetter l.1 l.2

/-- A stale reclaim takes no job from a worker that is still at work on it. -/
def ReclaimsAbandoned : Prop :=
  ∀ x ∈ s.call? env a, ∀ n ∈ x.2.staleTimeout?, ∀ r ∈ s.store.db.jobs.rows,
    s.store.db.stale s.store.clock n r = true → ∀ w ∈ r.lockedBy, ∀ p ∈ s.procs[w]?,
      ∀ job ∈ p.attempt?, job.id ≠ r.id

/-- A stale reclaim takes no job that has used up its attempts. -/
def ReclaimsWithinBudget : Prop :=
  ∀ x ∈ s.call? env a, ∀ n ∈ x.2.staleTimeout?, ∀ r ∈ s.store.db.jobs.rows,
    s.store.db.stale s.store.clock n r = true → r.attempts < r.maxAttempts

def NoReclaim : Prop :=
  ∀ x ∈ s.call? env a, ∀ n ∈ x.2.staleTimeout?, ∀ r ∈ s.store.db.jobs.rows,
    s.store.db.stale s.store.clock n r = false

/-- A call to Postgres that raises has had no effect. -/
def NoLostSql : Prop := ∀ x ∈ s.op? env a, x.2.2.call.sql = true → x.2.1.fault.isLost = false

end

/-- No replay starts before the one before it has ended. -/
def NoReplayOverlap (s : State) : Action → Prop
  | .spawn (.replay _) => ∀ p ∈ s.procs, p.replaying = false
  | _ => True

/-- Every call returns. -/
def NoFault : Action → Prop
  | .run _ ch | .heartbeat _ ch => ch.fault = .none
  | _ => True

def NoCancel : Action → Prop
  | .spawn (.cancel _) => False
  | _ => True

def NoReplay : Action → Prop
  | .spawn (.replay _) => False
  | _ => True

def NoCrash : Action → Prop
  | .crash _ => False
  | _ => True

/-- The handler, if this is its call, raises what is no `Exception`. -/
def Choice.exits (ch : Choice) : Bool :=
  match ch.outcome with
  | .error .baseException => true
  | _ => false

theorem Choice.exits_of_raised {ch : Choice} (h : ch.outcome = .error .baseException) : ch.exits = true := by
  rw [exits, h]

/-- No worker ends of what its handler raises. -/
def NoExit : Action → Prop
  | .run _ ch => ch.exits = false
  | _ => True

def CrashesWorkers (s : State) : Action → Prop
  | .crash pid => ∀ p ∈ s.procs[pid]?, p.isWorker = true
  | _ => True

def Unrestricted (_ : State) (_ : Action) : Prop := True

section
variable {env : Env} {s : State} {a : Action}

instance : Decidable (Fenced env s a) := inferInstanceAs (Decidable (∀ x ∈ s.call? env a, _))
instance : Decidable (ReclaimsAbandoned env s a) := inferInstanceAs (Decidable (∀ x ∈ s.call? env a, _))
instance : Decidable (ReclaimsWithinBudget env s a) := inferInstanceAs (Decidable (∀ x ∈ s.call? env a, _))
instance : Decidable (NoReclaim env s a) := inferInstanceAs (Decidable (∀ x ∈ s.call? env a, _))
instance : Decidable (NoLostSql env s a) := inferInstanceAs (Decidable (∀ x ∈ s.op? env a, _))
instance : Decidable (Unrestricted s a) := inferInstanceAs (Decidable True)

instance : Decidable (NoReplayOverlap s a) := by
  unfold NoReplayOverlap
  split <;> infer_instance

instance : Decidable (NoFault a) := by
  unfold NoFault
  split <;> infer_instance

instance : Decidable (NoCancel a) := by
  unfold NoCancel
  split <;> infer_instance

instance : Decidable (NoReplay a) := by
  unfold NoReplay
  split <;> infer_instance

instance : Decidable (NoCrash a) := by
  unfold NoCrash
  split <;> infer_instance

instance : Decidable (NoExit a) := by
  unfold NoExit
  split <;> infer_instance

instance : Decidable (CrashesWorkers s a) := by
  unfold CrashesWorkers
  split <;> infer_instance

end

/-! Runs on concrete inputs. -/

/-- Rules of any text, each run a minute after the last. -/
def minutely : Env where
  computeNextRun _ t := some (t + seconds 60)

def report : JobCreateRequest := { type := "report" }

def limited (n : Nat) (one_le : 1 ≤ n := by decide) (le : n ≤ 50 := by decide) : JobCreateRequest :=
  { report with maxAttempts := n, one_le_maxAttempts := one_le, maxAttempts_le := le }

def calls (pid n : Nat) : List Action := List.replicate n (.run pid {})

/-- Job 7 is submitted, and worker 1 is at its handler. -/
def taken (req : JobCreateRequest) : List Action :=
  [.spawn (.submit req), .run 0 {}, .run 0 { freshId := 7 }] ++ calls 0 2 ++ [.spawn .worker] ++ calls 1 5

/-- The handler outlives the visibility timeout: reaper 2 reclaims the job, and worker 3 comes to its
handler too. -/
def overrun (req : JobCreateRequest) : List Action :=
  taken req ++ [.tick 61000000, .spawn (.reaper 60 10)] ++ calls 2 5 ++ [.spawn .worker] ++ calls 3 5

end DistribuQ
