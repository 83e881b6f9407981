import DistribuQ.Proofs.Conditions

/-! The columns of a row agree with its status, whatever writes the table and in whatever order. -/

namespace DistribuQ
open Transition

/-- What the status of a row says of its other columns. -/
structure Job.Consistent (r : Job) : Prop where
  lockedBy : r.status = .running ↔ r.lockedBy.isSome = true
  lockedAt : r.status = .running ↔ r.lockedAt.isSome = true
  success : r.status = .success → r.error = none
  retrying : r.status = .retrying → r.nextRetryAt.isSome = true ∧ r.error.isSome = true
  failed : r.status = .failed ∨ r.status = .deadLetter → r.error.isSome = true

/-- The operations that write `jobs`, with their arguments; for `cancel_job` and `replay_dead_letter`
the statements that write. -/
inductive JobsWrite
  | createJob (id : Uuid) (new : NewJob)
  | scheduleNextOccurrence (id : Uuid) (new : NewJob)
  | fetchAndLockJob (j : Uuid) (w : WorkerId)
  | markJobSuccess (j : Uuid) (result : Json)
  | markJobFailed (j : Uuid) (error : String)
  | markJobRetrying (j : Uuid) (error : String) (nextRetryAt : Time)
  | moveToDeadLetter (id j : Uuid) (finalError : String) (attemptsMade : Nat)
  | reclaimStaleJobs (visibilityTimeoutSeconds : Nat)
  | reclaimDueRetryJobs
  | cancelUpdate (j : Uuid)
  | replayWrite (deadLetterId j : Uuid)

def JobsWrite.run (db : Database) (now : Time) : JobsWrite → Option Database
  | createJob id new => (db.createJob now id new).map Prod.fst
  | scheduleNextOccurrence id new => (db.scheduleNextOccurrence now id new).map Prod.fst
  | fetchAndLockJob j w => some (db.fetchAndLockJob now j w).1
  | markJobSuccess j v => some (db.markJobSuccess now j v)
  | markJobFailed j e => some (db.markJobFailed now j e)
  | markJobRetrying j e t => some (db.markJobRetrying now j e t)
  | moveToDeadLetter id j e n => db.moveToDeadLetter now id j e n
  | reclaimStaleJobs n => some (db.reclaimStaleJobs now n).1
  | reclaimDueRetryJobs => some (db.reclaimDueRetryJobs now).1
  | cancelUpdate j => some (db.cancelUpdate now j).1
  | replayWrite d j => some (db.replayWrite now d j)

/-- A write at some time, or anything that is done to the other two tables. -/
inductive TableStep
  | write (now : Time) (w : JobsWrite)
  | other (workers : Table WorkerRow.id) (deadLetters : Table DeadLetter.id)

def TableStep.step (db : Database) : TableStep → Option Database
  | write now w => w.run db now
  | other workers deadLetters => some { db with workers := workers, deadLetters := deadLetters }

def AnyWrite (_ : Database) (_ : TableStep) : Prop := True

instance (db : Database) (a : TableStep) : Decidable (AnyWrite db a) := inferInstanceAs (Decidable True)

namespace Database
variable {db db' : Database} {now : Time}

def RowsConsistent (db : Database) : Prop := ∀ r ∈ db.jobs.rows, r.Consistent

theorem RowsConsistent.updateJobs (h : db.RowsConsistent) {p : Job → Bool} {f : Job → Job}
    (hf : ∀ r, (f r).id = r.id) (hset : ∀ r, ((f r).touch now).Consistent) :
    (db.updateJobs now p f hf).RowsConsistent := by
  intro r' hr'
  obtain ⟨r, hr, rfl⟩ := List.mem_map.mp hr'
  show (if p r then (f r).touch now else r).Consistent
  split_ifs
  · exact hset r
  · exact h r hr

theorem RowsConsistent.insertJob (h : db.RowsConsistent) {id : Uuid} {new : NewJob} {row : Job}
    (hi : db.insertJob now id new = some (db', row)) : db'.RowsConsistent := by
  unfold Database.insertJob at hi
  split_ifs at hi
  cases hi
  intro r hr
  rcases List.mem_append.mp hr with hr | hr
  · exact h r hr
  · rw [List.mem_singleton.mp hr]
    constructor <;> simp [NewJob.toJob]

/-- No write looks at the row it finds to leave it consistent: each sets all that its new status asks for. -/
theorem RowsConsistent.write (h : db.RowsConsistent) {w : JobsWrite} (hw : w.run db now = some db') :
    db'.RowsConsistent := by
  cases w with
  | createJob | scheduleNextOccurrence =>
    obtain ⟨⟨_, row⟩, hi, rfl⟩ := Option.map_eq_some_iff.mp hw
    exact h.insertJob hi
  | fetchAndLockJob j w =>
    cases hw
    exact h.updateJobs _ fun r => by constructor <;> simp [Job.touch, Job.lock]
  | markJobSuccess j v =>
    cases hw
    exact h.updateJobs _ fun r => by constructor <;> simp [Job.touch, Job.succeed]
  | markJobFailed j e =>
    cases hw
    exact h.updateJobs _ fun r => by constructor <;> simp [Job.touch, Job.fail]
  | markJobRetrying j e t =>
    cases hw
    exact h.updateJobs _ fun r => by constructor <;> simp [Job.touch, Job.retry]
  | moveToDeadLetter id j e n =>
    obtain ⟨_, hj, _, _⟩ := moveToDeadLetter_eq_some hw
    unfold RowsConsistent
    rw [hj]
    exact h.updateJobs _ fun r => by constructor <;> simp [Job.touch, Job.bury]
  | reclaimStaleJobs | reclaimDueRetryJobs =>
    cases hw
    exact h.updateJobs _ fun r => by constructor <;> simp [Job.touch, Job.release]
  | cancelUpdate j =>
    cases hw
    exact h.updateJobs _ fun r => by constructor <;> simp [Job.touch, Job.cancel]
  | replayWrite d j =>
    cases hw
    exact h.updateJobs (fun r => show r.reset.id = r.id from rfl) fun r => by
      constructor <;> simp [Job.touch, Job.reset]

theorem rowsConsistent_of_reachable (h : Reachable AnyWrite TableStep.step empty db) :
    db.RowsConsistent := by
  refine h.invariant (I := RowsConsistent) ?_ fun db a db' hI _ hstep => ?_
  · intro r hr
    cases hr
  · cases a with
    | write now w => exact hI.write hstep
    | other workers deadLetters =>
      cases hstep
      exact hI

end Database

/-- What a call does to the tables is a write of `jobs`, or none. -/
theorem Call.tableStep_of_run {env : Env} {ch : Choice} {st st' : Store} {c : Call} {x : c.Ret}
    (h : c.run env ch st = some (st', x)) : ∃ a, TableStep.step st.db a = some st'.db := by
  have hother {db : Database} (hjobs : db.jobs = st.db.jobs) :
      ∃ a, TableStep.step st.db a = some db :=
    ⟨.other db.workers db.deadLetters, by rw [TableStep.step, ← hjobs]⟩
  cases c <;> simp only [run, Option.some.injEq, Option.map_eq_some_iff, Prod.exists] at h
  case scheduleNextOccurrence new =>
    obtain ⟨_, _, h, h'⟩ := h
    cases h'
    exact ⟨.write st.clock (.scheduleNextOccurrence ch.freshId new), by
      rw [TableStep.step, JobsWrite.run, h]; rfl⟩
  case createJob new =>
    obtain ⟨_, _, h, h'⟩ := h
    cases h'
    exact ⟨.write st.clock (.createJob ch.freshId new), by rw [TableStep.step, JobsWrite.run, h]; rfl⟩
  case moveToDeadLetter j e n =>
    obtain ⟨_, h, h'⟩ := h
    cases h'
    exact ⟨.write st.clock (.moveToDeadLetter ch.freshId j e n), h⟩
  case fetchAndLockJob j w =>
    cases h
    exact ⟨.write st.clock (.fetchAndLockJob j w), rfl⟩
  case markJobSuccess j v =>
    cases h
    exact ⟨.write st.clock (.markJobSuccess j v), rfl⟩
  case markJobRetrying j e t =>
    cases h
    exact ⟨.write st.clock (.markJobRetrying j e t), rfl⟩
  case reclaimStaleJobs n =>
    cases h
    exact ⟨.write st.clock (.reclaimStaleJobs n), rfl⟩
  case reclaimDueRetryJobs =>
    cases h
    exact ⟨.write st.clock .reclaimDueRetryJobs, rfl⟩
  case cancelUpdate j =>
    cases h
    exact ⟨.write st.clock (.cancelUpdate j), rfl⟩
  case replayWrite d j =>
    cases h
    exact ⟨.write st.clock (.replayWrite d j), rfl⟩
  case upsertWorkerHeartbeat =>
    cases h
    exact hother Database.jobs_upsertWorkerHeartbeat
  all_goals
    cases h
    exact hother rfl

/-- Whatever the processes do, the tables go through a run of writes. -/
theorem tables_of_reachable {env : Env} {ok : State → Action → Prop} {t : Nat} {s : State}
    (h : Reachable ok (step env) (.init t) s) :
    Reachable AnyWrite TableStep.step Database.empty s.store.db := by
  refine h.invariant
    (I := fun s => Reachable AnyWrite TableStep.step Database.empty s.store.db) .refl ?_
  intro s a s' hI _ hstep
  rcases store_of_step hstep with ⟨_, _, c, _, _, hrun⟩ | ⟨_, hdb, _⟩
  · obtain ⟨b, hb⟩ := Call.tableStep_of_run hrun
    exact hI.next (a := b) trivial hb
  · rw [hdb]
    exact hI

/-- Every row is consistent, after every run of writes and in every state of the system. -/
structure ConsistencyLaw (env : Env) : Prop where
  tables {db : Database} : Reachable AnyWrite TableStep.step Database.empty db →
    ∀ r ∈ db.jobs.rows, r.Consistent
  system {t : Nat} {s : State} : Reachable Unrestricted (step env) (.init t) s →
    ∀ r ∈ s.store.db.jobs.rows, r.Consistent

theorem consistencyLaw (env : Env) : ConsistencyLaw env where
  tables h := Database.rowsConsistent_of_reachable h
  system h := Database.rowsConsistent_of_reachable (tables_of_reachable h)

/-- Job 7 is buried, replayed, locked again and replayed once more, and then its retry is written late. -/
theorem consistencyLaw_overlapping : ∃ db, Reachable AnyWrite TableStep.step Database.empty db ∧
    db.status? 7 = some .retrying ∧ ∀ r ∈ db.jobs.rows, r.Consistent := by
  obtain ⟨db, h, hs⟩ : ∃ db, Reachable AnyWrite TableStep.step Database.empty db ∧ _ :=
    exists_reachable_of_exec ([JobsWrite.createJob 7 report.toNewJob, .fetchAndLockJob 7 1,
        .moveToDeadLetter 3 7 "error" 3, .replayWrite 3 7, .fetchAndLockJob 7 2, .replayWrite 3 7,
        .markJobRetrying 7 "error" 5].map (.write 0))
      (fun db => db.status? 7 = some .retrying) (by decide)
  exact ⟨db, h, of_decide_eq_true hs, (consistencyLaw minutely).tables h⟩

end DistribuQ
