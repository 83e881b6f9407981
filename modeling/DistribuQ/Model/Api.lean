import DistribuQ.Model.Call

/-! The requests of `api/main.py` that write: `submit_job`, `cancel_job_by_id` and
`replay_dead_letter_job`. -/

namespace DistribuQ

/-- A request body that `JobCreateRequest` accepts. -/
structure JobCreateRequest where
  type : String
  payload : Payload := []
  priority : Int := 0
  maxAttempts : Nat := 3
  scheduledFor : Option Time := none
  recurrenceRule : Option String := none
  type_ne : type ≠ "" := by decide
  one_le_maxAttempts : 1 ≤ maxAttempts := by decide
  maxAttempts_le : maxAttempts ≤ 50 := by decide

def JobCreateRequest.toNewJob (req : JobCreateRequest) : NewJob :=
  ⟨req.type, req.payload, req.priority, req.maxAttempts, req.scheduledFor, req.recurrenceRule⟩

namespace Submit

inductive Pc
  | validate (req : JobCreateRequest)
  | create (req : JobCreateRequest)
  | push (req : JobCreateRequest) (j : Uuid)
  | emit (req : JobCreateRequest) (j : Uuid)
  | finished

/-- `submit_job`; a rule that `compute_next_run` raises on is answered with 400. -/
def next : Pc → Option (Op Pc)
  | .validate req =>
    match req.recurrenceRule with
    | some rule =>
      if rule ≠ "" then some ⟨.computeNextRun rule, fun
        | .ok (some _) => .create req
        | .ok none | .error _ => .finished⟩
      else some ⟨.skip, fun _ => .create req⟩
    | none => some ⟨.skip, fun _ => .create req⟩
  | .create req => some ⟨.createJob req.toNewJob, fun
    | .ok row => .push req row.id
    | .error _ => .finished⟩
  | .push req j =>
    match req.scheduledFor with
    | none => some ⟨.lpush (Queue.ofPriority req.priority) j, fun
      | .ok _ => .emit req j
      | .error _ => .finished⟩
    | some t => some ⟨.zadd j t, fun
      | .ok _ => .emit req j
      | .error _ => .finished⟩
  | .emit req j =>
    some ⟨.publish (.jobSubmitted j req.type req.priority req.scheduledFor), fun _ => .finished⟩
  | .finished => none

end Submit

namespace Cancel

inductive Pc
  | select (j : Uuid)
  | update (j : Uuid) (job : CancelRecord)
  | lrem (q : Queue) (qs : List Queue) (record : CancelRecord)
  | zrem (record : CancelRecord)
  | emit (record : CancelRecord)
  | finished

/-- The removals from `DEFAULT_QUEUE`, `HIGH_QUEUE` and `LOW_QUEUE`, in this order. -/
def remove (record : CancelRecord) : Pc := .lrem .default [.high, .low] record

/-- `cancel_job_by_id`; a Redis call that raises ends the removals. -/
def next : Pc → Option (Op Pc)
  | .select j => some ⟨.cancelSelect j, fun
    | .ok (some job) => if job.status = .pending then .update j job else remove job
    | .ok none | .error _ => .finished⟩
  | .update j job => some ⟨.cancelUpdate j, fun
    | .ok (some updated) => remove updated
    | .ok none => remove job
    | .error _ => .finished⟩
  | .lrem q qs record => some ⟨.lrem q record.id, fun
    | .ok _ => match qs with
      | q' :: qs => .lrem q' qs record
      | [] => .zrem record
    | .error _ => .finished⟩
  | .zrem record => some ⟨.zrem record.id, fun
    | .ok _ => .emit record
    | .error _ => .finished⟩
  | .emit record =>
    some ⟨.publish (.jobStatusChanged record.id record.type record.status none), fun _ => .finished⟩
  | .finished => none

end Cancel

namespace Replay

inductive Pc
  | select (identifier : Uuid)
  | write (deadLetterId j : Uuid)
  | push (j : Uuid)
  | finished

/-- `replay_dead_letter_job`; `enqueue_job` is called without a priority. -/
def next : Pc → Option (Op Pc)
  | .select i => some ⟨.replaySelect i, fun
    | .ok (some d) => .write d.id d.jobId
    | .ok none | .error _ => .finished⟩
  | .write d j => some ⟨.replayWrite d j, fun
    | .ok _ => .push j
    | .error _ => .finished⟩
  | .push j => some ⟨.lpush (Queue.ofPriority 0) j, fun _ => .finished⟩
  | .finished => none

end Replay
end DistribuQ
