import DistribuQ.Proofs.Conditions

/-! The transitions of a worker, one by one. -/

namespace DistribuQ
namespace Worker
variable {env : Env} {w : WorkerId} {ch : Choice} {st st' : Store}

/-- From one program point by a call to the next; what the call returned is named where it decides
the way. -/
inductive Pc.Goes (env : Env) (w : WorkerId) (ch : Choice) (st st' : Store) : Pc → Call → Pc → Prop
  | poll : Goes env w ch st st' .loop .skip (.poll Queue.ordered)
  | shutdown : Goes env w ch st st' .loop .skip .emitDead
  | reserved {q : Queue} {qs : List Queue} {j : Uuid} : ch.fault = .none →
      Call.run env ch st (.rpoplpush q) = some (st', some j) →
      Goes env w ch st st' (.poll (q :: qs)) (.rpoplpush q) (.fetchAndLock j)
  | empty {q : Queue} {qs : List Queue} : ch.fault = .none →
      Call.run env ch st (.rpoplpush q) = some (st', none) →
      Goes env w ch st st' (.poll (q :: qs)) (.rpoplpush q) (.poll qs)
  | pollFault {q : Queue} {qs : List Queue} : ch.fault ≠ .none →
      Goes env w ch st st' (.poll (q :: qs)) (.rpoplpush q) .loop
  | popped {q : Queue} {j : Uuid} : ch.fault = .none →
      Call.run env ch st (.brpop Queue.ordered) = some (st', some (q, j)) →
      Goes env w ch st st' (.poll []) (.brpop Queue.ordered) (.lpushProcessing j)
  | timeout : ch.fault = .none → Call.run env ch st (.brpop Queue.ordered) = some (st', none) →
      Goes env w ch st st' (.poll []) (.brpop Queue.ordered) .loop
  | popFault : ch.fault ≠ .none → Goes env w ch st st' (.poll []) (.brpop Queue.ordered) .loop
  | put {j : Uuid} : ch.fault = .none →
      Goes env w ch st st' (.lpushProcessing j) (.lpushProcessing j) (.fetchAndLock j)
  | putFault {j : Uuid} : ch.fault ≠ .none →
      Goes env w ch st st' (.lpushProcessing j) (.lpushProcessing j) .loop
  | locked {j : Uuid} {job : LockedJob} : ch.fault = .none →
      Call.run env ch st (.fetchAndLockJob j w) = some (st', some job) →
      Goes env w ch st st' (.fetchAndLock j) (.fetchAndLockJob j w) (.emitRunning job)
  | unlocked {j : Uuid} : ch.fault = .none →
      Call.run env ch st (.fetchAndLockJob j w) = some (st', none) →
      Goes env w ch st st' (.fetchAndLock j) (.fetchAndLockJob j w) (.ackUnlocked j)
  | lockFault {j : Uuid} : ch.fault ≠ .none →
      Goes env w ch st st' (.fetchAndLock j) (.fetchAndLockJob j w) .loop
  | ackUnlocked {j : Uuid} : Goes env w ch st st' (.ackUnlocked j) (.lremProcessing j) .loop
  | emitRunning {job : LockedJob} : Goes env w ch st st' (.emitRunning job)
      (.publish (.jobStatusChanged job.id job.type .running (some w))) (.handler job)
  | returned {job : LockedJob} {v : Json} : ch.outcome = .ok v → Goes env w ch st st' (.handler job)
      (.executeHandler job.type (handlerPayload job.payload)) (.markSuccess job v)
  | raised {job : LockedJob} {e : String} : ch.outcome = .error (.exception e) →
      Goes env w ch st st' (.handler job) (.executeHandler job.type (handlerPayload job.payload)) (onFailure job e)
  | exits {job : LockedJob} : ch.outcome = .error .baseException → Goes env w ch st st' (.handler job)
      (.executeHandler job.type (handlerPayload job.payload)) (.ackExit job)
  | succeeded {job : LockedJob} {v : Json} : ch.fault = .none →
      Goes env w ch st st' (.markSuccess job v) (.markJobSuccess job.id v) (.emitSuccess job)
  | successFault {job : LockedJob} {v : Json} {e : String} : ch.fault ≠ .none →
      Goes env w ch st st' (.markSuccess job v) (.markJobSuccess job.id v) (onFailure job e)
  | emitSuccess {job : LockedJob} : Goes env w ch st st' (.emitSuccess job)
      (.publish (.jobStatusChanged job.id job.type .success (some w))) (afterSuccess job)
  | recurs {job : LockedJob} {rule : String} {t : Time} : env.computeNextRun rule st.clock = some t →
      Goes env w ch st st' (.computeNextRun job rule) (.computeNextRun rule) (.scheduleNext job rule t)
  | badRule {job : LockedJob} {rule : String} : env.computeNextRun rule st.clock = none →
      Goes env w ch st st' (.computeNextRun job rule) (.computeNextRun rule) (.ack job)
  | scheduled {job : LockedJob} {rule : String} {t : Time} {row : Job} : ch.fault = .none →
      Call.run env ch st (.scheduleNextOccurrence (nextOccurrence job rule t)) = some (st', row) →
      Goes env w ch st st' (.scheduleNext job rule t) (.scheduleNextOccurrence (nextOccurrence job rule t))
        (.zaddNext job row.id t)
  | scheduleFault {job : LockedJob} {rule : String} {t : Time} : ch.fault ≠ .none →
      Goes env w ch st st' (.scheduleNext job rule t) (.scheduleNextOccurrence (nextOccurrence job rule t))
        (.ack job)
  | zadded {job : LockedJob} {nextId : Uuid} {t : Time} :
      Goes env w ch st st' (.zaddNext job nextId t) (.zadd nextId t) (.ack job)
  | delayed {job : LockedJob} {e : String} {t : Time} :
      Goes env w ch st st' (.computeRetry job e) (.computeNextRetryAt job.attempts (baseDelay job.payload))
        (.markRetrying job e t)
  | noDelay {job : LockedJob} {e : String} :
      Retry.computeNextRetryAt st.clock job.attempts (baseDelay job.payload) ch.draw = none →
      Goes env w ch st st' (.computeRetry job e) (.computeNextRetryAt job.attempts (baseDelay job.payload))
        (.ack job)
  | retried {job : LockedJob} {e : String} {t : Time} : ch.fault = .none →
      Goes env w ch st st' (.markRetrying job e t) (.markJobRetrying job.id e t) (.emitRetrying job)
  | retryFault {job : LockedJob} {e : String} {t : Time} : ch.fault ≠ .none →
      Goes env w ch st st' (.markRetrying job e t) (.markJobRetrying job.id e t) (.ack job)
  | emitRetrying {job : LockedJob} : Goes env w ch st st' (.emitRetrying job)
      (.publish (.jobStatusChanged job.id job.type .retrying (some w))) (.ack job)
  | buried {job : LockedJob} {e : String} : ch.fault = .none →
      Goes env w ch st st' (.moveToDeadLetter job e) (.moveToDeadLetter job.id e job.attempts)
        (.emitDeadLetter job)
  | buryFault {job : LockedJob} {e : String} : ch.fault ≠ .none →
      Goes env w ch st st' (.moveToDeadLetter job e) (.moveToDeadLetter job.id e job.attempts) (.ack job)
  | emitDeadLetter {job : LockedJob} : Goes env w ch st st' (.emitDeadLetter job)
      (.publish (.jobStatusChanged job.id job.type .deadLetter (some w))) (.ack job)
  | acked {job : LockedJob} : Goes env w ch st st' (.ack job) (.lremProcessing job.id) .loop
  | ackedExit {job : LockedJob} : Goes env w ch st st' (.ackExit job) (.lremProcessing job.id) .loop
  | emitDead : Goes env w ch st st' .emitDead (.publish (.workerDead w)) .markDead
  | markDead : Goes env w ch st st' .markDead (.markWorkerDead w) .stopped

theorem goes_of_next {p p' : Worker} {op : Op Worker} (hop : p.next w = some op)
    (he : op.Ends env ch st st' p') : p.pc.Goes env w ch st st' op.call p'.pc := by
  have hfault {e : String} (h : ch.fault = .raised e ∨ ch.fault = .lost e) : ch.fault ≠ .none := by
    rcases h with h | h <;> rw [h] <;> nofun
  obtain ⟨pc, running, n⟩ := p
  cases pc with
  | loop =>
    cases hop
    cases running <;> cases he
    all_goals first | exact .shutdown | exact .poll
  | poll qs =>
    cases qs with
    | nil =>
      cases hop
      cases he with
      | raised h => exact .popFault (hfault (.inl h))
      | lost h => exact .popFault (hfault (.inr h))
      | @returned _ r hf hr =>
        rcases r with _ | ⟨q, j⟩
        · exact .timeout (hf.resolve_right nofun) hr
        · exact .popped (hf.resolve_right nofun) hr
    | cons q qs =>
      cases hop
      cases he with
      | raised h => exact .pollFault (hfault (.inl h))
      | lost h => exact .pollFault (hfault (.inr h))
      | @returned _ r hf hr =>
        rcases r with _ | j
        · exact .empty (hf.resolve_right nofun) hr
        · exact .reserved (hf.resolve_right nofun) hr
  | lpushProcessing j =>
    cases hop
    cases he with
    | raised h => exact .putFault (hfault (.inl h))
    | lost h => exact .putFault (hfault (.inr h))
    | returned hf => exact .put (hf.resolve_right nofun)
  | fetchAndLock j =>
    cases hop
    cases he with
    | raised h => exact .lockFault (hfault (.inl h))
    | lost h => exact .lockFault (hfault (.inr h))
    | @returned _ r hf hr =>
      rcases r with _ | job
      · exact .unlocked (hf.resolve_right nofun) hr
      · exact .locked (hf.resolve_right nofun) hr
  | handler job =>
    cases hop
    cases he with
    | raised _ hl => cases hl
    | lost _ hl => cases hl
    | @returned _ r _ hr =>
      have hr := congrArg Prod.snd (Option.some.inj hr)
      cases r with
      | ok v => exact .returned hr
      | error e =>
        cases e with
        | exception e => exact .raised hr
        | baseException => exact .exits hr
  | markSuccess job v =>
    cases hop
    cases he with
    | raised h => exact .successFault (hfault (.inl h))
    | lost h => exact .successFault (hfault (.inr h))
    | returned hf => exact .succeeded (hf.resolve_right nofun)
  | computeNextRun job rule =>
    cases hop
    cases he with
    | raised _ hl => cases hl
    | lost _ hl => cases hl
    | @returned _ r _ hr =>
      have hr := congrArg Prod.snd (Option.some.inj hr)
      rcases r with _ | t
      · exact .badRule hr
      · exact .recurs hr
  | scheduleNext job rule t =>
    cases hop
    cases he with
    | raised h => exact .scheduleFault (hfault (.inl h))
    | lost h => exact .scheduleFault (hfault (.inr h))
    | returned hf hr => exact .scheduled (hf.resolve_right nofun) hr
  | computeRetry job e =>
    cases hop
    cases he with
    | raised _ hl => cases hl
    | lost _ hl => cases hl
    | @returned _ r _ hr =>
      have hr := congrArg Prod.snd (Option.some.inj hr)
      rcases r with _ | t
      · exact .noDelay hr
      · exact .delayed
  | markRetrying job e t =>
    cases hop
    cases he with
    | raised h => exact .retryFault (hfault (.inl h))
    | lost h => exact .retryFault (hfault (.inr h))
    | returned hf => exact .retried (hf.resolve_right nofun)
  | moveToDeadLetter job e =>
    cases hop
    cases he with
    | raised h => exact .buryFault (hfault (.inl h))
    | lost h => exact .buryFault (hfault (.inr h))
    | returned hf => exact .buried (hf.resolve_right nofun)
  | stopped => cases hop
  | ackUnlocked | emitRunning | emitSuccess | zaddNext | emitRetrying | emitDeadLetter | ack | ackExit
      | emitDead | markDead =>
    cases hop
    cases he <;> constructor

variable {job : LockedJob}

theorem onFailure_cases {P : Pc → Prop} (e : String)
    (hretry : job.attempts < job.maxAttempts → P (.computeRetry job e))
    (hbury : job.maxAttempts ≤ job.attempts → P (.moveToDeadLetter job e)) : P (onFailure job e) := by
  unfold onFailure
  split_ifs with h
  · exact hretry h
  · exact hbury (not_lt.mp h)

theorem afterSuccess_cases {P : Pc → Prop} (hrecur : ∀ rule, P (.computeNextRun job rule)) (hack : P (.ack job)) :
    P (afterSuccess job) := by
  unfold afterSuccess
  split
  · split_ifs
    · exact hrecur _
    · exact hack
  · exact hack

@[simp] theorem attempt?_onFailure (e : String) : (onFailure job e).attempt? = some job :=
  onFailure_cases (P := fun pc => pc.attempt? = some job) e (fun _ => rfl) fun _ => rfl

@[simp] theorem attempt?_afterSuccess : (afterSuccess job).attempt? = none :=
  afterSuccess_cases (P := fun pc => pc.attempt? = none) (fun _ => rfl) rfl

/-- A reading of the program point yields a job because it did before, or because a lock has returned
the job. -/
def Pc.FromLock (f : Pc → Option LockedJob) : Prop :=
  f .loop = none ∧ (∀ j, f (.fetchAndLock j) = none) ∧
    ∀ env w ch st st' pc c pc' job, Pc.Goes env w ch st st' pc c pc' → f pc' = some job →
      f pc = some job ∨ ∃ j, c = .fetchAndLockJob j w ∧ ch.fault = .none ∧
        Call.run env ch st (.fetchAndLockJob j w) = some (st', some job)

theorem fromLock_attempt? : Pc.FromLock Pc.attempt? := by
  refine ⟨rfl, fun _ => rfl, fun env w ch st st' pc c pc' job h ha => ?_⟩
  cases h with
  | locked hf hr =>
    cases ha
    exact .inr ⟨_, rfl, hf, hr⟩
  | raised | successFault => exact .inl ((attempt?_onFailure _).symm.trans ha)
  | emitSuccess => cases attempt?_afterSuccess.symm.trans ha
  | _ => first | exact .inl ha | cases ha

end Worker
end DistribuQ
