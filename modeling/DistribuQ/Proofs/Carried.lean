import DistribuQ.Proofs.DeadLetters

/-! What a worker knows of its job agrees with the row, and with the branch it has taken. -/

namespace DistribuQ
open Transition
variable {env : Env} {s s' : State} {a : Action}

/-- The job that `process_job` is about. -/
def Worker.Pc.job? : Worker.Pc → Option LockedJob
  | emitRunning job | handler job | markSuccess job _ | emitSuccess job | computeNextRun job _
  | scheduleNext job _ _ | zaddNext job _ _ | computeRetry job _ | markRetrying job _ _
  | emitRetrying job | moveToDeadLetter job _ | emitDeadLetter job | ack job | ackExit job => some job
  | _ => none

def Proc.job? (p : Proc) : Option LockedJob := p.ofPc Worker.Pc.job?

theorem Worker.Pc.job?_of_attempt? {pc : Pc} {job : LockedJob} (h : pc.attempt? = some job) :
    pc.job? = some job := by
  cases pc <;> first | exact h | cases h

namespace Worker
variable {job : LockedJob} {e : String}

@[simp] theorem job?_onFailure : (onFailure job e).job? = some job :=
  onFailure_cases (P := fun pc => pc.job? = some job) e (fun _ => rfl) fun _ => rfl

@[simp] theorem job?_afterSuccess : (afterSuccess job).job? = some job :=
  afterSuccess_cases (P := fun pc => pc.job? = some job) (fun _ => rfl) rfl

theorem fromLock_job? : Pc.FromLock Pc.job? := by
  refine ⟨rfl, fun _ => rfl, fun env w ch st st' pc c pc' job h ha => ?_⟩
  cases h with
  | locked hf hr =>
    cases ha
    exact .inr ⟨_, rfl, hf, hr⟩
  | raised | successFault => exact .inl (job?_onFailure.symm.trans ha)
  | emitSuccess => exact .inl (job?_afterSuccess.symm.trans ha)
  | _ => first | exact .inl ha | cases ha

end Worker

theorem toLocked_congr {r r' : Job} (hid : r'.id = r.id) (h : r'.origin = r.origin) (n : Nat) :
    { r'.toLocked with attempts := n } = { r.toLocked with attempts := n } := by
  simp only [Job.origin, NewJob.mk.injEq] at h
  simp only [Job.toLocked, LockedJob.mk.injEq]
  exact ⟨hid, h.1, h.2.1, h.2.2.1, trivial, h.2.2.2.1, h.2.2.2.2.2⟩

/-- The job of a worker agrees with its row, but for the attempts. -/
def Carried (s : State) : Prop :=
  ∀ (i : Nat) (p : Proc) (job : LockedJob), s.procs[i]? = some p → p.job? = some job →
    ∃ r, s.store.db.job? job.id = some r ∧ job = { r.toLocked with attempts := job.attempts }

theorem carried_step (hI : Carried s) (h : step env s a = some s') : Carried s' := by
  intro i p' job hp' hjob
  rcases ofPc_of_step Worker.fromLock_job? h hp' hjob with ⟨p, hp, hjob, _⟩ | ⟨r, _, _, _, hjob, hr'⟩
  · obtain ⟨r, hr, hrow⟩ := hI i p job hp hjob
    obtain ⟨r', hr', horigin⟩ := step_origin h hr
    have hid : r'.id = r.id := (Database.id_of_job? hr').trans (Database.id_of_job? hr).symm
    exact ⟨r', hr', by rw [toLocked_congr hid horigin]; exact hrow⟩
  · exact ⟨_, hr', by rw [hjob]; rfl⟩

theorem carried_of_reachable {ok : State → Action → Prop} {t : Nat}
    (h : Reachable ok (step env) (.init t) s) : Carried s :=
  h.invariant (by intro i p job hp; cases hp) fun _ _ _ hI _ => carried_step hI

/-- A worker that goes on to a retry has attempts left, one that goes on to `dead_letters` has none. -/
def Worker.Pc.Judged : Worker.Pc → Prop
  | computeRetry job _ | markRetrying job _ _ => job.attempts < job.maxAttempts
  | moveToDeadLetter job _ => job.maxAttempts ≤ job.attempts
  | _ => True

namespace Worker
variable {w : WorkerId} {ch : Choice} {st st' : Store} {pc pc' : Pc} {c : Call} {job : LockedJob}

theorem judged_onFailure (e : String) : (onFailure job e).Judged :=
  onFailure_cases (P := Pc.Judged) e (fun hlt => hlt) fun hle => hle

theorem judged_afterSuccess : (afterSuccess job).Judged :=
  afterSuccess_cases (P := Pc.Judged) (fun _ => trivial) trivial

theorem judged_of_goes (h : pc.Goes env w ch st st' c pc') (hj : pc.Judged) : pc'.Judged := by
  cases h with
  | raised | successFault => exact judged_onFailure _
  | emitSuccess => exact judged_afterSuccess
  | delayed => exact hj
  | _ => trivial

end Worker

/-- What holds at the loop and is kept from one program point to the next holds at every worker. -/
theorem pcs_step {P : Worker.Pc → Prop} (hloop : P .loop)
    (hgoes : ∀ (w : WorkerId) (ch : Choice) (st st' : Store) (pc : Worker.Pc) (c : Call) (pc' : Worker.Pc),
      pc.Goes env w ch st st' c pc' → P pc → P pc')
    (hI : ∀ (i : Nat) (p : Worker), s.procs[i]? = some (.worker p) → P p.pc) (h : step env s a = some s')
    (i : Nat) (p' : Worker) (hp' : s'.procs[i]? = some (.worker p')) : P p'.pc := by
  cases became_of_step h hp' with
  | kept hp => exact hI i p' hp
  | spawned r hr =>
    cases r <;> cases hr
    exact hloop
  | signalled p hp hr =>
    cases p <;> cases hr
    exact (hI i _ hp :)
  | crashed hr => cases hr
  | ran hp hop he =>
    cases Proc.goes_of_next hop he with
    | worker hnext _ hends => exact hgoes _ _ _ _ _ _ _ (Worker.goes_of_next hnext hends) (hI i _ hp)

theorem pcs_of_reachable {P : Worker.Pc → Prop} (hloop : P .loop)
    (hgoes : ∀ (w : WorkerId) (ch : Choice) (st st' : Store) (pc : Worker.Pc) (c : Call) (pc' : Worker.Pc),
      pc.Goes env w ch st st' c pc' → P pc → P pc')
    {ok : State → Action → Prop} {t : Nat} (h : Reachable ok (step env) (.init t) s) :
    ∀ (i : Nat) (p : Worker), s.procs[i]? = some (.worker p) → P p.pc :=
  h.invariant (I := fun s => ∀ (i : Nat) (p : Worker), s.procs[i]? = some (.worker p) → P p.pc)
    (by intro i p hp; cases hp) fun _ _ _ hI _ => pcs_step hloop hgoes hI

def Judged (s : State) : Prop := ∀ (i : Nat) (p : Worker), s.procs[i]? = some (.worker p) → p.pc.Judged

theorem judged_of_reachable {ok : State → Action → Prop} {t : Nat}
    (h : Reachable ok (step env) (.init t) s) : Judged s :=
  pcs_of_reachable trivial (fun _ _ _ _ _ _ _ => Worker.judged_of_goes) h

end DistribuQ
