import DistribuQ.Proofs.FailureFree
import DistribuQ.Library.Matching

/-! Every `job.status_changed` event goes back to a change of the row, where only `PENDING` jobs are
cancelled. -/

namespace DistribuQ
open Transition
variable {env : Env} {s s' : State} {a : Action} {pid : Nat} {ch : Choice} {st st' : Store} {j : Uuid}
  {x : JobStatus} {e : Uuid × JobStatus}

/-- What a call publishes of the status of a job. -/
def Call.announced? : Call → Option (Uuid × JobStatus)
  | publish (.jobStatusChanged j _ x _) => some (j, x)
  | _ => none

/-! What a process is about to publish. -/

def Worker.Pc.announces? : Pc → Option (Uuid × JobStatus)
  | emitRunning job => some (job.id, .running)
  | emitSuccess job => some (job.id, .success)
  | emitRetrying job => some (job.id, .retrying)
  | emitDeadLetter job => some (job.id, .deadLetter)
  | _ => none

def Cancel.Pc.announces? : Pc → Option (Uuid × JobStatus)
  | lrem _ _ record | zrem record | emit record => some (record.id, record.status)
  | _ => none

def Proc.announces? : Proc → Option (Uuid × JobStatus)
  | worker p => p.pc.announces?
  | cancel pc => pc.announces?
  | _ => none

def Proc.owesEvent (e : Uuid × JobStatus) (p : Proc) : Nat := indicator (p.announces? = some e)

/-- Process `pid` publishes that the status of `j` has changed to `x`. -/
def State.Emits (env : Env) (s : State) (a : Action) (pid : Nat) (j : Uuid) (x : JobStatus) : Prop :=
  ∃ y ∈ s.call? env a, y.1 = pid ∧ y.2.announced? = some (j, x)

/-- The row of `j` changes from another status to `x`. -/
def State.Turns (env : Env) (s : State) (a : Action) (j : Uuid) (x : JobStatus) : Prop :=
  (∃ y ∈ s.store.db.status? j, y ≠ x) ∧ ∃ s' ∈ step env s a, s'.store.db.status? j = some x

/-- It does so by a call of `pid`. -/
def State.Becomes (env : Env) (s : State) (a : Action) (pid : Nat) (j : Uuid) (x : JobStatus) : Prop :=
  (∃ y ∈ s.call? env a, y.1 = pid) ∧ s.Turns env a j x

instance : Decidable (s.Emits env a pid j x) := inferInstanceAs (Decidable (∃ y ∈ s.call? env a, _))
instance : Decidable (s.Turns env a j x) :=
  inferInstanceAs (Decidable ((∃ y ∈ s.store.db.status? j, _) ∧ _))
instance : Decidable (s.Becomes env a pid j x) := inferInstanceAs (Decidable (_ ∧ _))

/-- A statement of `cancel_job` comes to a job that is `PENDING`. -/
def Call.CancelsPending (db : Database) : Call → Prop
  | cancelSelect j => ∀ r ∈ db.job? j, r.status = .pending
  | cancelUpdate j => db.status? j = some .pending
  | _ => True

instance (db : Database) (c : Call) : Decidable (c.CancelsPending db) :=
  match c with
  | .cancelSelect j => inferInstanceAs (Decidable (∀ r ∈ db.job? j, _))
  | .cancelUpdate j => inferInstanceAs (Decidable (db.status? j = _))
  | .fetchAndLockJob .. | .markJobSuccess .. | .markJobRetrying .. | .moveToDeadLetter ..
  | .getPendingScheduledJobs | .upsertWorkerHeartbeat .. | .markWorkerDead _ | .markExpiredWorkersDead _
  | .reclaimStaleJobs _ | .reclaimDueRetryJobs | .scheduleNextOccurrence _ | .createJob _ | .replaySelect _
  | .replayWrite .. | .lpush .. | .rpush .. | .lrem .. | .lpushProcessing _ | .lremProcessing _ | .rpoplpush _
  | .brpop _ | .zadd .. | .zrem _ | .promoteScheduled .. | .publish _ | .skip | .now | .monotonic
  | .executeHandler .. | .computeNextRetryAt .. | .computeNextRun _ => instDecidableTrue

/-- No stale reclaim, every call returns, replays one at a time, and cancel requests for `PENDING` jobs only. -/
structure Attentive (env : Env) (s : State) (a : Action) : Prop where
  reclaim : NoReclaim env s a
  returns : NoFault a
  replay : NoReplayOverlap s a
  cancel : ∀ y ∈ s.call? env a, y.2.CancelsPending s.store.db

instance : Decidable (Attentive env s a) :=
  decidable_of_iff (NoReclaim env s a ∧ NoFault a ∧ NoReplayOverlap s a ∧
      ∀ y ∈ s.call? env a, y.2.CancelsPending s.store.db)
    ⟨fun ⟨h₁, h₂, h₃, h₄⟩ => ⟨h₁, h₂, h₃, h₄⟩, fun ⟨h₁, h₂, h₃, h₄⟩ => ⟨h₁, h₂, h₃, h₄⟩⟩

theorem Attentive.orderly (h : Attentive env s a) : Orderly env s a := by
  refine ⟨fun x hx n hn r hr hstale => ?_, h.replay, h.returns.noLostSql⟩
  rw [h.reclaim x hx n hn r hr] at hstale
  cases hstale

/-- What a call does to the announcements: it drops one or leaves it to be made, makes it, or brings one that
the row has given cause for. -/
inductive Announces (st st' : Store) : Option (Uuid × JobStatus) → Option (Uuid × JobStatus) →
    Option (Uuid × JobStatus) → Prop
  | silent {o : Option (Uuid × JobStatus)} : Announces st st' o none none
  | kept {o : Option (Uuid × JobStatus)} : Announces st st' o none o
  | made {e : Uuid × JobStatus} : Announces st st' (some e) (some e) none
  | due {j : Uuid} {r r' : Job} : st.db.job? j = some r → st'.db.job? j = some r' →
      r.status ≠ r'.status →
      Announces st st' none none (some (j, r'.status))

theorem Announces.le {o c o' : Option (Uuid × JobStatus)} (h : Announces st st' o c o') (j : Uuid)
    (x : JobStatus) :
    indicator (o' = some (j, x)) + indicator (c = some (j, x)) ≤ indicator (o = some (j, x)) +
      indicator ((∃ y ∈ st.db.status? j, y ≠ x) ∧ st'.db.status? j = some x) := by
  cases h with
  | silent =>
    rw [indicator_neg nofun]
    exact Nat.zero_le _
  | kept =>
    rw [indicator_neg (p := none = some (j, x)) nofun]
    exact Nat.le_add_right _ _
  | made =>
    rw [indicator_neg (p := none = some (j, x)) nofun, Nat.zero_add]
    exact Nat.le_add_right _ _
  | @due i r r' hr hr' hne =>
    rw [indicator_neg (p := none = some (j, x)) nofun, Nat.zero_add]
    refine indicator_mono fun heq => ?_
    cases heq
    exact ⟨⟨r.status, Database.status?_of_job? hr, hne⟩, Database.status?_of_job? hr'⟩

namespace Worker
variable {w : WorkerId} {pc pc' : Pc} {c : Call} {job : LockedJob}

theorem announces?_onFailure (e : String) : (onFailure job e).announces? = none :=
  onFailure_cases (P := fun pc => pc.announces? = none) e (fun _ => rfl) fun _ => rfl

theorem announces?_afterSuccess : (afterSuccess job).announces? = none :=
  afterSuccess_cases (P := fun pc => pc.announces? = none) (fun _ => rfl) rfl

/-- A worker announces the lock and the outcome that it has just written. -/
theorem announces_of_goes {v : c.Ret} (h : pc.Goes env w ch st st' c pc')
    (hv : c.run env ch st = some (st', v)) (hheld : ∀ job, pc.attempt? = some job →
      ∃ r, st.db.job? job.id = some r ∧ r.status = .running) :
    Announces st st' pc.announces? c.announced? pc'.announces? := by
  cases h with
  | locked _ hr =>
    obtain ⟨r, hrow, hclaim, _, hid, hrow'⟩ := Call.run_fetchAndLockJob_some hr
    subst hid
    refine .due hrow hrow' fun hs => ?_
    simp [Job.claimable, hs, Job.touch, Job.lock] at hclaim
  | emitRunning | emitRetrying | emitDeadLetter => exact .made
  | emitSuccess =>
    rw [announces?_afterSuccess]
    exact .made
  | @succeeded job v =>
    obtain ⟨r, hr, hs⟩ := hheld job rfl
    have hr' := Call.run_job?_of_update hv hr rfl (decide_eq_true (Database.id_of_job? hr))
    exact .due hr hr' fun h => by cases hs.symm.trans h
  | @retried job e t =>
    obtain ⟨r, hr, hs⟩ := hheld job rfl
    have hr' := Call.run_job?_of_update hv hr rfl (decide_eq_true (Database.id_of_job? hr))
    exact .due hr hr' fun h => by cases hs.symm.trans h
  | @buried job e =>
    obtain ⟨r, hr, hs⟩ := hheld job rfl
    have hr' := Call.run_job?_of_update hv hr rfl (decide_eq_true (Database.id_of_job? hr))
    exact .due hr hr' fun h => by cases hs.symm.trans h
  | raised | successFault =>
    rw [announces?_onFailure]
    exact .silent
  | _ => exact .silent

end Worker

/-- A cancel request for a `PENDING` job announces the change it has made. -/
theorem Cancel.announces_of_next {pc : Pc} {op : Op Pc} {v : op.call.Ret}
    (hop : Cancel.next pc = some op)
    (hv : op.call.run env ch st = some (st', v)) (hc : op.call.CancelsPending st.db) :
    Announces st st' pc.announces? op.call.announced? (op.resume (.ok v)).announces? := by
  cases pc with
  | select j =>
    cases hop
    simp only [Call.run, Option.some.injEq, Prod.mk.injEq] at hv
    obtain ⟨rfl, hv⟩ := hv
    rcases v with _ | record
    · exact .silent
    · obtain ⟨r, hr, rfl⟩ := Database.cancelSelect_eq_some hv
      have hs : r.toCancelRecord.status = .pending := hc r hr
      dsimp only
      rw [if_pos hs]
      exact .silent
  | update j job =>
    cases hop
    obtain ⟨r, hr, hs, hsome⟩ := Database.cancelUpdate_eq_some st.clock hc
    have hr' := Call.run_job?_of_update hv hr rfl (by simp [Database.id_of_job? hr, hs])
    simp only [Call.run, Option.some.injEq, Prod.mk.injEq] at hv
    obtain rfl := hv.2.symm.trans hsome
    have hid := Database.id_of_job? hr
    subst hid
    have hdue : Announces st st' none none (some (r.id, (r.cancel.touch st.clock).status)) :=
      .due hr hr' fun h => by cases hs.symm.trans h
    exact hdue
  | lrem q qs record =>
    cases hop
    cases qs <;> exact .kept
  | zrem record =>
    cases hop
    exact .kept
  | emit record =>
    cases hop
    exact .made
  | finished => cases hop

section
variable {p p' : Proc} {op : Op Proc}

theorem announces_of_run (hI : Exclusive s) (hok : Attentive env s (.run pid ch))
    (hp : s.procs[pid]? = some p)
    (hop : p.next env pid = some op) (he : op.Ends env ch s.store st p') :
    Announces s.store st p.announces? op.call.announced? p'.announces? := by
  have hc := call?_of_no_fault hp (.inl ⟨rfl, hop⟩) hok.returns
  obtain ⟨v, hv, hp'⟩ := he.of_no_fault hok.returns
  cases p with
  | worker w =>
    cases Proc.goes_of_next hop he with
    | worker hnext heq hends =>
      have hg := Worker.goes_of_next hnext hends
      rw [heq] at hg
      refine Worker.announces_of_goes hg hv fun job hjob => ?_
      obtain ⟨r, hr, hs, _⟩ := hI.owner pid _ job hp hjob
      exact ⟨r, hr, hs⟩
  | cancel pc =>
    obtain ⟨op, hnext, rfl⟩ := Option.map_eq_some_iff.mp hop
    subst hp'
    exact Cancel.announces_of_next hnext hv (hok.cancel _ hc)
  | submit pc =>
    obtain ⟨op, hnext, rfl⟩ := Option.map_eq_some_iff.mp hop
    subst hp'
    cases Submit.does_of_next hnext <;> exact .silent
  | replay pc =>
    subst hp'
    cases pc <;> cases hop <;> exact .silent
  | scheduler p =>
    subst hp'
    obtain ⟨pc, _, _⟩ := p
    cases pc <;> cases hop <;> exact .silent
  | reaper p =>
    subst hp'
    obtain ⟨_, _, pc, _⟩ := p
    cases pc <;> cases hop <;> exact .silent
  | gone => cases hop

/-- Under `pid` the announcements still to be made and those that are made stay within the changes. -/
theorem owesEvent_of_run (hI : Exclusive s) (hok : Attentive env s (.run pid ch))
    (h : step env s (.run pid ch) = some s') (hp : s.procs[pid]? = some p)
    (hop : p.next env pid = some op) (he : op.Ends env ch s.store s'.store p') :
    p'.owesEvent (j, x) + indicator (s.Emits env (.run pid ch) pid j x) ≤
      p.owesEvent (j, x) + indicator (s.Becomes env (.run pid ch) pid j x) := by
  have hc := call?_of_no_fault hp (.inl ⟨rfl, hop⟩) hok.returns
  have hemits : s.Emits env (.run pid ch) pid j x ↔ op.call.announced? = some (j, x) := by
    constructor
    · rintro ⟨y, hy, _, hj⟩
      cases hc.symm.trans hy
      exact hj
    · exact fun hj => ⟨_, hc, rfl, hj⟩
  have hbecomes : s.Becomes env (.run pid ch) pid j x ↔
      (∃ y ∈ s.store.db.status? j, y ≠ x) ∧ s'.store.db.status? j = some x := by
    constructor
    · rintro ⟨_, hne, s₁, hs₁, hs⟩
      cases h.symm.trans hs₁
      exact ⟨hne, hs⟩
    · exact fun ⟨hne, hs⟩ => ⟨⟨_, hc, rfl⟩, hne, s', h, hs⟩
  rw [indicator_congr hemits, indicator_congr hbecomes]
  exact (announces_of_run hI hok hp hop he).le j x

end

@[simp] theorem Proc.owesEvent_signal (p : Proc) : p.signal.owesEvent e = p.owesEvent e := by
  cases p <;> rfl

@[simp] theorem Proc.owesEvent_toProc (r : Request) : r.toProc.owesEvent e = 0 := by
  cases r <;> exact indicator_neg nofun

theorem Proc.owesEvent_gone : Proc.gone.owesEvent e = 0 := indicator_neg nofun

theorem Proc.announces?_of_next {p : Proc} {op : Op Proc} (hop : p.next env pid = some op)
    (hj : op.call.announced? = some e) : p.announces? = some e := by
  cases p with
  | worker p =>
    obtain ⟨pc, _, _⟩ := p
    cases pc with
    | poll qs => cases qs <;> cases hop <;> cases hj
    | stopped => cases hop
    | _ =>
      cases hop
      cases hj
      try rfl
  | submit pc =>
    obtain ⟨_, hnext, rfl⟩ := Option.map_eq_some_iff.mp hop
    cases Submit.does_of_next hnext <;> cases hj
  | cancel pc =>
    cases pc <;> cases hop <;> cases hj
    rfl
  | replay pc => cases pc <;> cases hop <;> cases hj
  | scheduler p =>
    obtain ⟨pc, _, _⟩ := p
    cases pc <;> cases hop <;> cases hj
  | reaper p =>
    obtain ⟨_, _, pc, _⟩ := p
    cases pc <;> cases hop <;> cases hj
  | gone => cases hop

theorem not_emits_of_heartbeat (ha : ∀ ch, a ≠ .run pid ch) : ¬ s.Emits env a pid j x := by
  rintro ⟨⟨k, c⟩, hc, hk, hj⟩
  obtain rfl : k = pid := hk
  obtain ⟨n, rfl⟩ := heartbeat_of_call? hc ha
  cases hj

theorem owesEvent_of_step (hI : Exclusive s) (hok : Attentive env s a) (h : step env s a = some s')
    (pid : Nat) :
    s'.share (Proc.owesEvent (j, x)) pid + indicator (s.Emits env a pid j x) ≤
      s.share (Proc.owesEvent (j, x)) pid + indicator (s.Becomes env a pid j x) := by
  cases shares_of_step (f := Proc.owesEvent (j, x)) Proc.owesEvent_gone Proc.owesEvent_signal
      Proc.owesEvent_toProc h pid with
  | idle ha hshare =>
    rw [hshare, indicator_neg (not_emits_of_heartbeat ha)]
    exact Nat.le_add_right _ _
  | crashed _ hshare =>
    have hnone : ¬ s.Emits env (.crash pid) pid j x := by
      rintro ⟨_, hc, _⟩
      cases hc
    rw [hshare, indicator_neg hnone]
    exact Nat.zero_le _
  | ran hp hop he hshare =>
    rw [hshare, State.share_eq hp]
    exact owesEvent_of_run hI hok h hp hop he

/-- The `job.status_changed` events of `j` with status `x`, and the changes of its row to `x`. -/
def announcements (env : Env) (j : Uuid) (x : JobStatus) (tr : List (State × Action)) : Nat :=
  total (fun s a => indicator (∃ y ∈ s.call? env a, y.2.announced? = some (j, x))) tr

def turns (env : Env) (j : Uuid) (x : JobStatus) (tr : List (State × Action)) : Nat :=
  total (fun s a => indicator (s.Turns env a j x)) tr

theorem owesEvents_of_step (hI : Exclusive s) (hok : Attentive env s a) (h : step env s a = some s') :
    tally (Proc.owesEvent (j, x)) s'.procs +
        indicator (∃ y ∈ s.call? env a, y.2.announced? = some (j, x)) ≤
      tally (Proc.owesEvent (j, x)) s.procs + indicator (s.Turns env a j x) := by
  cases shifts_of_step (f := Proc.owesEvent (j, x)) Proc.owesEvent_gone Proc.owesEvent_signal
      Proc.owesEvent_toProc h with
  | quiet hq htally =>
    have hnone : ¬ ∃ y ∈ s.call? env a, y.2.announced? = some (j, x) := by
      rintro ⟨⟨k, c⟩, hc, hj⟩
      obtain ⟨n, rfl⟩ := hq.call k c hc
      cases hj
    rw [htally, indicator_neg hnone]
    exact Nat.le_add_right _ _
  | @crashed pid p hp hst htally =>
    have hnone : ¬ ∃ y ∈ s.call? env (.crash pid), y.2.announced? = some (j, x) := by
      rintro ⟨_, hc, _⟩
      cases hc
    rw [indicator_neg hnone]
    omega
  | @ran pid ch p p' op hp hop he htally =>
    have hrun := owesEvent_of_run (j := j) (x := x) hI hok h hp hop he
    have hc := call?_of_no_fault hp (.inl ⟨rfl, hop⟩) hok.returns
    have hemits : (∃ y ∈ s.call? env (.run pid ch), y.2.announced? = some (j, x)) ↔
        s.Emits env (.run pid ch) pid j x := by
      constructor
      · rintro ⟨y, hy, hj⟩
        cases hc.symm.trans hy
        exact ⟨_, hc, rfl, hj⟩
      · rintro ⟨y, hy, _, hj⟩
        exact ⟨y, hy, hj⟩
    have hbecomes := indicator_mono (fun h : s.Becomes env (.run pid ch) pid j x => h.2)
    rw [indicator_congr hemits]
    omega

theorem owing_of_attentive (env : Env) (t : Nat) (j : Uuid) (x : JobStatus) :
    Owing (fun pid s a => s.Becomes env a pid j x) (fun pid s a => s.Emits env a pid j x)
      (fun pid s => s.share (Proc.owesEvent (j, x)) pid) (fun s a => Attentive env s a ∧ Exclusive s)
      (step env) (.init t) where
  cause_unique := by
    rintro pid pid' s a ⟨⟨y, hy, rfl⟩, _⟩ ⟨⟨y', hy', rfl⟩, _⟩
    cases hy.symm.trans hy'
    rfl
  effect_unique := by
    rintro pid pid' s a ⟨y, hy, rfl, _⟩ ⟨y', hy', rfl, _⟩
    cases hy.symm.trans hy'
    rfl
  init _ := rfl
  owing pid s a _ h := by
    obtain ⟨⟨k, c⟩, hc, hk, hj⟩ := h
    obtain rfl : k = pid := hk
    obtain ⟨_, p, op, hp, ⟨_, hop⟩ | ⟨_, hop⟩, rfl⟩ := call?_eq_some hc
    · rw [State.share_eq hp, Proc.owesEvent, indicator_pos (Proc.announces?_of_next hop hj)]
      exact Nat.one_pos
    · obtain ⟨n, rfl⟩ := heartbeat_eq_some hop
      cases hj
  step_le pid _ _ _ hok h := owesEvent_of_step hok.2 hok.1 h pid

/-- The status events tell the truth. -/
structure EventLaw (env : Env) (ok : State → Action → Prop) : Prop where
  /-- Every event of `j` with status `x` goes back to a change of the row of `j` to `x`, of its own, which the
  same process has made before. -/
  caused {t : Nat} {s : State} {tr : List (State × Action)} {j : Uuid} {x : JobStatus} :
    Run ok (step env) (.init t) tr s →
    ∃ f, Causes (fun pid => EntryAt tr fun y => y.1.Becomes env y.2 pid j x)
      (fun pid => EntryAt tr fun y => y.1.Emits env y.2 pid j x) f
  counts {t : Nat} {s : State} {tr : List (State × Action)} {j : Uuid} {x : JobStatus} :
    Run ok (step env) (.init t) tr s → announcements env j x tr ≤ turns env j x tr

theorem eventLaw_of_attentive (env : Env) : EventLaw env (Attentive env) := by
  have hrun {t : Nat} {s : State} {tr : List (State × Action)}
      (h : Run (Attentive env) (step env) (.init t) tr s) :
      Run (fun s a => Attentive env s a ∧ Exclusive s) (step env) (.init t) tr s :=
    h.strengthen (exclusive_init t) (fun _ _ _ hI hok => exclusive_step hI hok.orderly)
      fun _ _ hI hok => ⟨hok, hI⟩
  constructor
  · intro t s tr j x h
    obtain ⟨f, hf, _⟩ := (owing_of_attentive env t j x).exists_causes (hrun h)
    exact ⟨f, hf⟩
  · intro t s tr j x h
    have hstep (s : State) (a : Action) (s' : State) (hok : Attentive env s a ∧ Exclusive s)
        (h : step env s a = some s') := owesEvents_of_step (j := j) (x := x) hok.2 hok.1 h
    have hle := (hrun h).balance_le hstep
    have hinit : tally (Proc.owesEvent (j, x)) (State.init t).procs = 0 := rfl
    rw [hinit, Nat.zero_add] at hle
    exact (Nat.le_add_left _ _).trans hle

/-- Job 7 fails once and is then executed with success. -/
def recovered : List Action :=
  taken report ++ [.run 1 { outcome := .error (.exception "down") }] ++ calls 1 4 ++
    [.tick 60000000, .spawn .scheduler] ++ calls 2 6 ++ calls 1 8

theorem eventLaw_recovered : ∃ tr s, Run (Attentive minutely) (step minutely) (.init 0) tr s ∧
    announcements minutely 7 .running tr = 2 ∧
    announcements minutely 7 .success tr ≤ turns minutely 7 .success tr ∧
    turns minutely 7 .success tr = 1 := by
  obtain ⟨tr, s, h, hs⟩ : ∃ tr s, Run (Attentive minutely) (step minutely) (.init 0) tr s ∧ _ :=
    exists_run_of_exec recovered
      (fun tr _ => announcements minutely 7 .running tr = 2 ∧ turns minutely 7 .success tr = 1)
      (by decide +kernel)
  obtain ⟨hemits, hturns⟩ := of_decide_eq_true hs
  exact ⟨tr, s, h, hemits, (eventLaw_of_attentive minutely).counts h, hturns⟩

/-- Job 7 is a success and its worker has said so; a request to cancel it says so again. -/
theorem not_eventLaw :
    ¬ EventLaw minutely fun s a => NoReclaim minutely s a ∧ NoFault a ∧ NoReplay a := by
  intro law
  obtain ⟨tr, s, h, hs⟩ : ∃ tr s, Run (fun s a => NoReclaim minutely s a ∧ NoFault a ∧ NoReplay a)
      (step minutely) (.init 0) tr s ∧ _ :=
    exists_run_of_exec (taken report ++ calls 1 3 ++ [.spawn (.cancel 7)] ++ calls 2 6)
      (fun tr _ => announcements minutely 7 .success tr = 2 ∧ turns minutely 7 .success tr = 1)
      (by decide)
  obtain ⟨hemits, hturns⟩ := of_decide_eq_true hs
  have hle := law.counts h (j := 7) (x := .success)
  rw [hemits, hturns] at hle
  exact absurd hle (by decide)

end DistribuQ
