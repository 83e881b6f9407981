import DistribuQ.Proofs.Duplicates
import DistribuQ.Library.Matching

/-! Every reclaim of a job is reported to one scheduler or reaper, which pushes the job once. -/

namespace DistribuQ
open Transition
variable {env : Env} {s s' : State} {a : Action} {pid : Nat} {ch : Choice} {st st' : Store} {i j : Uuid}

namespace Call

/-- The ids that the two reclaims return. -/
def reclaimed : (c : Call) → c.Ret → List Uuid
  | reclaimStaleJobs _, xs => xs.map StaleJob.id
  | reclaimDueRetryJobs, xs => xs.map DueRetry.id
  | _, _ => []

def reclaims : Call → Bool
  | reclaimStaleJobs _ | reclaimDueRetryJobs => true
  | _ => false

def pushed? : Call → Option Uuid
  | lpush _ j | rpush _ j => some j
  | _ => none

theorem pushed?_of_sql {c : Call} (hc : c.sql = true) : c.pushed? = none := by
  cases c <;> first | rfl | cases hc

end Call

/-- A job that a reclaim may take. -/
def Database.Taken (db : Database) (j : Uuid) : Prop :=
  db.status? j = some .running ∨ db.status? j = some .retrying

instance (db : Database) (j : Uuid) : Decidable (db.Taken j) :=
  inferInstanceAs (Decidable (db.status? j = _ ∨ db.status? j = _))

namespace Proc

/-- A scheduler or a reaper. -/
def reclaimer : Proc → Bool
  | scheduler _ | reaper _ => true
  | _ => false

/-- The ids that a pass has reclaimed and not yet pushed. -/
def batch (p : Proc) : List Uuid := if p.reclaimer && !p.syncing then p.hand.map Token.job else []

end Proc

def State.batch (pid : Nat) (s : State) : List Uuid := ((s.procs[pid]?).map Proc.batch).getD []

/-- By a call of `pid` the job `j` goes from `RUNNING` or `RETRYING` to `PENDING`. -/
def State.Returns (env : Env) (s : State) (a : Action) (pid : Nat) (j : Uuid) : Prop :=
  (∃ x ∈ s.call? env a, x.1 = pid) ∧ s.store.db.Taken j ∧
    ∃ s' ∈ step env s a, s'.store.db.status? j = some .pending

/-- A scheduler or reaper pushes `j` in one of its passes. -/
def State.Requeues (env : Env) (s : State) (a : Action) (pid : Nat) (j : Uuid) : Prop :=
  ∃ x ∈ s.call? env a, x.1 = pid ∧ x.2.pushed? = some j ∧ ∃ p ∈ s.procs[pid]?, p.reclaimer = true

instance : Decidable (s.Returns env a pid j) :=
  inferInstanceAs (Decidable ((∃ x ∈ s.call? env a, _) ∧ _))
instance : Decidable (s.Requeues env a pid j) := inferInstanceAs (Decidable (∃ x ∈ s.call? env a, _))

/-- Redis calls return, the answer to a reclaim is not lost, and no pass is cut short by a crash. A replay
that resets a job in `RUNNING` or `RETRYING` is no reclaim; it is left out. -/
structure Uninterrupted (env : Env) (s : State) (a : Action) : Prop where
  redis : ∀ x ∈ s.op? env a, x.2.2.call.sql = false → x.2.1.fault = .none
  answer : ∀ x ∈ s.op? env a, x.2.2.call.reclaims = true → x.2.1.fault.isLost = false
  crash : ∀ pid ∈ a.crashes?, s.batch pid = []
  replay : ∀ x ∈ s.call? env a, ∀ l ∈ x.2.replayed?, ¬ s.store.db.Taken l.2

instance : Decidable (Uninterrupted env s a) :=
  decidable_of_iff ((∀ x ∈ s.op? env a, x.2.2.call.sql = false → x.2.1.fault = .none) ∧
      (∀ x ∈ s.op? env a, x.2.2.call.reclaims = true → x.2.1.fault.isLost = false) ∧
      (∀ pid ∈ a.crashes?, s.batch pid = []) ∧
          ∀ x ∈ s.call? env a, ∀ l ∈ x.2.replayed?, ¬ s.store.db.Taken l.2)
    ⟨fun ⟨h₁, h₂, h₃, h₄⟩ => ⟨h₁, h₂, h₃, h₄⟩, fun ⟨h₁, h₂, h₃, h₄⟩ => ⟨h₁, h₂, h₃, h₄⟩⟩

/-! A reclaim reports the jobs it takes. -/

namespace Call
variable {c : Call}

theorem reclaimed_of_run {x : c.Ret} (h : c.run env ch st = some (st', x))
    (hl : ∀ l ∈ c.replayed?, ¬ st.db.Taken l.2) : (c.reclaimed x).count j =
      indicator (st.db.Taken j ∧ st'.db.status? j = some .pending) := by
  cases hr : st.db.job? j with
  | none =>
    have hnone := Database.status?_of_job?_none hr
    have hnot : ¬ (st.db.Taken j ∧ st'.db.status? j = some .pending) := by
      rintro ⟨h | h, _⟩ <;> cases hnone.symm.trans h
    rw [indicator_neg hnot]
    cases c with
    | reclaimStaleJobs n =>
      rw [reclaimed, count_fresh_reclaimStaleJobs h, hr]
      rfl
    | reclaimDueRetryJobs =>
      rw [reclaimed, count_fresh_reclaimDueRetryJobs h, hr]
      rfl
    | _ => rfl
  | some r =>
    have hr' := run_job? h hr
    have hw : c.Writes st r _ := writes_rewrite c
    generalize c.rewrite st r = r' at hr' hw
    have hid := Database.id_of_job? hr
    subst hid
    have htaken : st.db.Taken r.id ↔ r.status = .running ∨ r.status = .retrying := by
      rw [Database.Taken, Database.status?_of_job? hr, Option.some.injEq, Option.some.injEq]
    have hpending : st'.db.status? r.id = some .pending ↔ r'.status = .pending := by
      rw [Database.status?_of_job? hr', Option.some.injEq]
    rw [indicator_congr (and_congr htaken hpending)]
    cases hw with
    | kept hk =>
      have hnot : ¬ ((r.status = .running ∨ r.status = .retrying) ∧ r.status = .pending) := by
        rintro ⟨h | h, h'⟩ <;> cases h.symm.trans h'
      rw [indicator_neg hnot]
      cases c with
      | reclaimStaleJobs n =>
        rw [reclaimed, count_fresh_reclaimStaleJobs h, hr, Option.any_some]
        exact if_neg (Bool.eq_false_iff.mp (hk _ rfl))
      | reclaimDueRetryJobs =>
        rw [reclaimed, count_fresh_reclaimDueRetryJobs h, hr, Option.any_some]
        exact if_neg (Bool.eq_false_iff.mp (hk _ rfl))
      | _ => rfl
    | release n hstale =>
      rw [reclaimed, count_fresh_reclaimStaleJobs h, hr, Option.any_some, if_pos hstale,
        indicator_pos ⟨.inl (Database.running_of_stale hstale), rfl⟩]
    | promote hdue =>
      rw [reclaimed, count_fresh_reclaimDueRetryJobs h, hr, Option.any_some, if_pos hdue,
        indicator_pos ⟨.inr (Job.retrying_of_dueRetry hdue), rfl⟩]
    | reset d =>
      rw [indicator_neg fun h => hl _ rfl (htaken.mpr h.1)]
      rfl
    | lock | succeed | retry | bury | cancel =>
      rw [indicator_neg (by rintro ⟨_, h⟩; cases h)]
      rfl

end Call

namespace Proc
variable {p p' : Proc} {op : Op Proc}

theorem count_batch : p.batch.count j = if p.reclaimer && !p.syncing then p.holds j else 0 := by
  unfold batch
  split_ifs <;> rfl

@[simp] theorem batch_signal : p.signal.batch = p.batch := by
  cases p <;> rfl

@[simp] theorem batch_toProc (r : Request) : r.toProc.batch = [] := by
  cases r <;> rfl

theorem batch_of_not_reclaimer (h : p.reclaimer = false) : p.batch = [] := if_neg (by rw [h]; nofun)

theorem reclaimer_of_next (hop : p.next env pid = some op) (he : op.Ends env ch st st' p') :
    p'.reclaimer = p.reclaimer := by
  cases goes_of_next hop he <;> rfl

theorem reclaimer_of_reclaims (hop : p.next env pid = some op) (hc : op.call.reclaims = true) :
    p.reclaimer = true := by
  cases p with
  | worker p =>
    obtain ⟨pc, _, _⟩ := p
    cases pc with
    | poll qs => cases qs <;> cases hop <;> cases hc
    | stopped => cases hop
    | _ =>
      cases hop
      cases hc
  | submit pc =>
    obtain ⟨_, hnext, rfl⟩ := Option.map_eq_some_iff.mp hop
    cases Submit.does_of_next hnext <;> cases hc
  | cancel pc => cases pc <;> cases hop <;> cases hc
  | replay pc => cases pc <;> cases hop <;> cases hc
  | scheduler | reaper => rfl
  | gone => cases hop

theorem reclaimed_eq_nil {c : Call} (hc : c.reclaims = false) (x : c.Ret) : c.reclaimed x = [] := by
  cases c <;> first | rfl | cases hc

end Proc

theorem count_cons_id (j : Uuid) {α : Type} {f : α → Uuid} {x : α} {xs : List α} {ids : List Uuid}
    (h : ids = (x :: xs).map f) :
    (xs.map f).count j + indicator (some (f x) = some j) = ids.count j := by
  rw [h, List.map_cons, List.count_cons]
  simp [indicator]

namespace Scheduler
variable {p : Scheduler}

theorem batch_syncLoop (xs : List ScheduledJob) :
    (Proc.scheduler (p.at' (syncLoop xs))).batch = [] := by
  cases xs <;> rfl

theorem batch_retryLoop (xs : List DueRetry) :
    (Proc.scheduler (p.at' (retryLoop xs))).batch = xs.map DueRetry.id := by
  cases xs with
  | nil => rfl
  | cons x xs => exact map_job_retryLoop (x :: xs)

theorem batch_staleLoop (xs : List StaleJob) :
    (Proc.scheduler (p.at' (staleLoop xs))).batch = xs.map StaleJob.id := by
  cases xs with
  | nil => rfl
  | cons x xs => exact map_job_staleLoop (x :: xs)

end Scheduler

namespace Reaper
variable {p : Reaper}

theorem batch_staleLoop (xs : List StaleJob) :
    (Proc.reaper (p.at' (staleLoop xs))).batch = xs.map StaleJob.id := map_job_staleLoop xs

theorem batch_retryLoop (xs : List DueRetry) :
    (Proc.reaper (p.at' (retryLoop xs))).batch = xs.map DueRetry.id := map_job_retryLoop xs

end Reaper

namespace Proc
variable {p p' : Proc} {op : Op Proc}

/-- A call that returns brings into a batch what it reclaims, and takes out what it pushes. -/
theorem batch_of_next (hop : p.next env pid = some op) (hp : p.reclaimer = true) (x : op.call.Ret) :
    (op.resume (.ok x)).batch.count j + indicator (op.call.pushed? = some j) =
      p.batch.count j + (op.call.reclaimed x).count j := by
  cases p with
  | scheduler p =>
    obtain ⟨pc, running, last⟩ := p
    cases pc with
    | loop =>
      cases hop
      cases running <;> rfl
    | syncSelect =>
      cases hop
      exact congrArg (List.count j) (Scheduler.batch_syncLoop x)
    | sync y ys =>
      cases hop
      exact congrArg (List.count j) (Scheduler.batch_syncLoop ys)
    | retries =>
      cases hop
      exact (congrArg (List.count j) (Scheduler.batch_retryLoop x)).trans (Nat.zero_add _).symm
    | stale =>
      cases hop
      exact (congrArg (List.count j) (Scheduler.batch_staleLoop x)).trans (Nat.zero_add _).symm
    | pushRetries y ys =>
      cases hop
      simp only [Op.map, Scheduler.batch_retryLoop]
      exact count_cons_id j (Scheduler.map_job_retryLoop (y :: ys))
    | pushStale y ys =>
      cases hop
      simp only [Op.map, Scheduler.batch_staleLoop]
      exact count_cons_id j (Scheduler.map_job_staleLoop (y :: ys))
    | monotonic =>
      cases hop
      simp only [Op.map]
      split_ifs <;> rfl
    | promoteNow | promote | expire =>
      cases hop
      rfl
    | stopped => cases hop
  | reaper p =>
    obtain ⟨v, b, pc, running⟩ := p
    cases pc with
    | loop =>
      cases hop
      cases running <;> rfl
    | stale =>
      cases hop
      exact (congrArg (List.count j) (Reaper.batch_staleLoop x)).trans (Nat.zero_add _).symm
    | retries =>
      cases hop
      exact (congrArg (List.count j) (Reaper.batch_retryLoop x)).trans (Nat.zero_add _).symm
    | requeuePush y ys =>
      cases hop
      simp only [Op.map, Reaper.batch_staleLoop]
      exact count_cons_id j (Reaper.map_job_staleLoop (y :: ys))
    | pushRetries y ys =>
      cases hop
      simp only [Op.map, Reaper.batch_retryLoop]
      exact count_cons_id j (Reaper.map_job_retryLoop (y :: ys))
    | expire | requeueRem =>
      cases hop
      rfl
    | stopped => cases hop
  | _ => cases hp

/-- In a call to Postgres a process has no batch, and none if it raises. -/
theorem batch_of_sql (hop : p.next env pid = some op) (hc : op.call.sql = true) :
    p.batch = [] ∧ ∀ e, (op.resume (.error e)).batch = [] := by
  cases p with
  | scheduler p =>
    obtain ⟨pc, _, _⟩ := p
    cases pc <;> cases hop <;> first | exact ⟨rfl, fun _ => rfl⟩ | cases hc
  | reaper p =>
    obtain ⟨_, _, pc, _⟩ := p
    cases pc <;> cases hop <;> first | exact ⟨rfl, fun _ => rfl⟩ | cases hc
  | worker p =>
    obtain ⟨_, _, rfl⟩ := Option.map_eq_some_iff.mp hop
    exact ⟨rfl, fun _ => rfl⟩
  | submit pc | cancel pc | replay pc =>
    obtain ⟨_, _, rfl⟩ := Option.map_eq_some_iff.mp hop
    exact ⟨rfl, fun _ => rfl⟩
  | gone => cases hop

end Proc

section
variable {c : Call}

theorem returns_iff (h : step env s a = some s') (hc : s.call? env a = some (pid, c)) :
    s.Returns env a pid j ↔ s.store.db.Taken j ∧ s'.store.db.status? j = some .pending := by
  constructor
  · rintro ⟨_, htaken, s₁, hs₁, hs⟩
    cases h.symm.trans hs₁
    exact ⟨htaken, hs⟩
  · rintro ⟨htaken, hs⟩
    exact ⟨⟨_, hc, rfl⟩, htaken, s', h, hs⟩

theorem requeues_iff {p : Proc} (hp : s.procs[pid]? = some p) (hc : s.call? env a = some (pid, c)) :
    s.Requeues env a pid j ↔ c.pushed? = some j ∧ p.reclaimer = true := by
  constructor
  · rintro ⟨x, hx, _, hpush, q, hq, hr⟩
    cases hc.symm.trans hx
    cases hp.symm.trans hq
    exact ⟨hpush, hr⟩
  · rintro ⟨hpush, hr⟩
    exact ⟨_, hc, rfl, hpush, p, hp, hr⟩

theorem not_returns_of_jobs (h : step env s a = some s') (hjobs : s'.store.db.jobs = s.store.db.jobs) :
    ¬ s.Returns env a pid j := by
  rintro ⟨_, htaken, s₁, hs₁, hs⟩
  cases h.symm.trans hs₁
  rw [Database.status?, Database.job?, hjobs] at hs
  rcases htaken with ht | ht <;> cases ht.symm.trans hs

theorem not_requeues_of_quiet (hq : Quiet env s a s') : ¬ s.Requeues env a pid j := by
  rintro ⟨⟨k, c⟩, hx, _, hpush, _⟩
  obtain ⟨n, rfl⟩ := hq.call k c hx
  cases hpush

theorem not_returns (hc : s.call? env a = none) : ¬ s.Returns env a pid j := by
  rintro ⟨⟨x, hx, _⟩, _⟩
  cases hc.symm.trans hx

theorem not_requeues (hc : s.call? env a = none) : ¬ s.Requeues env a pid j := by
  rintro ⟨x, hx, _⟩
  cases hc.symm.trans hx

end

/-- What a pass owes grows with the reclaims that are reported to it and shrinks with its pushes. -/
theorem batch_of_run {p p' : Proc} {op : Op Proc} (hu : Uninterrupted env s (.run pid ch))
    (h : step env s (.run pid ch) = some s') (hp : s.procs[pid]? = some p)
    (hop : p.next env pid = some op) (he : op.Ends env ch s.store s'.store p') :
    p'.batch.count j + indicator (s.Requeues env (.run pid ch) pid j) =
      p.batch.count j + indicator (s.Returns env (.run pid ch) pid j) := by
  have hmakes : MakesOp env (.run pid ch) pid ch p op := .inl ⟨rfl, hop⟩
  have hop? := op?_of_makes hp hmakes
  have hsql (hf : ch.fault ≠ .none) : op.call.sql = true := by
    by_contra hc
    exact hf (hu.redis _ hop? (Bool.eq_false_iff.mpr hc))
  have hrun {x : op.call.Ret} (hc : s.call? env (.run pid ch) = some (pid, op.call))
      (hx : op.call.run env ch s.store = some (s'.store, x)) :
      indicator (s.Returns env (.run pid ch) pid j) = (op.call.reclaimed x).count j := by
    rw [indicator_congr (returns_iff h hc), Call.reclaimed_of_run hx (hu.replay _ hc)]
  generalize hst : s'.store = st at he
  cases he with
  | @raised e hf hl =>
    have hc := call?_eq_none hp hmakes hf hl
    obtain ⟨hb, hb'⟩ := Proc.batch_of_sql hop (hsql (by rw [hf]; nofun))
    rw [hb, hb' e, indicator_neg, indicator_neg]
    · exact not_returns hc
    · exact not_requeues hc
  | @lost e _ x hf hl hx =>
    have hc := call?_of_makes hp hmakes (.inl fun e' he => by rw [hf] at he; cases he)
    obtain ⟨hb, hb'⟩ := Proc.batch_of_sql hop (hsql (by rw [hf]; nofun))
    have hreclaims : op.call.reclaims = false := by
      refine Bool.eq_false_iff.mpr fun hr => ?_
      have hlost := hu.answer _ hop? hr
      rw [hf] at hlost
      cases hlost
    have hpush := Call.pushed?_of_sql (hsql (by rw [hf]; nofun))
    rw [hb, hb' e, hrun hc (hst ▸ hx), Proc.reclaimed_eq_nil hreclaims,
      indicator_congr (requeues_iff hp hc), hpush, indicator_neg nofun]
    rfl
  | @returned _ x hf hx =>
    have hc := call?_of_makes hp hmakes (hf.imp_left fun hf e he => by rw [hf] at he; cases he)
    rw [hrun hc (hst ▸ hx), indicator_congr (requeues_iff hp hc)]
    cases hr : p.reclaimer with
    | true =>
      rw [indicator_congr (and_iff_left rfl)]
      exact Proc.batch_of_next hop hr x
    | false =>
      have hreclaims : op.call.reclaims = false := by
        refine Bool.eq_false_iff.mpr fun hc => ?_
        cases hr.symm.trans (Proc.reclaimer_of_reclaims hop hc)
      have hr' := Proc.reclaimer_of_next hop (.returned hf hx : op.Ends env ch s.store st _)
      rw [Proc.batch_of_not_reclaimer hr, Proc.batch_of_not_reclaimer (hr'.trans hr),
        Proc.reclaimed_eq_nil hreclaims, indicator_neg fun h => nomatch h.2]
      rfl

theorem State.batch_of {p : Proc} (hp : s.procs[pid]? = some p) : s.batch pid = p.batch := by
  rw [batch, hp]
  rfl

theorem State.count_batch : (s.batch pid).count j = s.share (fun p => p.batch.count j) pid := by
  rw [batch, share]
  cases s.procs[pid]? <;> rfl

theorem batch_of_step (hu : Uninterrupted env s a) (h : step env s a = some s') (pid : Nat) :
    (s'.batch pid).count j + indicator (s.Requeues env a pid j) =
      (s.batch pid).count j + indicator (s.Returns env a pid j) := by
  have hgone : Proc.gone.batch.count j = 0 := rfl
  rw [State.count_batch, State.count_batch]
  cases shares_of_step (f := fun p => p.batch.count j) hgone (fun p => by rw [Proc.batch_signal])
      (fun r => by rw [Proc.batch_toProc]; rfl) h pid with
  | idle ha hshare =>
    rw [hshare, indicator_neg, indicator_neg]
    · intro hr
      obtain ⟨⟨⟨k, c⟩, hc, hk⟩, _⟩ := id hr
      obtain rfl : k = pid := hk
      exact not_returns_of_jobs h (jobs_of_heartbeat h hc ha) hr
    · rintro ⟨⟨k, c⟩, hc, hk, hpush, _⟩
      obtain rfl : k = pid := hk
      obtain ⟨n, rfl⟩ := heartbeat_of_call? hc ha
      cases hpush
  | @crashed p hp hshare =>
    have hb := hu.crash pid rfl
    rw [State.batch_of hp] at hb
    rw [hshare, State.share_eq hp, hb, indicator_neg (not_requeues rfl),
      indicator_neg (not_returns rfl)]
    rfl
  | ran hp hop he hshare =>
    rw [hshare, State.share_eq hp]
    exact batch_of_run hu h hp hop he

/-- The reclaims of `j` in a run, and the pushes of `j` that passes make. -/
def reclaims (env : Env) (j : Uuid) (tr : List (State × Action)) : Nat :=
  total (fun s a => indicator (∃ x ∈ s.call? env a, s.Returns env a x.1 j)) tr

def requeues (env : Env) (j : Uuid) (tr : List (State × Action)) : Nat :=
  total (fun s a => indicator (∃ x ∈ s.call? env a, s.Requeues env a x.1 j)) tr

theorem exists_returns : (∃ x ∈ s.call? env a, s.Returns env a x.1 j) ↔
    ∃ pid, s.Returns env a pid j := by
  constructor
  · exact fun ⟨x, _, h⟩ => ⟨x.1, h⟩
  · rintro ⟨pid, ⟨x, hx, rfl⟩, h⟩
    exact ⟨x, hx, ⟨x, hx, rfl⟩, h⟩

theorem exists_requeues : (∃ x ∈ s.call? env a, s.Requeues env a x.1 j) ↔
    ∃ pid, s.Requeues env a pid j := by
  constructor
  · exact fun ⟨x, _, h⟩ => ⟨x.1, h⟩
  · rintro ⟨pid, x, hx, rfl, h⟩
    exact ⟨x, hx, x, hx, rfl, h⟩

theorem batches_of_step (hu : Uninterrupted env s a) (h : step env s a = some s') :
    tally (fun p => p.batch.count j) s'.procs +
        indicator (∃ x ∈ s.call? env a, s.Requeues env a x.1 j) =
      tally (fun p => p.batch.count j) s.procs +
        indicator (∃ x ∈ s.call? env a, s.Returns env a x.1 j) := by
  have hgone : Proc.gone.batch.count j = 0 := rfl
  cases shifts_of_step (f := fun p => p.batch.count j) hgone (fun p => by rw [Proc.batch_signal])
      (fun r => by rw [Proc.batch_toProc]; rfl) h with
  | quiet hq htally =>
    rw [htally, indicator_neg, indicator_neg]
    · rintro ⟨x, _, hr⟩
      exact not_returns_of_jobs h hq.jobs hr
    · rintro ⟨x, _, hr⟩
      exact not_requeues_of_quiet hq hr
  | @crashed pid p hp hst htally =>
    have hb := hu.crash pid rfl
    rw [State.batch_of hp] at hb
    rw [indicator_neg (by rintro ⟨x, hx, _⟩; cases hx), indicator_neg (by rintro ⟨x, hx, _⟩; cases hx)]
    simpa [hb] using htally
  | @ran pid ch p p' op hp hop he htally =>
    have hreturns : (∃ x ∈ s.call? env (.run pid ch), s.Returns env (.run pid ch) x.1 j) ↔
        s.Returns env (.run pid ch) pid j := by
      constructor
      · rintro ⟨⟨k, c⟩, hx, hr⟩
        exact (call?_run_eq_some hx).1 ▸ hr
      · intro hr
        exact exists_returns.mpr ⟨pid, hr⟩
    have hrequeues : (∃ x ∈ s.call? env (.run pid ch), s.Requeues env (.run pid ch) x.1 j) ↔
        s.Requeues env (.run pid ch) pid j := by
      constructor
      · rintro ⟨⟨k, c⟩, hx, hr⟩
        exact (call?_run_eq_some hx).1 ▸ hr
      · intro hr
        exact exists_requeues.mpr ⟨pid, hr⟩
    have hbatch := batch_of_run (j := j) hu h hp hop he
    rw [indicator_congr hreturns, indicator_congr hrequeues]
    omega

theorem Proc.not_syncing_of_pushed {p : Proc} {op : Op Proc} (hop : p.next env pid = some op)
    (hc : op.call.pushed? = some j) : p.syncing = false := by
  cases p with
  | scheduler p =>
    obtain ⟨pc, _, _⟩ := p
    cases pc <;> cases hop <;> first | rfl | cases hc
  | _ => rfl

theorem batch_pos_of_requeues (h : s.Requeues env a pid j) : 0 < (s.batch pid).count j := by
  obtain ⟨⟨_, c⟩, hx, rfl, hpush, p, hp, hr⟩ := h
  obtain ⟨_, q, op, hq, ⟨_, hop⟩ | ⟨_, hop⟩, hcall⟩ := call?_eq_some hx
  · cases hp.symm.trans hq
    obtain rfl : op.call = c := hcall
    have hsync := Proc.not_syncing_of_pushed hop hpush
    rw [State.batch_of hp, Proc.count_batch, hr, hsync]
    obtain ⟨x, hx, hj⟩ : ∃ x, op.call.token? = some x ∧ x.job = j := by
      revert hpush
      generalize op.call = c
      intro hpush
      cases c <;> cases hpush <;> exact ⟨_, rfl, rfl⟩
    exact Proc.holds_pos.mpr ⟨x, mem_hand_of_next hop hx, hj⟩
  · obtain ⟨n, rfl⟩ := heartbeat_eq_some hop
    obtain rfl : _ = c := hcall
    cases hpush

theorem owing_of_uninterrupted (env : Env) (t : Nat) (j : Uuid) :
    Owing (fun pid s a => s.Returns env a pid j) (fun pid s a => s.Requeues env a pid j)
      (fun pid s => (s.batch pid).count j) (Uninterrupted env) (step env) (.init t) where
  cause_unique := by
    rintro pid pid' s a ⟨⟨x, hx, rfl⟩, _⟩ ⟨⟨x', hx', rfl⟩, _⟩
    cases hx.symm.trans hx'
    rfl
  effect_unique := by
    rintro pid pid' s a ⟨x, hx, rfl, _⟩ ⟨x', hx', rfl, _⟩
    cases hx.symm.trans hx'
    rfl
  init _ := rfl
  owing _ _ _ _ h := batch_pos_of_requeues h
  step_le pid _ _ _ hu h := (batch_of_step hu h pid).le

/-- Concurrent passes queue every job they reclaim, and once. -/
structure ReclaimLaw (env : Env) (ok : State → Action → Prop) : Prop where
  /-- Of a reclaim exactly one scheduler or reaper is told, and told once. -/
  reported {t : Nat} {s s' : State} {a : Action} {j : Uuid} :
    Reachable ok (step env) (.init t) s → ok s a →
    step env s a = some s' → s.store.db.Taken j → s'.store.db.status? j = some .pending →
    ∃ pid, (∃ p ∈ s.procs[pid]?, p.reclaimer = true) ∧
      ∀ i, (s'.batch i).count j = (s.batch i).count j + indicator (i = pid)
  /-- Every push goes back to a reclaim of its own by the same process, and every reclaim by a process whose
  passes are through is followed by its push. -/
  matched {t : Nat} {s : State} {tr : List (State × Action)} {j : Uuid} :
    Run ok (step env) (.init t) tr s →
    ∃ f, Causes (fun pid => EntryAt tr fun x => x.1.Returns env x.2 pid j)
        (fun pid => EntryAt tr fun x => x.1.Requeues env x.2 pid j) f ∧
      ∀ pid, s.batch pid = [] → ∀ k, EntryAt tr (fun x => x.1.Returns env x.2 pid j) k →
        ∃ i, EntryAt tr (fun x => x.1.Requeues env x.2 pid j) i ∧ f i = k
  counts {t : Nat} {s : State} {tr : List (State × Action)} {j : Uuid} :
    Run ok (step env) (.init t) tr s →
    (∀ p ∈ s.procs, p.batch = []) → requeues env j tr = reclaims env j tr

section
variable {c : Call}

/-- Only a reclaim takes a job from `RUNNING` or `RETRYING` back to `PENDING`. -/
theorem reclaims_of_taken {x : c.Ret} (hu : Uninterrupted env s a) (hc : s.call? env a = some (pid, c))
    (hx : c.run env ch s.store = some (s'.store, x)) (htaken : s.store.db.Taken j)
    (hs : s'.store.db.status? j = some .pending) : c.reclaims = true := by
  have hcount := Call.reclaimed_of_run (j := j) hx (hu.replay _ hc)
  rw [indicator_pos ⟨htaken, hs⟩] at hcount
  by_contra hr
  rw [Proc.reclaimed_eq_nil (Bool.eq_false_iff.mpr hr)] at hcount
  cases hcount

theorem reclaimer_of_call? (hc : s.call? env a = some (pid, c)) (hr : c.reclaims = true) :
    ∃ p ∈ s.procs[pid]?, p.reclaimer = true := by
  obtain ⟨_, p, op, hp, ⟨_, hop⟩ | ⟨_, hop⟩, rfl⟩ := call?_eq_some hc
  · exact ⟨p, hp, Proc.reclaimer_of_reclaims hop hr⟩
  · obtain ⟨n, rfl⟩ := heartbeat_eq_some hop
    cases hr

/-- A reclaim is reported to the process that makes it, and to no other. -/
theorem batch_of_reclaim (hu : Uninterrupted env s a) (h : step env s a = some s')
    (hc : s.call? env a = some (pid, c)) (hr : c.reclaims = true) (hreturns : s.Returns env a pid j) (i : Nat) :
    (s'.batch i).count j = (s.batch i).count j + indicator (i = pid) := by
  have hstep := batch_of_step (j := j) hu h i
  have hpush : ¬ s.Requeues env a i j := by
    rintro ⟨y, hy, _, hpush, _⟩
    cases hc.symm.trans hy
    cases c <;> cases hr <;> cases hpush
  have hiff : s.Returns env a i j ↔ i = pid := by
    constructor
    · rintro ⟨⟨y, hy, rfl⟩, _⟩
      cases hc.symm.trans hy
      rfl
    · rintro rfl
      exact hreturns
  rw [indicator_neg hpush, indicator_congr hiff] at hstep
  exact hstep

end

theorem reclaimLaw (env : Env) : ReclaimLaw env (Uninterrupted env) where
  reported {t s s' a j} h hu hstep htaken hs := by
    rcases store_of_step hstep with ⟨pid, ch, c, x, hc, hx⟩ | ⟨_, hdb, _⟩
    · have hreclaims := reclaims_of_taken hu hc hx htaken hs
      have hreturns := (returns_iff hstep hc).mpr ⟨htaken, hs⟩
      exact ⟨pid, reclaimer_of_call? hc hreclaims, batch_of_reclaim hu hstep hc hreclaims hreturns⟩
    · rw [hdb] at hs
      rcases htaken with ht | ht <;> cases ht.symm.trans hs
  matched {t s tr j} h := by
    obtain ⟨f, hf, honto⟩ := (owing_of_uninterrupted env t j).exists_causes h
    refine ⟨f, hf, fun pid hb => honto pid ?_⟩
    have hbalance := h.balance fun s a s' hu hs => batch_of_step (j := j) hu hs pid
    rw [hb, List.count_nil, Nat.zero_add] at hbalance
    exact (hbalance.symm ▸ Nat.le_add_left _ _ :)
  counts {t s tr j} h hidle := by
    have hstep (s : State) (a : Action) (s' : State) (hu : Uninterrupted env s a)
        (hs : step env s a = some s') := batches_of_step (j := j) hu hs
    have hbalance := h.balance hstep
    have hzero : tally (fun p => p.batch.count j) s.procs = 0 :=
      tally_eq_zero fun p hp => by rw [hidle p hp]; rfl
    have hinit : tally (fun p => p.batch.count j) (State.init t).procs = 0 := rfl
    rw [hzero, hinit, Nat.zero_add, Nat.zero_add] at hbalance
    exact hbalance

/-- Reaper 2 and scheduler 3 both look for stale jobs, and reaper 2 gets job 7. -/
theorem reclaimLaw_raced : ∃ tr s, Run (Uninterrupted minutely) (step minutely) (.init 0) tr s ∧
    reclaims minutely 7 tr = 1 ∧ requeues minutely 7 tr = 1 := by
  obtain ⟨tr, s, h, hs⟩ : ∃ tr s, Run (Uninterrupted minutely) (step minutely) (.init 0) tr s ∧ _ :=
    exists_run_of_exec (taken report ++ [.tick 61000000, .spawn (.reaper 60 10), .spawn .scheduler] ++
        calls 3 5 ++ [.run 3 { monotonic := 61000000 }] ++ calls 2 2 ++ calls 3 1 ++ calls 2 1 ++
          calls 3 1 ++ calls 2 2)
      (fun tr s => reclaims minutely 7 tr = 1 ∧ ∀ p ∈ s.procs, p.batch = []) (by decide)
  obtain ⟨hreclaims, hidle⟩ := of_decide_eq_true hs
  exact ⟨tr, s, h, hreclaims, ((reclaimLaw minutely).counts h hidle).trans hreclaims⟩

end DistribuQ
