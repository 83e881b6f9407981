import DistribuQ.Proofs.Steps

/-! What a call does to the row of one job and to the dead letters of one job. -/

namespace DistribuQ

/-- The columns a job was inserted with and that no statement writes after. -/
def Job.origin (r : Job) : NewJob :=
  ⟨r.type, r.payload, r.priority, r.maxAttempts, r.scheduledFor, r.recurrenceRule⟩

theorem Job.id_cancel (r : Job) : r.cancel.id = r.id := rfl

theorem Job.retrying_of_dueRetry {r : Job} {now : Time} (h : r.dueRetry now = true) :
    r.status = .retrying := by
  simp only [dueRetry, Bool.and_eq_true, decide_eq_true_eq] at h
  exact h.1

namespace Database
variable {db : Database} {now : Time} {k : Uuid} {r : Job}

theorem status?_of_job? (hr : db.job? k = some r) : db.status? k = some r.status := by
  rw [status?, hr, Option.map_some]

theorem status?_of_job?_none (hr : db.job? k = none) : db.status? k = none := by
  rw [status?, hr, Option.map_none]

theorem mem_of_job? (hr : db.job? k = some r) : r ∈ db.jobs.rows := ((Table.find?_eq_some _).mp hr).1

theorem running_of_stale {n : Nat} (h : db.stale now n r = true) : r.status = .running := by
  simp only [stale, Bool.and_eq_true, decide_eq_true_eq] at h
  exact h.1

theorem job?_updateJobs {p : Job → Bool} {f : Job → Job} (hf : ∀ r, (f r).id = r.id) :
    (db.updateJobs now p f hf).job? k = (db.job? k).map fun r => if p r then (f r).touch now else r :=
  Table.find?_update db.jobs p (fun r => (f r).touch now) hf k

theorem updateJobs_eq_self {p : Job → Bool} {f : Job → Job} {hf : ∀ r, (f r).id = r.id}
    (h : ∀ r ∈ db.jobs.rows, p r = false) : db.updateJobs now p f hf = db := by
  have hjobs : db.jobs.update p (fun r => (f r).touch now) hf = db.jobs := Table.update_eq_self h
  unfold updateJobs
  rw [hjobs]

theorem updateJobs_congr {p p' : Job → Bool} {f : Job → Job} {hf : ∀ r, (f r).id = r.id}
    (h : ∀ r ∈ db.jobs.rows, p r = p' r) : db.updateJobs now p f hf = db.updateJobs now p' f hf := by
  have hjobs : db.jobs.update p (fun r => (f r).touch now) hf =
      db.jobs.update p' (fun r => (f r).touch now) hf := Table.update_congr h
  unfold updateJobs
  rw [hjobs]

theorem fetchAndLockJob_eq_some {j : Uuid} {w : WorkerId} {job : LockedJob}
    (h : (db.fetchAndLockJob now j w).2 = some job) :
    ∃ r, db.job? j = some r ∧ r.claimable = true ∧ job = (r.lock w now).toLocked := by
  obtain ⟨_, hmem⟩ := List.head?_eq_some_iff.mp h
  obtain ⟨r, hsel, hjob⟩ := List.mem_map.mp (hmem ▸ List.mem_cons_self)
  obtain ⟨hr, hp⟩ := (Table.mem_select _ _).mp hsel
  simp only [Bool.and_eq_true, decide_eq_true_eq] at hp
  rw [hp.1] at hr
  exact ⟨r, hr, hp.2, hjob.symm⟩

theorem job?_fetchAndLockJob {j : Uuid} {w : WorkerId} (hr : db.job? j = some r)
    (hp : r.claimable = true) :
    (db.fetchAndLockJob now j w).1.job? j = some ((r.lock w now).touch now) := by
  refine (job?_updateJobs (f := (·.lock w now)) fun _ => rfl).trans ?_
  rw [hr, Option.map_some]
  simp [id_of_job? hr, hp]

theorem fetchAndLockJob_eq_none {j : Uuid} {w : WorkerId}
    (h : (db.fetchAndLockJob now j w).2 = none) (hr : db.job? j = some r) : r.claimable = false := by
  have hnil := List.map_eq_nil_iff.mp (List.head?_eq_none_iff.mp h)
  by_contra hp
  have hid := id_of_job? hr
  have hmem : r ∈ db.jobs.select fun r => r.id = j && r.claimable :=
    (Table.mem_select _ _).mpr ⟨hid ▸ hr, by simpa [hid] using hp⟩
  rw [hnil] at hmem
  exact absurd hmem List.not_mem_nil

theorem cancelSelect_eq_some {j : Uuid} {record : CancelRecord}
    (h : db.cancelSelect j = some record) : ∃ r, db.job? j = some r ∧ record = r.toCancelRecord := by
  obtain ⟨r, hr, rfl⟩ := Option.map_eq_some_iff.mp h
  exact ⟨r, hr, rfl⟩

theorem cancelUpdate_eq_some {j : Uuid} (now : Time) (hs : db.status? j = some .pending) :
    ∃ r, db.job? j = some r ∧ r.status = .pending ∧
        (db.cancelUpdate now j).2 = some r.cancel.toCancelRecord := by
  obtain ⟨r, hr, hs⟩ := Option.map_eq_some_iff.mp hs
  refine ⟨r, hr, hs, ?_⟩
  have hid := id_of_job? hr
  -- the key selects this row alone
  have hrow {r' : Job} (hsel : r' ∈ db.jobs.select fun r => r.id = j && r.status = .pending) :
      r' = r := by
    obtain ⟨hfind, hp⟩ := (Table.mem_select _ _).mp hsel
    simp only [Bool.and_eq_true, decide_eq_true_eq] at hp
    rw [hp.1] at hfind
    exact Option.some.inj (hfind.symm.trans hr)
  have hmem : r ∈ db.jobs.select fun r => r.id = j && r.status = .pending :=
    (Table.mem_select _ _).mpr ⟨hid ▸ hr, by simp [hid, hs]⟩
  unfold cancelUpdate
  dsimp only
  rw [List.head?_map]
  cases hsel : (db.jobs.select fun r => r.id = j && r.status = .pending) with
  | nil =>
    rw [hsel] at hmem
    cases hmem
  | cons r' l =>
    rw [hrow (hsel ▸ List.mem_cons_self : r' ∈ _)]
    rfl

theorem status?_of_mem {r : Job} (hr : r ∈ db.jobs.rows) : db.status? r.id = some r.status :=
  status?_of_job? ((Table.find?_eq_some _).mpr ⟨hr, rfl⟩)

theorem cancelUpdate_of_not_pending {j : Uuid} (now : Time) (hs : db.status? j ≠ some .pending) :
    db.cancelUpdate now j = (db, none) := by
  have hnone (r : Job) (hr : r ∈ db.jobs.rows) : (r.id = j && r.status = .pending : Bool) = false := by
    simp only [Bool.and_eq_false_iff, decide_eq_false_iff_not]
    by_contra hp
    simp only [not_or, not_not] at hp
    obtain ⟨rfl, hpending⟩ := hp
    exact hs (hpending ▸ status?_of_mem hr)
  have hsel : (db.jobs.select fun r => r.id = j && r.status = .pending) = [] :=
    List.filter_eq_nil_iff.mpr fun r hr => by rw [hnone r hr]; exact Bool.false_ne_true
  have hanswer : (db.cancelUpdate now j).2 = none := by
    unfold cancelUpdate
    dsimp only
    rw [hsel]
    rfl
  exact Prod.ext (updateJobs_eq_self hnone) hanswer

/-- On a `PENDING` job the guard of the statement changes nothing. -/
theorem cancelUpdate_fst {j : Uuid} (now : Time) (hs : db.status? j = some .pending) :
    (db.cancelUpdate now j).1 = db.updateJobs now (·.id = j) (·.cancel) := by
  refine updateJobs_congr fun r hr => ?_
  by_cases hid : r.id = j
  · subst hid
    rw [status?_of_mem hr, Option.some.injEq] at hs
    simp [hs]
  · simp [hid]

theorem insertJob_eq_some {id : Uuid} {new : NewJob} {db' : Database} {row : Job}
    (h : db.insertJob now id new = some (db', row)) :
    row = new.toJob now id ∧ db.job? id = none ∧ db'.deadLetters = db.deadLetters ∧
      db'.workers = db.workers ∧ ∀ k, db'.job? k = if id = k then some row else db.job? k := by
  unfold insertJob at h
  split_ifs at h with hid
  cases h
  exact ⟨rfl, hid, rfl, rfl, fun k => Table.find?_insert _ _ hid k⟩

theorem moveToDeadLetter_eq_some {id j : Uuid} {error : String} {n : Nat} {db' : Database}
    (h : db.moveToDeadLetter now id j error n = some db') :
    db.deadLetters.find? id = none ∧ db'.jobs = (db.updateJobs now (·.id = j) (·.bury error)).jobs ∧
      db'.workers = db.workers ∧ db'.deadLetters.rows = db.deadLetters.rows ++ [⟨id, j, error, n, now⟩] := by
  unfold moveToDeadLetter at h
  dsimp only at h
  split_ifs at h with hid
  cases h
  exact ⟨hid, rfl, rfl, rfl⟩

theorem deadLetters_upsertWorkerHeartbeat {w : WorkerId} {n : Nat} :
    (db.upsertWorkerHeartbeat now w n).deadLetters = db.deadLetters := by
  unfold upsertWorkerHeartbeat
  dsimp only
  split_ifs <;> rfl

theorem jobs_upsertWorkerHeartbeat {w : WorkerId} {n : Nat} :
    (db.upsertWorkerHeartbeat now w n).jobs = db.jobs := by
  unfold upsertWorkerHeartbeat
  dsimp only
  split_ifs <;> rfl

end Database

namespace Call
variable {env : Env} {ch : Choice} {st st' : Store} {c : Call} {k : Uuid} {r : Job}

/-- The `WHERE` and the `SET` clause of a call that updates `jobs`. -/
def update? (st : Store) : Call → Option ((Job → Bool) × (Job → Job))
  | fetchAndLockJob j w => some (fun r => r.id = j && r.claimable, (·.lock w st.clock))
  | markJobSuccess j v => some (fun r => r.id = j, (·.succeed v.column))
  | markJobRetrying j e t => some (fun r => r.id = j, (·.retry e t))
  | moveToDeadLetter j e _ => some (fun r => r.id = j, (·.bury e))
  | reclaimStaleJobs n => some (st.db.stale st.clock n, (·.release))
  | reclaimDueRetryJobs => some ((·.dueRetry st.clock), (·.release))
  | cancelUpdate j => some (fun r => r.id = j && r.status = .pending, (·.cancel))
  | replayWrite _ j => some (fun r => r.id = j, (·.reset))
  | _ => none

/-- The row of a job after a call, from its row before. -/
def rewrite (st : Store) (c : Call) (r : Job) : Job :=
  match c.update? st with
  | some (p, f) => if p r then (f r).touch st.clock else r
  | none => r

def inserted? (ch : Choice) (st : Store) : Call → Option Job
  | createJob new | scheduleNextOccurrence new => some (new.toJob st.clock ch.freshId)
  | _ => none

theorem run_clock {x : c.Ret} (h : c.run env ch st = some (st', x)) : st'.clock = st.clock := by
  cases c <;> simp only [run, Option.some.injEq, Option.map_eq_some_iff, Prod.exists] at h
  case moveToDeadLetter =>
    obtain ⟨_, _, h⟩ := h
    cases h
    rfl
  case scheduleNextOccurrence | createJob =>
    obtain ⟨_, _, _, h⟩ := h
    cases h
    rfl
  all_goals
    cases h
    rfl

theorem run_fetchAndLockJob_some {w : WorkerId} {job : LockedJob}
    (h : run env ch st (.fetchAndLockJob k w) = some (st', some job)) :
    ∃ r, st.db.job? k = some r ∧ r.claimable = true ∧ job = (r.lock w st.clock).toLocked ∧ job.id = k ∧
      st'.db.job? k = some ((r.lock w st.clock).touch st.clock) := by
  simp only [run, Option.some.injEq, Prod.mk.injEq] at h
  obtain ⟨rfl, hjob⟩ := h
  obtain ⟨r, hr, hclaim, rfl⟩ := Database.fetchAndLockJob_eq_some hjob
  have hid : r.id = k := Database.id_of_job? hr
  exact ⟨r, hr, hclaim, rfl, hid, Database.job?_fetchAndLockJob hr hclaim⟩

theorem run_fetchAndLockJob_none {w : WorkerId}
    (h : run env ch st (.fetchAndLockJob k w) = some (st', none)) (hr : st.db.job? k = some r) :
    r.claimable = false := by
  simp only [run, Option.some.injEq, Prod.mk.injEq] at h
  exact Database.fetchAndLockJob_eq_none h.2 hr

theorem row_of_inserted {new : NewJob} {row : Job}
    (h : (st.db.insertJob st.clock ch.freshId new).map (fun (db, row) => ({ st with db := db }, row)) =
      some (st', row)) :
    st'.db.job? row.id = some row ∧ row = new.toJob st.clock ch.freshId := by
  obtain ⟨⟨db, row⟩, hr, heq⟩ := Option.map_eq_some_iff.mp h
  cases heq
  obtain ⟨rfl, _, _, _, hjob⟩ := Database.insertJob_eq_some hr
  exact ⟨(hjob _).trans (if_pos rfl), rfl⟩

/-- Every row a call finds is still there after it, rewritten. -/
theorem run_job? {x : c.Ret} (h : c.run env ch st = some (st', x)) (hr : st.db.job? k = some r) :
    st'.db.job? k = some (c.rewrite st r) := by
  have hinsert {id : Uuid} {new : NewJob} {db' : Database} {row : Job}
      (h : st.db.insertJob st.clock id new = some (db', row)) : db'.job? k = some r := by
    obtain ⟨_, hnone, _, _, hjob⟩ := Database.insertJob_eq_some h
    rw [hjob, if_neg ?_, hr]
    rintro rfl
    rw [hr] at hnone
    cases hnone
  have hupdate {p : Job → Bool} {f : Job → Job} (hf : ∀ r, (f r).id = r.id) :
      (st.db.updateJobs st.clock p f hf).job? k = some (if p r then (f r).touch st.clock else r) := by
    rw [Database.job?_updateJobs hf, hr, Option.map_some]
  cases c <;> simp only [run, Option.some.injEq, Option.map_eq_some_iff, Prod.exists] at h
  case scheduleNextOccurrence | createJob =>
    obtain ⟨_, _, h, h'⟩ := h
    cases h'
    exact hinsert h
  case moveToDeadLetter =>
    obtain ⟨_, h, h'⟩ := h
    cases h'
    obtain ⟨_, hj, _, _⟩ := Database.moveToDeadLetter_eq_some h
    rw [Database.job?, hj]
    exact hupdate _
  case replayWrite =>
    cases h
    exact hupdate fun r => show r.reset.id = r.id from rfl
  case fetchAndLockJob | markJobSuccess | markJobRetrying | reclaimStaleJobs | reclaimDueRetryJobs
      | cancelUpdate =>
    cases h
    exact hupdate _
  case upsertWorkerHeartbeat =>
    cases h
    rw [Database.job?, Database.jobs_upsertWorkerHeartbeat]
    exact hr
  all_goals
    cases h
    exact hr

theorem run_job?_of_update {x : c.Ret} {p : Job → Bool} {f : Job → Job} (h : c.run env ch st = some (st', x))
    (hr : st.db.job? k = some r) (hc : c.update? st = some (p, f)) (hp : p r = true) :
    st'.db.job? k = some ((f r).touch st.clock) := by
  rw [run_job? h hr, rewrite, hc]
  exact congrArg some (if_pos hp)

theorem run_job?_none {x : c.Ret} (h : c.run env ch st = some (st', x)) (hk : st.db.job? k = none)
    (hr : st'.db.job? k = some r) : c.inserted? ch st = some r ∧ k = ch.freshId := by
  have hinsert {new : NewJob} {db' : Database} {row : Job}
      (h : st.db.insertJob st.clock ch.freshId new = some (db', row)) (hr : db'.job? k = some r) :
      new.toJob st.clock ch.freshId = r ∧ k = ch.freshId := by
    obtain ⟨rfl, _, _, _, hjob⟩ := Database.insertJob_eq_some h
    rw [hjob, hk] at hr
    split_ifs at hr with hid
    exact ⟨Option.some.inj hr, hid.symm⟩
  have hupdate {p : Job → Bool} {f : Job → Job} (hf : ∀ r, (f r).id = r.id)
      (hr : (st.db.updateJobs st.clock p f hf).job? k = some r) :
      c.inserted? ch st = some r ∧ k = ch.freshId := by
    rw [Database.job?_updateJobs hf, hk] at hr
    cases hr
  cases c <;> simp only [run, Option.some.injEq, Option.map_eq_some_iff, Prod.exists] at h
  case scheduleNextOccurrence | createJob =>
    obtain ⟨_, _, h, h'⟩ := h
    cases h'
    obtain ⟨rfl, hid⟩ := hinsert h hr
    exact ⟨rfl, hid⟩
  case moveToDeadLetter =>
    obtain ⟨_, h, h'⟩ := h
    cases h'
    obtain ⟨_, hj, _, _⟩ := Database.moveToDeadLetter_eq_some h
    rw [Database.job?, hj] at hr
    exact hupdate _ hr
  case replayWrite =>
    cases h
    exact hupdate (fun r => show r.reset.id = r.id from rfl) hr
  case fetchAndLockJob | markJobSuccess | markJobRetrying | reclaimStaleJobs | reclaimDueRetryJobs
      | cancelUpdate =>
    cases h
    exact hupdate _ hr
  case upsertWorkerHeartbeat =>
    cases h
    rw [Database.job?, Database.jobs_upsertWorkerHeartbeat] at hr
    exact absurd (hk.symm.trans hr) (by simp)
  all_goals
    cases h
    exact absurd (hk.symm.trans hr) (by simp)

/-- What a call does to one row: nothing, or the `SET` clause of its statement where the `WHERE` clause
selects the row. -/
inductive Writes (st : Store) (r : Job) : Call → Job → Prop
  | kept {c : Call} : (∀ u ∈ c.update? st, u.1 r = false) → Writes st r c r
  | lock (w : WorkerId) : r.claimable = true →
      Writes st r (fetchAndLockJob r.id w) ((r.lock w st.clock).touch st.clock)
  | succeed (v : Json) : Writes st r (markJobSuccess r.id v) ((r.succeed v.column).touch st.clock)
  | retry (e : String) (t : Time) : Writes st r (markJobRetrying r.id e t) ((r.retry e t).touch st.clock)
  | bury (e : String) (n : Nat) : Writes st r (moveToDeadLetter r.id e n) ((r.bury e).touch st.clock)
  | release (n : Nat) : st.db.stale st.clock n r = true →
      Writes st r (reclaimStaleJobs n) (r.release.touch st.clock)
  | promote : r.dueRetry st.clock = true → Writes st r reclaimDueRetryJobs (r.release.touch st.clock)
  | cancel : r.status = .pending → Writes st r (cancelUpdate r.id) (r.cancel.touch st.clock)
  | reset (d : Uuid) : Writes st r (replayWrite d r.id) (r.reset.touch st.clock)

theorem writes_rewrite (c : Call) : c.Writes st r (c.rewrite st r) := by
  have hupdate {p : Job → Bool} {f : Job → Job} (hc : c.update? st = some (p, f))
      (hw : p r = true → c.Writes st r ((f r).touch st.clock)) : c.Writes st r (c.rewrite st r) := by
    rw [rewrite, hc]
    dsimp only
    split_ifs with hp
    · exact hw hp
    · refine .kept fun u hu => ?_
      rw [hc] at hu
      cases hu
      exact Bool.eq_false_iff.mpr hp
  cases c
  case fetchAndLockJob j w =>
    refine hupdate rfl fun hp => ?_
    simp only [Bool.and_eq_true, decide_eq_true_eq] at hp
    obtain ⟨rfl, hp⟩ := hp
    exact .lock w hp
  case markJobSuccess j v =>
    refine hupdate rfl fun hp => ?_
    obtain rfl := of_decide_eq_true hp
    exact .succeed v
  case markJobRetrying j e t =>
    refine hupdate rfl fun hp => ?_
    obtain rfl := of_decide_eq_true hp
    exact .retry e t
  case moveToDeadLetter j e n =>
    refine hupdate rfl fun hp => ?_
    obtain rfl := of_decide_eq_true hp
    exact .bury e n
  case reclaimStaleJobs n => exact hupdate rfl fun hp => .release n hp
  case reclaimDueRetryJobs => exact hupdate rfl fun hp => .promote hp
  case cancelUpdate j =>
    refine hupdate rfl fun hp => ?_
    simp only [Bool.and_eq_true, decide_eq_true_eq] at hp
    obtain ⟨rfl, hp⟩ := hp
    exact .cancel hp
  case replayWrite d j =>
    refine hupdate rfl fun hp => ?_
    obtain rfl := of_decide_eq_true hp
    exact .reset d
  all_goals exact .kept nofun

theorem origin_rewrite : (c.rewrite st r).origin = r.origin := by
  have h : c.Writes st r _ := writes_rewrite c
  generalize c.rewrite st r = r' at h ⊢
  cases h <;> rfl

def letters (ch : Choice) (st : Store) : Call → List DeadLetter
  | moveToDeadLetter j e n => st.db.deadLetters.rows ++ [⟨ch.freshId, j, e, n, st.clock⟩]
  | replayWrite d _ => st.db.deadLetters.rows.filter fun l => !decide (l.id = d)
  | _ => st.db.deadLetters.rows

theorem run_letters {x : c.Ret} (h : c.run env ch st = some (st', x)) :
    st'.db.deadLetters.rows = c.letters ch st := by
  cases c <;> simp only [run, Option.some.injEq, Option.map_eq_some_iff, Prod.exists] at h
  case moveToDeadLetter =>
    obtain ⟨_, h, h'⟩ := h
    cases h'
    exact (Database.moveToDeadLetter_eq_some h).2.2.2
  case scheduleNextOccurrence | createJob =>
    obtain ⟨_, _, h, h'⟩ := h
    cases h'
    obtain ⟨_, _, hd, _⟩ := Database.insertJob_eq_some h
    exact congrArg Table.rows hd
  case upsertWorkerHeartbeat =>
    cases h
    exact congrArg Table.rows Database.deadLetters_upsertWorkerHeartbeat
  all_goals
    cases h
    rfl

end Call

variable {env : Env} {s s' : State} {a : Action} {k : Uuid} {r : Job}

/-- A step keeps every row, and rewrites it by its call alone. -/
theorem step_job? (h : step env s a = some s') (hr : s.store.db.job? k = some r) :
    s'.store.db.job? k = some r ∨ ∃ pid c, s.call? env a = some (pid, c) ∧
      s'.store.db.job? k = some (c.rewrite s.store r) := by
  rcases store_of_step h with ⟨pid, ch, c, x, hc, hx⟩ | ⟨_, hdb, _⟩
  · exact .inr ⟨pid, c, hc, Call.run_job? hx hr⟩
  · exact .inl (hdb ▸ hr)

theorem step_job?_none (h : step env s a = some s') (hk : s.store.db.job? k = none)
    (hr : s'.store.db.job? k = some r) : ∃ pid ch c, s.call? env a = some (pid, c) ∧
      c.inserted? ch s.store = some r ∧ k = ch.freshId := by
  rcases store_of_step h with ⟨pid, ch, c, x, hc, hx⟩ | ⟨_, hdb, _⟩
  · exact ⟨pid, ch, c, hc, Call.run_job?_none hx hk hr⟩
  · rw [hdb, hk] at hr
    cases hr

theorem step_origin (h : step env s a = some s') (hr : s.store.db.job? k = some r) :
    ∃ r', s'.store.db.job? k = some r' ∧ r'.origin = r.origin := by
  rcases step_job? h hr with hr' | ⟨_, _, _, hr'⟩
  · exact ⟨r, hr', rfl⟩
  · exact ⟨_, hr', Call.origin_rewrite⟩

theorem clock_le_of_step (h : step env s a = some s') : s.store.clock ≤ s'.store.clock := by
  have key {α : Type} {ch : Choice} {op : Op α} {st : Store} {x : α} (he : op.Ends env ch s.store st x) :
      s.store.clock ≤ st.clock := by
    cases he with
    | raised => exact le_rfl
    | returned _ hr | lost _ _ hr => exact (Call.run_clock hr).ge
  cases move_of_step h with
  | tick n => exact le_add_of_nonneg_right (Int.natCast_nonneg n)
  | spawn | signal | crash => exact le_rfl
  | run _ _ he | heartbeat _ _ he => exact key he

/-- The steps that leave jobs, dead letters and queues alone: those of no process, and the heartbeats. -/
structure Quiet (env : Env) (s : State) (a : Action) (s' : State) : Prop where
  runs : a.runs? = none
  crashes : a.crashes? = none
  call : ∀ pid c, s.call? env a = some (pid, c) → ∃ n, c = .upsertWorkerHeartbeat pid n
  jobs : s'.store.db.jobs = s.store.db.jobs
  deadLetters : s'.store.db.deadLetters = s.store.db.deadLetters
  redis : s'.store.redis = s.store.redis

theorem quiet_of_heartbeat {pid : Nat} {ch : Choice} {p p' : Proc} {op : Op Proc} {st : Store}
    {procs : List Proc} (hop : p.heartbeat pid = some op)
    (he : op.Ends env ch s.store st p') : Quiet env s (.heartbeat pid ch) ⟨st, procs⟩ := by
  have hcall (i : Nat) (c : Call) (hc : s.call? env (.heartbeat pid ch) = some (i, c)) :
      ∃ n, c = .upsertWorkerHeartbeat i n := by
    obtain ⟨_, _, _, _, ⟨h, _⟩ | ⟨_, hop⟩, rfl⟩ := call?_eq_some hc
    · cases h
    · obtain ⟨n, rfl⟩ := heartbeat_eq_some hop
      exact ⟨n, rfl⟩
  obtain ⟨n, rfl⟩ := heartbeat_eq_some hop
  cases he with
  | raised => exact ⟨rfl, rfl, hcall, rfl, rfl, rfl⟩
  | returned _ hr | lost _ _ hr =>
    cases hr
    exact ⟨rfl, rfl, hcall, Database.jobs_upsertWorkerHeartbeat,
      Database.deadLetters_upsertWorkerHeartbeat, rfl⟩

theorem jobs_of_heartbeat {pid : Nat} {c : Call} (h : step env s a = some s')
    (hc : s.call? env a = some (pid, c)) (ha : ∀ ch, a ≠ .run pid ch) :
    s'.store.db.jobs = s.store.db.jobs := by
  obtain ⟨n, rfl⟩ := heartbeat_of_call? hc ha
  obtain ⟨ch, x, hx⟩ := run_of_call? h hc
  simp only [Call.run, Option.some.injEq, Prod.mk.injEq] at hx
  rw [← hx.1]
  exact Database.jobs_upsertWorkerHeartbeat

/-- How a quantity spread over the processes changes: it leaves with a process that crashes, and else
moves with the process that runs. -/
inductive Shifts (env : Env) (f : Proc → Nat) (s s' : State) : Action → Prop
  | quiet {a : Action} : Quiet env s a s' → tally f s'.procs = tally f s.procs → Shifts env f s s' a
  | crashed {pid : Nat} {p : Proc} : s.procs[pid]? = some p → s'.store = s.store →
      tally f s'.procs + f p = tally f s.procs → Shifts env f s s' (.crash pid)
  | ran {pid : Nat} {ch : Choice} {p p' : Proc} {op : Op Proc} : s.procs[pid]? = some p →
      p.next env pid = some op → op.Ends env ch s.store s'.store p' →
      tally f s'.procs + f p = tally f s.procs + f p' → Shifts env f s s' (.run pid ch)

theorem shifts_of_step {f : Proc → Nat} (hgone : f .gone = 0) (hsignal : ∀ p, f p.signal = f p)
    (hnew : ∀ r : Request, f r.toProc = 0) (h : step env s a = some s') : Shifts env f s s' a := by
  cases move_of_step h with
  | tick n => exact .quiet ⟨rfl, rfl, nofun, rfl, rfl, rfl⟩ rfl
  | spawn r => exact .quiet ⟨rfl, rfl, nofun, rfl, rfl, rfl⟩ (by simp [hnew])
  | @signal pid p hp =>
    have hset := tally_set (f := f) (b := p.signal) hp
    rw [hsignal] at hset
    exact .quiet ⟨rfl, rfl, nofun, rfl, rfl, rfl⟩ (Nat.add_right_cancel hset)
  | @crash pid p hp =>
    have hset := tally_set (f := f) (b := Proc.gone) hp
    rw [hgone] at hset
    exact .crashed hp rfl hset
  | run hp hop he => exact .ran hp hop he (tally_set hp)
  | @heartbeat pid ch p p' op st hp hop he =>
    obtain rfl := heartbeat_ends hop he
    have hset := tally_set (f := f) (b := p') hp
    exact .quiet (quiet_of_heartbeat hop he) (Nat.add_right_cancel hset)

/-- The same quantity at one process. -/
def State.share (f : Proc → Nat) (pid : Nat) (s : State) : Nat := ((s.procs[pid]?).map f).getD 0

theorem State.share_eq {f : Proc → Nat} {pid : Nat} {p : Proc} (hp : s.procs[pid]? = some p) :
    s.share f pid = f p := by
  rw [share, hp]
  rfl

inductive Shares (env : Env) (f : Proc → Nat) (pid : Nat) (s s' : State) : Action → Prop
  | idle {a : Action} : (∀ ch, a ≠ .run pid ch) → s'.share f pid = s.share f pid →
      Shares env f pid s s' a
  | crashed {p : Proc} : s.procs[pid]? = some p → s'.share f pid = 0 → Shares env f pid s s' (.crash pid)
  | ran {ch : Choice} {p p' : Proc} {op : Op Proc} : s.procs[pid]? = some p → p.next env pid = some op →
      op.Ends env ch s.store s'.store p' → s'.share f pid = f p' → Shares env f pid s s' (.run pid ch)

theorem shares_of_step {f : Proc → Nat} (hgone : f .gone = 0) (hsignal : ∀ p, f p.signal = f p)
    (hnew : ∀ r : Request, f r.toProc = 0) (h : step env s a = some s') (pid : Nat) :
    Shares env f pid s s' a := by
  have hset {i : Nat} {p q : Proc} {st : Store} (hp : s.procs[i]? = some p) :
      State.share f pid ⟨st, s.procs.set i q⟩ = if i = pid then f q else s.share f pid := by
    obtain ⟨hlt, _⟩ := List.getElem?_eq_some_iff.mp hp
    unfold State.share
    dsimp only
    rw [List.getElem?_set]
    split_ifs <;> rfl
  have hkept {i : Nat} {p q : Proc} {st : Store} (hp : s.procs[i]? = some p) (hq : f q = f p) :
      State.share f pid ⟨st, s.procs.set i q⟩ = s.share f pid := by
    rw [hset hp]
    split_ifs with hi
    · subst hi
      rw [hq, State.share_eq hp]
    · rfl
  cases move_of_step h with
  | tick => exact .idle nofun rfl
  | spawn r =>
    refine .idle nofun ?_
    unfold State.share
    dsimp only
    rw [List.getElem?_append]
    split_ifs with hlt
    · rfl
    · rw [List.getElem?_eq_none (not_lt.mp hlt)]
      cases hx : [r.toProc][pid - s.procs.length]? with
      | none => rfl
      | some x =>
        rw [List.mem_singleton.mp (List.mem_of_getElem? hx)]
        exact hnew r
  | signal hp => exact .idle nofun (hkept hp (hsignal _))
  | @crash i p hp =>
    by_cases hi : i = pid
    · subst hi
      exact .crashed hp ((hset hp).trans ((if_pos rfl).trans hgone))
    · exact .idle nofun ((hset hp).trans (if_neg hi))
  | @run i ch p p' op st hp hop he =>
    by_cases hi : i = pid
    · subst hi
      exact .ran hp hop he ((hset hp).trans (if_pos rfl))
    · refine .idle ?_ ((hset hp).trans (if_neg hi))
      rintro ch' h
      cases h
      exact hi rfl
  | heartbeat hp hop he => exact .idle nofun (hkept hp (by rw [heartbeat_ends hop he]))

end DistribuQ
