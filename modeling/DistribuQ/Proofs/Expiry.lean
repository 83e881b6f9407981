import DistribuQ.Proofs.Recovery

/-! Which jobs a reaper pass moves: `mark_expired_workers_dead` and then `reclaim_stale_jobs`, at one time. -/

namespace DistribuQ
variable {db : Database} {now : Time} {n v : Nat} {r : Job}

/-- The two statements of a pass, with the heartbeat timeout `n` and the visibility timeout `v`. -/
def Database.reaperPass (db : Database) (now : Time) (n v : Nat) : Database :=
  ((db.markExpiredWorkersDead now n).1.reclaimStaleJobs now v).1

/-- The worker has said that it stops, or has not been heard of for one of the timeouts. -/
def WorkerRow.Lost (w : WorkerRow) (now : Time) (n v : Nat) : Prop :=
  w.status = .dead ∨
    w.status = .alive ∧ (w.lastHeartbeat < now - seconds n ∨ w.lastHeartbeat < now - seconds v)

/-- The job is locked for too long, or by a worker that is lost. -/
def Database.Stranded (db : Database) (now : Time) (n v : Nat) (r : Job) : Prop :=
  r.status = .running ∧ ((∃ t, r.lockedAt = some t ∧ t < now - seconds v) ∨
    ∃ w ∈ db.workers.rows, r.lockedBy = some w.id ∧ w.Lost now n v)

/-- What the first statement makes of the row of a worker. -/
def WorkerRow.expire (w : WorkerRow) (now : Time) (n : Nat) : WorkerRow :=
  if w.status = .alive ∧ w.lastHeartbeat < now - seconds n then { w with status := .dead } else w

theorem WorkerRow.id_expire (w : WorkerRow) : (w.expire now n).id = w.id := by
  unfold expire
  split_ifs <;> rfl

/-- What the second statement then finds there. -/
theorem WorkerRow.lost_iff_expire (w : WorkerRow) : w.Lost now n v ↔
    (w.expire now n).status = .dead ∨ (w.expire now n).lastHeartbeat < now - seconds v := by
  unfold Lost expire
  cases hs : w.status with
  | dead => simp [hs]
  | alive => by_cases hb : w.lastHeartbeat < now - seconds n <;> simp [hs, hb]

namespace Database

theorem rows_markExpiredWorkersDead : (db.markExpiredWorkersDead now n).1.workers.rows =
    db.workers.rows.map fun w => w.expire now n := by
  refine List.map_congr_left fun w _ => ?_
  simp only [WorkerRow.expire, Bool.and_eq_true, decide_eq_true_eq]

theorem stale_iff : db.stale now v r = true ↔ r.status = .running ∧
    ((∃ t, r.lockedAt = some t ∧ t < now - seconds v) ∨ ∃ w ∈ db.workers.rows, r.lockedBy = some w.id ∧
      (w.status = .dead ∨ w.lastHeartbeat < now - seconds v)) := by
  simp only [stale, Bool.and_eq_true, Bool.or_eq_true, decide_eq_true_eq, Option.any_eq_true,
    List.any_eq_true]
  refine and_congr_right fun _ => or_congr_right ?_
  constructor
  · rintro ⟨i, hi, w, hw, rfl, hlost⟩
    exact ⟨w, hw, hi, hlost⟩
  · rintro ⟨w, hw, hi, hlost⟩
    exact ⟨w.id, hi, w, hw, rfl, hlost⟩

/-- The two statements together take the jobs that are stranded. -/
theorem stale_markExpiredWorkersDead :
    (db.markExpiredWorkersDead now n).1.stale now v r = true ↔ db.Stranded now n v r := by
  rw [stale_iff, rows_markExpiredWorkersDead]
  refine and_congr_right fun _ => or_congr_right ?_
  simp only [List.mem_map, exists_exists_and_eq_and, WorkerRow.id_expire, ← WorkerRow.lost_iff_expire]

theorem job?_reaperPass (j : Uuid) : (db.reaperPass now n v).job? j = (db.job? j).map fun r =>
    if (db.markExpiredWorkersDead now n).1.stale now v r then r.release.touch now else r :=
  job?_updateJobs (f := Job.release) fun _ => rfl

theorem job?_reaperPass_of_stranded {j : Uuid} (hr : db.job? j = some r) (h : db.Stranded now n v r) :
    (db.reaperPass now n v).job? j = some (r.release.touch now) := by
  rw [job?_reaperPass, hr, Option.map_some, if_pos (stale_markExpiredWorkersDead.mpr h)]

theorem job?_reaperPass_of_not_stranded {j : Uuid} (hr : db.job? j = some r) (h : ¬ db.Stranded now n v r) :
    (db.reaperPass now n v).job? j = some r := by
  rw [job?_reaperPass, hr, Option.map_some, if_neg (mt stale_markExpiredWorkersDead.mp h)]

/-- No worker is left that the pass would find to be lost and has not marked. -/
theorem alive_of_reaperPass {w : WorkerRow} (hw : w ∈ (db.reaperPass now n v).workers.rows)
    (hs : w.status = .alive) : now - seconds n ≤ w.lastHeartbeat := by
  have hw : w ∈ (db.markExpiredWorkersDead now n).1.workers.rows := hw
  rw [rows_markExpiredWorkersDead] at hw
  obtain ⟨w, _, rfl⟩ := List.mem_map.mp hw
  unfold WorkerRow.expire at hs ⊢
  split_ifs at hs ⊢ with hexp
  by_contra hlt
  exact hexp ⟨hs, not_le.mp hlt⟩

/-- A row that is there after the pass is not one that a pass takes. -/
theorem not_stale_reaperPass (hr : r ∈ (db.reaperPass now n v).jobs.rows) :
    (db.reaperPass now n v).stale now v r = false := by
  obtain ⟨r, _, rfl⟩ := List.mem_map.mp hr
  dsimp only
  split_ifs with hstale
  · exact Bool.eq_false_iff.mpr fun h => by cases running_of_stale h
  · exact Bool.eq_false_iff.mpr hstale

theorem reaperPass_reaperPass : (db.reaperPass now n v).reaperPass now n v = db.reaperPass now n v := by
  have hworkers : ((db.reaperPass now n v).markExpiredWorkersDead now n).1 = db.reaperPass now n v := by
    unfold markExpiredWorkersDead
    dsimp only
    rw [Table.update_eq_self]
    intro w hw
    simp only [Bool.and_eq_false_iff, decide_eq_false_iff_not, ← imp_iff_not_or, not_lt]
    exact alive_of_reaperPass hw
  have hjobs : ((db.reaperPass now n v).reclaimStaleJobs now v).1 = db.reaperPass now n v :=
    updateJobs_eq_self fun _ => not_stale_reaperPass
  show (((db.reaperPass now n v).markExpiredWorkersDead now n).1.reclaimStaleJobs now v).1 = _
  rw [hworkers, hjobs]

/-- A job that is still running after the pass has a lock that is not too old and no worker that is lost. -/
theorem kept_of_reaperPass (hr : r ∈ (db.reaperPass now n v).jobs.rows) (hs : r.status = .running) :
    (∀ t, r.lockedAt = some t → now - seconds v ≤ t) ∧
      ∀ i w, r.lockedBy = some i → (db.reaperPass now n v).workers.find? i = some w →
        w.status = .alive ∧ now - seconds (min n v) ≤ w.lastHeartbeat := by
  have hkept := mt stale_iff.mpr (Bool.eq_false_iff.mp (not_stale_reaperPass hr))
  simp only [hs, true_and, not_or, not_exists, not_and, not_lt] at hkept
  obtain ⟨hlock, hworker⟩ := hkept
  refine ⟨hlock, fun i w hi hw => ?_⟩
  obtain ⟨hmem, rfl⟩ := (Table.find?_eq_some _).mp hw
  obtain ⟨hdead, hbeat⟩ := hworker w hmem hi
  have halive : w.status = .alive := by
    cases hw : w.status with
    | alive => rfl
    | dead => exact absurd hw hdead
  have hbeat' := alive_of_reaperPass hmem halive
  refine ⟨halive, ?_⟩
  rcases min_choice n v with h | h
  · rwa [h]
  · rwa [h]

/-- A pass of the reaper takes the jobs whose lock is too old or whose worker is lost, and no others; what is
running after it is safe, and another pass at the same time finds nothing to do. -/
theorem reaperPass_sound_complete (db : Database) (now : Time) (n v : Nat)
    (hlocked : ∀ r ∈ db.jobs.rows, r.status = .running → r.lockedAt.isSome = true) :
    (∀ j r, db.job? j = some r → ∃ r', (db.reaperPass now n v).job? j = some r' ∧
      (r.status ≠ .pending ∧ r'.status = .pending ↔ db.Stranded now n v r) ∧
      (db.Stranded now n v r →
        r' = { r with status := .pending, lockedBy := none, lockedAt := none, updatedAt := now }) ∧
      (¬ db.Stranded now n v r → r' = r)) ∧
    (∀ j, db.job? j = none → (db.reaperPass now n v).job? j = none) ∧
    (∀ r ∈ (db.reaperPass now n v).jobs.rows, r.status = .running →
      (∃ t, r.lockedAt = some t ∧ now - seconds v ≤ t) ∧
      ∀ i w, r.lockedBy = some i → (db.reaperPass now n v).workers.find? i = some w →
        w.status = .alive ∧ now - seconds (min n v) ≤ w.lastHeartbeat) ∧
    (db.reaperPass now n v).deadLetters = db.deadLetters ∧
    (db.reaperPass now n v).reaperPass now n v = db.reaperPass now n v := by
  refine ⟨fun j r hr => ?_, fun j hj => ?_, fun r hr hs => ?_, rfl, reaperPass_reaperPass⟩
  · by_cases h : db.Stranded now n v r
    · refine ⟨_, job?_reaperPass_of_stranded hr h, iff_of_true ⟨?_, rfl⟩ h, fun _ => rfl, absurd h⟩
      rw [h.1]
      decide
    · refine ⟨r, job?_reaperPass_of_not_stranded hr h, iff_of_false ?_ h, fun h' => absurd h' h, fun _ => rfl⟩
      exact fun ⟨hne, heq⟩ => hne heq
  · rw [job?_reaperPass, hj, Option.map_none]
  · obtain ⟨hlock, hworker⟩ := kept_of_reaperPass hr hs
    refine ⟨?_, hworker⟩
    -- a row that is running after the pass is one that the pass has left alone
    obtain ⟨r₀, hr₀, rfl⟩ := List.mem_map.mp hr
    dsimp only at hs hlock ⊢
    split_ifs at hs hlock ⊢
    · cases hs
    · obtain ⟨t, ht⟩ := Option.isSome_iff_exists.mp (hlocked r₀ hr₀ hs)
      exact ⟨t, ht, hlock t ht⟩

/-- Job 7 has been locked since 0 by worker 1, which is not heard of since then. -/
def abandoned : Database where
  jobs := .single ((report.toNewJob.toJob 0 7).lock 1 0)
  workers := .single ⟨1, .alive, 0, 0, 0⟩
  deadLetters := Table.empty

/-- The heartbeat of worker 1 is too old before the lock of job 7 is. -/
theorem reaperPass_sound_complete_abandoned : ∃ r', (abandoned.reaperPass (seconds 11) 10 60).job? 7 = some r' ∧
    r'.status = .pending := by
  obtain ⟨hjobs, _⟩ := reaperPass_sound_complete abandoned (seconds 11) 10 60 (by decide)
  obtain ⟨r', hr', hmoved, _⟩ := hjobs 7 _ rfl
  refine ⟨r', hr', (hmoved.mpr ⟨rfl, .inr ⟨_, List.mem_singleton_self _, rfl, .inr ⟨rfl, .inl ?_⟩⟩⟩).2⟩
  decide

end Database
end DistribuQ
