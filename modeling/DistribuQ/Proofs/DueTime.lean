import DistribuQ.Model.DateTime
import DistribuQ.Proofs.Sync

/-! The due time of a job as `submit_job` writes it and as `sync_from_db` reads it back. -/

namespace DistribuQ
variable {z : Zones} {st st' : Store} {id : Uuid} {req : JobCreateRequest} {d : DateTime} {r : Redis}
  {js : List ScheduledJob} {t : Time}

/-- Two zones read a value at one instant if it has an offset, or if they give the wall time the same one. -/
theorem DateTime.instantIn_eq_iff (zone zone' : Zone) : d.instantIn zone = d.instantIn zone' ↔
    d.utcOffset.isSome ∨ zone.localOffset d.wall = zone'.localOffset d.wall := by
  unfold instantIn
  cases d.utcOffset with
  | some o => simp
  | none => simp

theorem submitScheduled_eq_some (h : submitScheduled z st id req d = some st') :
    ∃ db row, st.db.createJob st.clock id
        { req.toNewJob with scheduledFor := some (d.toTimestamptz z.session) } = some (db, row) ∧
      st' = { st with db := db, redis := st.redis.zadd row.id (d.timestamp z.api) } := by
  simp only [submitScheduled, Option.bind_eq_bind, Option.bind_eq_some_iff, Option.some.injEq] at h
  obtain ⟨⟨db, row⟩, hrow, rfl⟩ := h
  exact ⟨db, row, hrow, rfl⟩

/-- Where both routes make one instant of the value, the request does what the model of the system has it do. -/
theorem submitScheduled_eq_submit (h : d.toTimestamptz z.session = t) (h' : d.timestamp z.api = t) :
    submitScheduled z st id req d =
      (st.db.createJob st.clock id ({ req with scheduledFor := some t } : JobCreateRequest).toNewJob).map
        fun x => { st with db := x.1, redis := st.redis.zadd x.2.id t } := by
  unfold submitScheduled
  rw [h, h']
  exact Option.map_eq_bind.symm

namespace Scheduler

/-- What `sync_from_db` reads back is the instant that was stored. -/
theorem syncFromColumns_eq (z : Zones) (r : Redis) (js : List ScheduledJob) :
    syncFromColumns z r js = (syncFromDb r js).1 := by
  unfold syncFromColumns syncFromDb
  generalize 0 = k
  induction js generalizing r k with
  | nil => rfl
  | cons j js ih =>
    rw [List.foldl_cons, List.foldl_cons, DateTime.timestamp_ofTimestamptz]
    exact ih _ _

end Scheduler

/-- The score that `submit_job` stores and the one that `sync_from_db` computes from the column, whatever the
scheduled set holds by then, are equal exactly if the value has an offset or the zones of the API process
and of the session agree on its wall time. -/
theorem scores_agree_iff (z : Zones) (st st' : Store) (id : Uuid) (req : JobCreateRequest) (d : DateTime)
    (r : Redis) (js : List ScheduledJob) (h : submitScheduled z st id req d = some st')
    (hjs : js.Perm st'.db.getPendingScheduledJobs) :
    ∃ s s', (id, s) ∈ st'.redis.scheduled.entries ∧
      (id, s') ∈ (Scheduler.syncFromColumns z r js).scheduled.entries ∧
      (s = s' ↔ d.utcOffset.isSome ∨ z.api.localOffset d.wall = z.session.localOffset d.wall) := by
  obtain ⟨db, row, hrow, rfl⟩ := submitScheduled_eq_some h
  obtain ⟨rfl, _, _, _, hjob⟩ := Database.insertJob_eq_some hrow
  refine ⟨_, d.toTimestamptz z.session, SortedSet.mem_entries_add.mpr (.inl rfl), ?_,
    DateTime.instantIn_eq_iff z.api z.session⟩
  rw [Scheduler.syncFromColumns_eq, Scheduler.mem_scheduled_syncFromDb hjs]
  exact .inl ⟨_, Database.mem_of_job? ((hjob id).trans (if_pos rfl)), rfl, rfl, rfl⟩

/-! Noon without an offset: the API process is an hour ahead of UTC, the session is not. -/

def noon : DateTime := ⟨seconds 43200, none⟩

def fixed (offset : Int) : Zone := ⟨fun _ => offset, fun _ => offset⟩

def hourAhead : Zones := ⟨fixed (seconds 3600), fixed 0, fixed 0⟩

def noStore : Store := ⟨Database.empty, Redis.empty, 0⟩

/-- With an offset the zones do not matter. -/
theorem scores_agree_iff_utc : ∃ s s', s = s' ∧ ∃ st', submitScheduled hourAhead noStore 7 report
    { noon with utcOffset := some 0 } = some st' ∧ (7, s) ∈ st'.redis.scheduled.entries ∧
      (7, s') ∈ (Scheduler.syncFromColumns hourAhead Redis.empty
        st'.db.getPendingScheduledJobs).scheduled.entries := by
  obtain ⟨s, s', hs, hs', hiff⟩ := scores_agree_iff hourAhead noStore _ 7 report
    { noon with utcOffset := some 0 } Redis.empty _ rfl (.refl _)
  exact ⟨s, s', hiff.mpr (.inl rfl), _, rfl, hs, hs'⟩

/-- The set has eleven o'clock UTC, and a sync makes it noon. -/
theorem scores_differ_at_noon : ∃ st', submitScheduled hourAhead noStore 7 report noon = some st' ∧
    st'.redis.scheduled.entries = [(7, seconds 39600)] ∧
    (Scheduler.syncFromColumns hourAhead st'.redis st'.db.getPendingScheduledJobs).scheduled.entries =
      [(7, seconds 43200)] :=
  ⟨_, rfl, by decide, by decide⟩

end DistribuQ
