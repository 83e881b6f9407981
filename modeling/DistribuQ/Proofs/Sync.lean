import DistribuQ.Proofs.Promotion
import DistribuQ.Proofs.Solo
import DistribuQ.Proofs.Duplicates

/-! The scheduled set after `sync_from_db`, whatever part of it was lost before. -/

namespace DistribuQ
open Transition
variable {env : Env} {pid : Nat} {st : Store} {s : Scheduler} {r r' : Redis} {db : Database} {n : Time}
  {js js' : List ScheduledJob}

/-- A row of `get_pending_scheduled_jobs`, due at `t`. -/
def Job.Awaits (r : Job) (t : Time) : Prop := r.status = .pending ∧ r.scheduledFor = some t

def ScheduledJob.entry (j : ScheduledJob) : Uuid × Time := (j.id, j.scheduledFor)

namespace Database

theorem mem_entries_getPendingScheduledJobs {e : Uuid × Time} :
    e ∈ db.getPendingScheduledJobs.map ScheduledJob.entry ↔
      ∃ r ∈ db.jobs.rows, r.id = e.1 ∧ r.Awaits e.2 := by
  simp only [getPendingScheduledJobs, List.mem_map, List.mem_filterMap, Table.select, List.mem_filter,
    Option.map_eq_some_iff, decide_eq_true_eq]
  constructor
  · rintro ⟨_, ⟨r, ⟨hr, hs⟩, t, ht, rfl⟩, rfl⟩
    exact ⟨r, hr, rfl, hs, ht⟩
  · rintro ⟨r, hr, hid, hs, ht⟩
    exact ⟨_, ⟨r, ⟨hr, hs⟩, e.2, ht, rfl⟩, Prod.ext hid rfl⟩

theorem nodup_getPendingScheduledJobs : (db.getPendingScheduledJobs.map ScheduledJob.id).Nodup := by
  have hsub : (db.getPendingScheduledJobs.map ScheduledJob.id).Sublist (db.jobs.rows.map Job.id) := by
    unfold getPendingScheduledJobs Table.select
    induction db.jobs.rows with
    | nil => exact List.Sublist.slnil
    | cons r rows ih =>
      rw [List.filter_cons]
      split
      · cases ht : r.scheduledFor with
        | none =>
          rw [List.filterMap_cons, ht]
          exact ih.cons _
        | some t =>
          rw [List.filterMap_cons, ht]
          exact ih.cons_cons _
      · exact ih.cons _
  exact db.jobs.nodup.sublist hsub

theorem length_getPendingScheduledJobs : db.getPendingScheduledJobs.length =
    db.jobs.rows.countP fun r => r.status = .pending && r.scheduledFor.isSome := by
  unfold getPendingScheduledJobs Table.select
  induction db.jobs.rows with
  | nil => rfl
  | cons r rows ih =>
    rw [List.countP_cons, ← ih, List.filter_cons]
    cases ht : r.scheduledFor <;> by_cases hs : r.status = .pending <;> simp [ht, hs]

end Database

namespace Scheduler

theorem foldl_sync (js : List ScheduledJob) (r : Redis) (k : Nat) :
    js.foldl (fun (r, count) j => (r.zadd j.id j.scheduledFor, count + 1)) (r, k) =
      ({ r with scheduled := (js.map ScheduledJob.entry).foldl (fun z e => z.add e.1 e.2) r.scheduled },
        k + js.length) := by
  induction js generalizing r k with
  | nil => rfl
  | cons j js ih =>
    rw [List.foldl_cons, ih, List.length_cons, Nat.add_assoc, Nat.add_comm 1]
    rfl

theorem syncFromDb_snd : (syncFromDb r js).2 = js.length := by
  rw [syncFromDb, foldl_sync, Nat.zero_add]

theorem syncFromDb_fst : (syncFromDb r js).1 = { r with scheduled := (syncFromDb r js).1.scheduled } := by
  rw [syncFromDb, foldl_sync]

theorem mem_scheduled_syncFromDb (hjs : js.Perm db.getPendingScheduledJobs) {e : Uuid × Time} :
    e ∈ (syncFromDb r js).1.scheduled.entries ↔ (∃ x ∈ db.jobs.rows, x.id = e.1 ∧ x.Awaits e.2) ∨
      e ∈ r.scheduled.entries ∧ ∀ x ∈ db.jobs.rows, ∀ t, x.Awaits t → x.id ≠ e.1 := by
  have hkeys : (js.map ScheduledJob.entry).map Prod.fst = js.map ScheduledJob.id := by
    rw [List.map_map]
    rfl
  have hnodup : ((js.map ScheduledJob.entry).map Prod.fst).Nodup := by
    rw [hkeys]
    exact (hjs.map _).nodup_iff.mpr Database.nodup_getPendingScheduledJobs
  have hmem (e : Uuid × Time) : e ∈ js.map ScheduledJob.entry ↔ ∃ x ∈ db.jobs.rows, x.id = e.1 ∧ x.Awaits e.2 :=
    (hjs.map _).mem_iff.trans Database.mem_entries_getPendingScheduledJobs
  rw [syncFromDb, foldl_sync]
  dsimp only
  rw [SortedSet.mem_entries_foldl_add hnodup, hmem]
  refine or_congr_right (and_congr_right fun _ => ?_)
  constructor
  · intro hout x hx t ht hid
    exact hout (List.mem_map.mpr ⟨(e.1, t), (hmem (e.1, t)).mpr ⟨x, hx, hid, ht⟩, rfl⟩)
  · intro hout hin
    obtain ⟨e', he', heq⟩ := List.mem_map.mp hin
    obtain ⟨x, hx, hid, ht⟩ := (hmem e').mp he'
    exact hout x hx e'.2 ht (hid.trans heq)

/-- The rows that were synced once are as a second sync would leave them. -/
theorem syncFromDb_syncFromDb (hjs : js.Perm db.getPendingScheduledJobs)
    (hjs' : js'.Perm db.getPendingScheduledJobs) :
    (syncFromDb (syncFromDb r js).1 js').1 = (syncFromDb r js).1 := by
  have hset : (syncFromDb (syncFromDb r js).1 js').1.scheduled = (syncFromDb r js).1.scheduled := by
    apply SortedSet.eq_of_mem_entries
    intro e
    rw [mem_scheduled_syncFromDb hjs', mem_scheduled_syncFromDb hjs]
    constructor
    · rintro (hin | ⟨hin, _⟩)
      · exact .inl hin
      · exact hin
    · rintro (hin | ⟨hin, hout⟩)
      · exact .inl hin
      · exact .inr ⟨.inr ⟨hin, hout⟩, hout⟩
  rw [syncFromDb_fst, hset]

/-- A promotion after `sync_from_db` takes the rows that are due, and no row that is not. -/
theorem mem_promoted_syncFromDb (hjs : js.Perm db.getPendingScheduledJobs) {x : Job} {t : Time}
    (hx : x ∈ db.jobs.rows) (ht : x.Awaits t) (q : Queue) :
    x.id ∈ ((syncFromDb r js).1.promoteScheduled q n).2 ↔ t ≤ n := by
  have he : (x.id, t) ∈ (syncFromDb r js).1.scheduled.entries :=
    (mem_scheduled_syncFromDb hjs).mpr (.inl ⟨x, hx, rfl, ht⟩)
  exact SortedSet.mem_rangeTo_of_mem he

end Scheduler

/-! The calls that make up `sync_from_db`. -/

/-- The call returns. -/
def Returning (_ : Store × Proc) (m : Turn) : Prop := m.choice.fault = .none

/-- `sync_from_db` ends in `Q` if all of its calls return. -/
abbrev SyncEnds (env : Env) (pid : Nat) (st : Store) (s : Scheduler)
    (Q : List ((Store × Proc) × Turn) → Store × Proc → Prop) : Prop :=
  Eventually (fun x => x.2.syncing = false) Returning (Solo.step env pid) (st, .scheduler (s.at' .syncSelect)) Q

namespace Scheduler

theorem exists_returning {p : Proc} {op : Op Proc} (hop : p.next env pid = some op) (st : Store) :
    ∃ m x, Returning (st, p) m ∧ Solo.step env pid (st, p) m = some x := by
  obtain ⟨m, x, _, hf, _, _, hs⟩ := Solo.exists_step hop (.ok .null) default st
  exact ⟨m, x, hf, hs⟩

theorem syncLoop_ends (js : List ScheduledJob) (st : Store) :
    Eventually (fun x => x.2.syncing = false) Returning (Solo.step env pid)
      (st, .scheduler (s.at' (syncLoop js))) fun tr x =>
        x.2 = .scheduler (s.at' .loop) ∧ x.1.db = st.db ∧
          x.1.redis = (js.foldl (fun (r, count) j => (r.zadd j.id j.scheduledFor, count + 1)) (st.redis, 0)).1 ∧
          tr.length = js.length := by
  induction js generalizing st with
  | nil => exact .done rfl ⟨rfl, rfl, rfl, rfl⟩
  | cons j js ih =>
    have hop : Proc.next env pid (.scheduler (s.at' (syncLoop (j :: js)))) = some _ := rfl
    refine Solo.eventually_call Bool.noConfusion hop (exists_returning hop st) fun m st' p' hm he => ?_
    obtain ⟨x, hrun, rfl⟩ := he.of_no_fault hm
    cases hrun
    refine (ih _).mono fun tr y hy => ?_
    obtain ⟨hy, hdb, hredis, hlen⟩ := hy
    refine ⟨hy, hdb, ?_, congrArg (· + 1) hlen⟩
    rw [hredis, List.foldl_cons, foldl_sync, foldl_sync]
    rfl

/-- The process does what the loop says, over the rows in the order in which the query returned them. -/
theorem syncEnds (env : Env) (pid : Nat) (st : Store) (s : Scheduler) :
    SyncEnds env pid st s fun tr x => ∃ js, js.Perm st.db.getPendingScheduledJobs ∧
      x.2 = .scheduler (s.at' .loop) ∧ x.1.db = st.db ∧ x.1.redis = (syncFromDb st.redis js).1 ∧
      tr.length = (syncFromDb st.redis js).2 + 1 := by
  have hop : Proc.next env pid (.scheduler (s.at' .syncSelect)) = some _ := rfl
  refine Solo.eventually_call Bool.noConfusion hop (exists_returning hop st) fun m st' p' hm he => ?_
  obtain ⟨x, hrun, rfl⟩ := he.of_no_fault hm
  cases hrun
  refine (syncLoop_ends _ _).mono fun tr y hy => ?_
  obtain ⟨hy, hdb, hredis, hlen⟩ := hy
  exact ⟨_, Table.perm_inOrder _ _, hy, hdb, hredis, congrArg (· + 1) (hlen.trans syncFromDb_snd.symm)⟩

/-- `sync_from_db` brings back every waiting job that the scheduled set has lost and disturbs nothing else; made
again it changes nothing, and what is promoted then is what is due. -/
theorem syncFromDb_recovers (env : Env) (pid : Nat) (st : Store) (s : Scheduler) :
    SyncEnds env pid st s fun tr x =>
      x.1.db = st.db ∧ x.1.redis = { st.redis with scheduled := x.1.redis.scheduled } ∧
      (∀ r ∈ st.db.jobs.rows, ∀ t, r.Awaits t → (r.id, t) ∈ x.1.redis.scheduled.entries) ∧
      (∀ e, (∀ r ∈ st.db.jobs.rows, ∀ t, r.Awaits t → r.id ≠ e.1) →
        (e ∈ x.1.redis.scheduled.entries ↔ e ∈ st.redis.scheduled.entries)) ∧
      (∃ js, js.Perm st.db.getPendingScheduledJobs ∧ x.1.redis = (syncFromDb st.redis js).1 ∧
        (syncFromDb st.redis js).2 =
          st.db.jobs.rows.countP (fun r => r.status = .pending && r.scheduledFor.isSome) ∧
        tr.length = (syncFromDb st.redis js).2 + 1) ∧
      (∀ pid' s', SyncEnds env pid' x.1 s' fun _ y => y.1.db = x.1.db ∧ y.1.redis = x.1.redis) ∧
      ∀ target n, let r' := (x.1.redis.promoteScheduled target n).1
        let promoted := (x.1.redis.promoteScheduled target n).2
        r'.lists target = promoted.reverse ++ st.redis.lists target ∧ promoted.Nodup ∧
        ∀ r ∈ st.db.jobs.rows, ∀ t, r.Awaits t → (r.id ∈ promoted ↔ t ≤ n) := by
  refine (syncEnds env pid st s).mono fun tr x hx => ?_
  obtain ⟨js, hjs, _, hdb, hredis, hlen⟩ := hx
  refine ⟨hdb, ?_, ?_, ?_, ⟨js, hjs, hredis, ?_, hlen⟩, ?_, ?_⟩
  · rw [hredis]
    exact syncFromDb_fst
  · intro r hr t ht
    rw [hredis, mem_scheduled_syncFromDb hjs]
    exact .inl ⟨r, hr, rfl, ht⟩
  · intro e he
    rw [hredis, mem_scheduled_syncFromDb hjs]
    constructor
    · rintro (⟨r, hr, hid, ht⟩ | ⟨hmem, _⟩)
      · exact absurd hid (he r hr e.2 ht)
      · exact hmem
    · intro hmem
      exact .inr ⟨hmem, he⟩
  · rw [syncFromDb_snd, hjs.length_eq, Database.length_getPendingScheduledJobs]
  · intro pid' s'
    refine (syncEnds env pid' x.1 s').mono fun _ y hy => ?_
    obtain ⟨js', hjs', _, hdb', hredis', _⟩ := hy
    refine ⟨hdb', ?_⟩
    rw [hdb] at hjs'
    rw [hredis', hredis, syncFromDb_syncFromDb hjs hjs']
  · intro target n
    have hlists : x.1.redis.lists = st.redis.lists := by rw [hredis, syncFromDb_fst]
    dsimp only
    refine ⟨?_, x.1.redis.scheduled.nodup_rangeTo n, fun r hr t ht => ?_⟩
    · rw [Redis.lists_promoteScheduled, Function.update_self, hlists]
      rfl
    · rw [hredis]
      exact mem_promoted_syncFromDb hjs hr ht target

end Scheduler
end DistribuQ
