import DistribuQ.Proofs.Processes

/-! What a call does to the rows of `workers`, and who makes the calls that write them or read them. -/

namespace DistribuQ
variable {env : Env} {s s' : State} {a : Action} {st st' : Store} {ch : Choice} {c : Call}
  {w : WorkerId} {pid : Nat}
  {v v' : WorkerRow}

namespace Database
variable {db : Database} {now : Time} {n : Nat}

theorem find?_upsertWorkerHeartbeat {i : WorkerId}
    (h : (db.upsertWorkerHeartbeat now w n).workers.find? i = some v') :
    i = w ∧ v'.status = .alive ∧ v'.lastHeartbeat = now ∧ v'.jobsProcessed = n ∨
      db.workers.find? i = some v' := by
  unfold upsertWorkerHeartbeat at h
  dsimp only at h
  split_ifs at h with hnew
  · rw [Table.find?_insert] at h
    split_ifs at h with hi
    · cases h
      exact .inl ⟨hi.symm, rfl, rfl, rfl⟩
    · exact .inr h
  · rw [Table.find?_update] at h
    obtain ⟨v, hv, hv'⟩ := Option.map_eq_some_iff.mp h
    split_ifs at hv' with hid
    · have hid := of_decide_eq_true hid
      subst hv'
      exact .inl ⟨(Table.key_of_find? hv).symm.trans hid, rfl, rfl, rfl⟩
    · exact .inr (hv' ▸ hv)

theorem find?_markWorkerDead {i : WorkerId} (h : (db.markWorkerDead w).workers.find? i = some v') :
    (i = w ∧ ∃ v, db.workers.find? i = some v ∧ v' = { v with status := .dead }) ∨
        db.workers.find? i = some v' := by
  unfold markWorkerDead at h
  rw [Table.find?_update] at h
  obtain ⟨v, hv, hv'⟩ := Option.map_eq_some_iff.mp h
  split_ifs at hv' with hid
  · exact .inl ⟨(Table.key_of_find? hv).symm.trans (of_decide_eq_true hid), v, hv, hv'.symm⟩
  · exact .inr (hv' ▸ hv)

theorem find?_markExpiredWorkersDead {i : WorkerId}
    (h : (db.markExpiredWorkersDead now n).1.workers.find? i = some v') :
    (∃ v, db.workers.find? i = some v ∧ v.status = .alive ∧ v.lastHeartbeat < now - seconds n ∧
      v' = { v with status := .dead }) ∨ db.workers.find? i = some v' := by
  unfold markExpiredWorkersDead at h
  rw [Table.find?_update] at h
  obtain ⟨v, hv, hv'⟩ := Option.map_eq_some_iff.mp h
  split_ifs at hv' with hp
  · simp only [Bool.and_eq_true, decide_eq_true_eq] at hp
    exact .inl ⟨v, hv, hp.1, hp.2, hv'.symm⟩
  · exact .inr (hv' ▸ hv)

end Database

/-- Where the row of worker `w` comes from: a heartbeat of its own, its own `stop`, an expiry, or it was there. -/
inductive Call.Registers (st : Store) (w : WorkerId) (v' : WorkerRow) : Call → Prop
  | kept {c : Call} : st.db.workers.find? w = some v' → Registers st w v' c
  | beat (n : Nat) : v'.status = .alive → v'.lastHeartbeat = st.clock → v'.jobsProcessed = n →
      Registers st w v' (.upsertWorkerHeartbeat w n)
  | stopped (v : WorkerRow) : st.db.workers.find? w = some v → v' = { v with status := .dead } →
      Registers st w v' (.markWorkerDead w)
  | expired (v : WorkerRow) (n : Nat) : st.db.workers.find? w = some v → v.status = .alive →
      v.lastHeartbeat < st.clock - seconds n → v' = { v with status := .dead } →
      Registers st w v' (.markExpiredWorkersDead n)

theorem Call.registers_of_run {x : c.Ret} (h : c.run env ch st = some (st', x))
    (hv' : st'.db.workers.find? w = some v') : c.Registers st w v' := by
  cases c <;> simp only [run, Option.some.injEq, Option.map_eq_some_iff, Prod.exists] at h
  case upsertWorkerHeartbeat i n =>
    cases h
    rcases Database.find?_upsertWorkerHeartbeat hv' with ⟨rfl, halive, hlast, hn⟩ | hkept
    · exact .beat n halive hlast hn
    · exact .kept hkept
  case markWorkerDead i =>
    cases h
    rcases Database.find?_markWorkerDead hv' with ⟨rfl, v, hv, hdead⟩ | hkept
    · exact .stopped v hv hdead
    · exact .kept hkept
  case markExpiredWorkersDead n =>
    cases h
    rcases Database.find?_markExpiredWorkersDead hv' with ⟨v, hv, halive, hlast, hdead⟩ | hkept
    · exact .expired v n hv halive hlast hdead
    · exact .kept hkept
  case moveToDeadLetter =>
    obtain ⟨db, hdb, hst⟩ := h
    cases hst
    rw [(Database.moveToDeadLetter_eq_some hdb).2.2.1] at hv'
    exact .kept hv'
  case createJob | scheduleNextOccurrence =>
    obtain ⟨db, row, hdb, hst⟩ := h
    cases hst
    rw [(Database.insertJob_eq_some hdb).2.2.2.1] at hv'
    exact .kept hv'
  all_goals
    cases h
    exact .kept hv'

/-- A row stays, with its `started_at`. -/
theorem Call.exists_worker_of_run {x : c.Ret} (h : c.run env ch st = some (st', x))
    (hv : st.db.workers.find? w = some v) : ∃ v', st'.db.workers.find? w = some v' ∧
        v'.startedAt = v.startedAt := by
  have hupdate {q : WorkerRow → Bool} {f : WorkerRow → WorkerRow} (hf : ∀ r, (f r).id = r.id)
      (hstart : (f v).startedAt = v.startedAt) :
      ∃ v', (st.db.workers.update q f hf).find? w = some v' ∧ v'.startedAt = v.startedAt := by
    refine ⟨if q v then f v else v, by rw [Table.find?_update, hv, Option.map_some], ?_⟩
    split_ifs
    · exact hstart
    · rfl
  cases c <;> simp only [run, Option.some.injEq, Option.map_eq_some_iff, Prod.exists] at h
  case upsertWorkerHeartbeat i n =>
    cases h
    by_cases hnew : st.db.workers.find? i = none
    · refine ⟨v, ?_, rfl⟩
      have hne : i ≠ w := fun hi => by
        rw [hi, hv] at hnew
        cases hnew
      simp only [Database.upsertWorkerHeartbeat, hnew, dite_true, Table.find?_insert, if_neg hne, hv]
    · simp only [Database.upsertWorkerHeartbeat, hnew, dite_false]
      exact hupdate _ rfl
  case markWorkerDead i =>
    cases h
    refine hupdate (fun _ => ?_) ?_ <;> rfl
  case markExpiredWorkersDead n =>
    cases h
    refine hupdate (fun _ => ?_) ?_ <;> rfl
  case moveToDeadLetter =>
    obtain ⟨db, hdb, hst⟩ := h
    cases hst
    exact ⟨v, (Database.moveToDeadLetter_eq_some hdb).2.2.1 ▸ hv, rfl⟩
  case createJob | scheduleNextOccurrence =>
    obtain ⟨db, row, hdb, hst⟩ := h
    cases hst
    exact ⟨v, (Database.insertJob_eq_some hdb).2.2.2.1 ▸ hv, rfl⟩
  all_goals
    cases h
    exact ⟨v, hv, rfl⟩

theorem exists_worker_of_step (h : step env s a = some s') (hv : s.store.db.workers.find? w = some v) :
    ∃ v', s'.store.db.workers.find? w = some v' ∧ v'.startedAt = v.startedAt := by
  rcases store_of_step h with ⟨_, _, _, _, _, hx⟩ | ⟨_, hdb, _⟩
  · exact Call.exists_worker_of_run hx hv
  · exact ⟨v, hdb ▸ hv, rfl⟩

/-- The heartbeats go on. -/
def Worker.Pc.beats : Worker.Pc → Bool
  | markDead | stopped => false
  | _ => true

/-- The process that makes a call about the registry, with what it passes. -/
def Call.CalledBy (env : Env) (pid : Nat) (p : Proc) : Call → Prop
  | upsertWorkerHeartbeat w n => w = pid ∧ ∃ q, p = .worker q ∧ n = q.jobsProcessed ∧ q.pc.beats = true
  | markWorkerDead w => w = pid ∧ ∃ q, p = .worker q ∧ q.pc = .markDead
  | markExpiredWorkersDead n => (∃ q, p = .scheduler q ∧ n = env.workerTimeoutSec) ∨
      ∃ q, p = .reaper q ∧ n = q.heartbeatTimeoutSec
  | reclaimStaleJobs n => (∃ q, p = .scheduler q ∧ n = env.visibilityTimeoutSec) ∨
      ∃ q, p = .reaper q ∧ n = q.visibilityTimeoutSec
  | _ => True

theorem calledBy_of_next {p : Proc} {op : Op Proc} (hop : p.next env pid = some op) :
    op.call.CalledBy env pid p := by
  cases p with
  | worker p =>
    obtain ⟨pc, running, n⟩ := p
    cases pc with
    | poll qs => cases qs <;> cases hop <;> trivial
    | markDead =>
      cases hop
      exact ⟨rfl, _, rfl, rfl⟩
    | stopped => cases hop
    | _ =>
      cases hop
      trivial
  | submit pc =>
    obtain ⟨_, hnext, rfl⟩ := Option.map_eq_some_iff.mp hop
    cases Submit.does_of_next hnext <;> trivial
  | cancel pc => cases pc <;> cases hop <;> trivial
  | replay pc => cases pc <;> cases hop <;> trivial
  | scheduler p =>
    obtain ⟨pc, running, last⟩ := p
    cases pc with
    | expire | stale =>
      cases hop
      exact .inl ⟨_, rfl, rfl⟩
    | stopped => cases hop
    | _ =>
      cases hop
      trivial
  | reaper p =>
    obtain ⟨v, n, pc, running⟩ := p
    cases pc with
    | expire | stale =>
      cases hop
      exact .inr ⟨_, rfl, rfl⟩
    | stopped => cases hop
    | _ =>
      cases hop
      trivial
  | gone => cases hop

theorem calledBy_of_heartbeat {p : Proc} {op : Op Proc} (hop : p.heartbeat pid = some op) :
    op.call.CalledBy env pid p := by
  cases p with
  | worker p =>
    simp only [Proc.heartbeat] at hop
    split at hop
    · cases hop
    · cases hop
    · rename_i hmark hstop
      cases hop
      refine ⟨rfl, p, rfl, rfl, ?_⟩
      cases hpc : p.pc with
      | markDead => exact absurd hpc hmark
      | stopped => exact absurd hpc hstop
      | _ => rfl
  | _ => cases hop

theorem calledBy_of_call? (h : s.call? env a = some (pid, c)) :
    ∃ p, s.procs[pid]? = some p ∧ c.CalledBy env pid p := by
  obtain ⟨ch, p, op, hp, ⟨_, hop⟩ | ⟨_, hop⟩, rfl⟩ := call?_eq_some h
  · exact ⟨p, hp, calledBy_of_next hop⟩
  · exact ⟨p, hp, calledBy_of_heartbeat hop⟩

/-- What a step can do to the row of a worker. -/
inductive Registered (env : Env) (s : State) (w : WorkerId) (v' : WorkerRow) : Prop
  | kept : s.store.db.workers.find? w = some v' → Registered env s w v'
  | beat (p : Worker) : s.procs[w]? = some (.worker p) → p.pc.beats = true → v'.status = .alive →
      v'.lastHeartbeat = s.store.clock → v'.jobsProcessed = p.jobsProcessed → Registered env s w v'
  | stopped (v : WorkerRow) (p : Worker) : s.store.db.workers.find? w = some v →
      s.procs[w]? = some (.worker p) →
      p.pc = .markDead → v' = { v with status := .dead } → Registered env s w v'
  | expired (v : WorkerRow) (n pid : Nat) (p : Proc) : s.store.db.workers.find? w = some v → v.status = .alive →
      v.lastHeartbeat < s.store.clock - seconds n → v' = { v with status := .dead } → s.procs[pid]? = some p →
      (Call.markExpiredWorkersDead n).CalledBy env pid p → Registered env s w v'

theorem registered_of_step (h : step env s a = some s') (hv' : s'.store.db.workers.find? w = some v') :
    Registered env s w v' := by
  rcases store_of_step h with ⟨pid, ch, c, x, hc, hx⟩ | ⟨_, hdb, _⟩
  · obtain ⟨p, hp, hby⟩ := calledBy_of_call? hc
    cases Call.registers_of_run hx hv' with
    | kept hv => exact .kept hv
    | beat n halive hlast hn =>
      obtain ⟨rfl, q, rfl, rfl, hbeats⟩ := hby
      exact .beat q hp hbeats halive hlast hn
    | stopped v hv hdead =>
      obtain ⟨rfl, q, rfl, hpc⟩ := hby
      exact .stopped v q hv hp hpc hdead
    | expired v n hv halive hlast hdead => exact .expired v n pid p hv halive hlast hdead hp hby
  · exact .kept (hdb ▸ hv')

end DistribuQ
