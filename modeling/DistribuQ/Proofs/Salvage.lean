import DistribuQ.Proofs.Draining
import DistribuQ.Proofs.Loss
import DistribuQ.Proofs.Recovery
import DistribuQ.Proofs.Sync

/-! How a job comes to its end from wherever it is: for each place, what has to be started, and how long
it has to wait. -/

namespace DistribuQ
open Transition
variable {env : Env} {s s' : State} {pid : Nat} {p : Proc} {st st' : Store} {j : Uuid} {r : Job}

/-- No call raises, no process crashes, and nobody cancels a job. -/
def Gentle (_ : State) (a : Action) : Prop := NoFault a ∧ NoCancel a ∧ NoCrash a

/-- The job can still come to be `SUCCESS`, if nothing raises, crashes or is cancelled. -/
def State.Salvageable (env : Env) (s : State) (j : Uuid) : Prop :=
  ∃ s', Reachable Gentle (step env) s s' ∧ s'.store.db.status? j = some .success

theorem State.Salvageable.of_reachable (h : Reachable Gentle (step env) s s') (h' : s'.Salvageable env j) :
    s.Salvageable env j := by
  obtain ⟨s'', hs'', hdone⟩ := h'
  exact ⟨s'', h.trans hs'', hdone⟩

/-! Moves that are always possible. -/

theorem reachable_tick (s : State) (n : Nat) :
    Reachable Gentle (step env) s ⟨s.store.wait n, s.procs⟩ :=
  Reachable.refl.next (a := .tick n) ⟨trivial, trivial, trivial⟩ rfl

theorem reachable_spawn (s : State) {r : Request} (hr : NoCancel (.spawn r)) :
    Reachable Gentle (step env) s ⟨s.store, s.procs ++ [r.toProc]⟩ :=
  Reachable.refl.next (a := .spawn r) ⟨trivial, hr, trivial⟩ rfl

theorem exists_later (now t : Time) : ∃ n : ℕ, t < now + n := by
  refine ⟨(t - now).toNat + 1, ?_⟩
  have hle : t - now ≤ (t - now).toNat := Int.self_le_toNat _
  push_cast
  linarith

theorem getElem?_set_self {procs : List Proc} {p p' : Proc} (h : procs[pid]? = some p) :
    (procs.set pid p')[pid]? = some p' :=
  List.getElem?_set_self (List.getElem?_eq_some_iff.mp h).1

/-- A process makes its next call. -/
theorem reachable_call (env : Env) {op : Op Proc} (ch : Choice) {x : op.call.Ret} (hp : s.procs[pid]? = some p)
    (hop : p.next env pid = some op) (hf : ch.fault = .none) (hx : op.call.run env ch s.store = some (st', x)) :
    Reachable Gentle (step env) s ⟨st', s.procs.set pid (op.resume (.ok x))⟩ := by
  have hok (s : State) : Gentle s (.tick 0) ∧ Gentle s (.run pid ch) :=
    ⟨⟨trivial, trivial, trivial⟩, hf, trivial, trivial⟩
  have hstep : Solo.step env pid (s.store, p) ⟨0, ch⟩ = some (st', op.resume (.ok x)) := by
    unfold Solo.step Op.exec
    simp only [hop, Option.bind_eq_bind, Option.bind_some, Store.wait_zero]
    rw [show (if op.call.isLocal then Fault.none else ch.fault) = .none by rw [hf]; split <;> rfl, hx]
    rfl
  exact Solo.reachable_of_step hp hok hstep

/-- A process comes to a stop by itself. -/
theorem exists_reachable_of_eventually {stop : Store × Proc → Prop} {ok : Store × Proc → Turn → Prop}
    {Q : List ((Store × Proc) × Turn) → Store × Proc → Prop} (hp : s.procs[pid]? = some p)
    (hok : ∀ x m, ok x m → m.choice.fault = .none)
    (h : Eventually stop ok (Solo.step env pid) (s.store, p) Q) :
    ∃ s' p', Reachable Gentle (step env) s s' ∧ s'.procs[pid]? = some p' ∧ stop (s'.store, p') ∧
      ∃ tr, (∀ y ∈ tr, ok y.1 y.2) ∧ Q tr (s'.store, p') := by
  obtain ⟨tr, x, hrun, hstop, hq⟩ := h.exists_run
  refine ⟨⟨x.1, s.procs.set pid x.2⟩, x.2, ?_, getElem?_set_self hp, hstop, tr,
    fun y hy => (hrun.of_mem y hy).1.2, hq⟩
  refine Solo.reachable_of_run hp (fun x m hm s => ?_) hrun
  exact ⟨⟨trivial, trivial, trivial⟩, hok x m hm.2, trivial, trivial⟩

/-- A request is made, or a process started, and comes to a stop by itself. -/
theorem exists_reachable_of_spawn {stop : Store × Proc → Prop} {ok : Store × Proc → Turn → Prop}
    {Q : List ((Store × Proc) × Turn) → Store × Proc → Prop} {r : Request} (hr : NoCancel (.spawn r))
    (hok : ∀ x m, ok x m → m.choice.fault = .none)
    (h : Eventually stop ok (Solo.step env s.procs.length) (s.store, r.toProc) Q) :
    ∃ s' p', Reachable Gentle (step env) s s' ∧ s'.procs[s.procs.length]? = some p' ∧ stop (s'.store, p') ∧
      ∃ tr, (∀ y ∈ tr, ok y.1 y.2) ∧ Q tr (s'.store, p') := by
  have hp : (s.procs ++ [r.toProc])[s.procs.length]? = some r.toProc := by simp
  obtain ⟨s', p', hs', hrest⟩ := exists_reachable_of_eventually (s := ⟨s.store, s.procs ++ [r.toProc]⟩) hp hok h
  exact ⟨s', p', (reachable_spawn s hr).trans hs', hrest⟩

/-- No call raises, and every handler returns. -/
def Smooth (_ : Store × Proc) (m : Turn) : Prop := m.choice.fault = .none ∧ m.choice.outcome = .ok .null

/-- A worker takes the id from a ready list. -/
theorem salvageable_of_waiting (hj : ∃ q, j ∈ s.store.redis.lists q) (hr : s.store.db.job? j = some r)
    (hclaim : r.claimable = true) : s.Salvageable env j := by
  have hdrains : DrainsLists env s.procs.length Smooth s.store {} _ :=
    drainsLists_of (fun _ _ h => staying_of_returned h.1 h.2)
      (fun _ => ⟨.ok .null, default, fun _ hf ho _ => ⟨hf, ho⟩⟩) _ _ rfl rfl
  obtain ⟨s', p', hs', _, _, tr, hsmooth, hdone⟩ :=
    exists_reachable_of_spawn (r := .worker) trivial (fun _ _ h => h.1) hdrains
  refine ⟨s', hs', (hdone j r (Redis.mem_waiting.mpr hj) hr hclaim).2 fun y hy _ _ _ _ _ => ?_⟩
  exact ⟨_, (hsmooth y hy).2⟩

/-! A pass of a reaper. -/

theorem Redis.lists_of_pushed {xs : List (Queue × Uuid)} {rd rd' : Redis} {q : Queue}
    (h : Redis.Pushed xs rd rd')
    (hx : (q, j) ∈ xs) : ∃ q, j ∈ rd'.lists q := by
  refine ⟨q, (h q).mem_iff.mpr (List.mem_append_left _ ?_)⟩
  simpa using hx

/-- The job is held past the visibility timeout, or due for a retry. -/
def Job.Overdue (env : Env) (r : Job) (now : Time) : Prop :=
  (r.status = .running ∧ r.lockedAt.any (· < now - seconds env.visibilityTimeoutSec) = true) ∨
      r.dueRetry now = true

/-- A pass makes it `PENDING`, with its id in `queue:default`. -/
theorem Database.job?_of_overdue {db : Database} {now : Time} (hr : db.job? j = some r)
    (ho : r.Overdue env now) :
    ((db.reclaimed env now).reclaimDueRetryJobs now).1.job? j = some (r.release.touch now) ∧
      (Queue.default, j) ∈ ((db.reclaimed env now).dueRows now ++ db.staleRows env now).map Job.toSource := by
  have hid : r.id = j := id_of_job? hr
  have hmem : r ∈ db.jobs.rows := mem_of_job? hr
  have hexpired : (db.expired env now).job? j = some r := hr
  have hstale : (db.reclaimed env now).job? j = some
      (if (db.expired env now).stale now env.visibilityTimeoutSec r then r.release.touch now else r) :=
    (job?_updateJobs (f := Job.release) fun _ => rfl).trans (congrArg (Option.map _) hexpired)
  have hdue' (r' : Job) (hr' : (db.reclaimed env now).job? j = some r') :
      ((db.reclaimed env now).reclaimDueRetryJobs now).1.job? j =
        some (if r'.dueRetry now then r'.release.touch now else r') :=
    (job?_updateJobs (f := Job.release) fun _ => rfl).trans (congrArg (Option.map _) hr')
  rw [hdue' _ hstale, List.mem_map]
  rcases ho with ⟨hrunning, hlocked⟩ | hdue
  · have htaken : (db.expired env now).stale now env.visibilityTimeoutSec r = true := by
      simp [stale, hrunning, hlocked]
    refine ⟨by simp [htaken, Job.dueRetry, Job.release, Job.touch], r, List.mem_append_right _ ?_, ?_⟩
    · exact List.mem_filter.mpr ⟨hmem, htaken⟩
    · rw [Job.toSource, hid]
  · have hkept : (db.expired env now).stale now env.visibilityTimeoutSec r = false := by
      simp [stale, Job.retrying_of_dueRetry hdue]
    refine ⟨by simp [hkept, hdue], r, List.mem_append_left _ (mem_dueRows_reclaimed.mpr ?_), ?_⟩
    · exact List.mem_filter.mpr ⟨hmem, hdue⟩
    · rw [Job.toSource, hid]

theorem salvageable_of_overdue (hr : s.store.db.job? j = some r) (ho : r.Overdue env s.store.clock) :
    s.Salvageable env j := by
  let reaper : Reaper :=
    { visibilityTimeoutSec := env.visibilityTimeoutSec, heartbeatTimeoutSec := env.workerTimeoutSec }
  let s₁ : State := ⟨s.store, s.procs ++ [.reaper reaper]⟩
  let s₂ : State := ⟨s.store, s₁.procs.set s.procs.length (Pass.runOnce reaper).start⟩
  have hspawn : Reachable Gentle (step env) s s₁ :=
    reachable_spawn s (r := .reaper env.visibilityTimeoutSec env.workerTimeoutSec) trivial
  have hnew : s₁.procs[s.procs.length]? = some (.reaper reaper) := by simp [s₁]
  have hloop : Reachable Gentle (step env) s₁ s₂ := reachable_call env {} hnew rfl rfl rfl
  have hpass : s₂.procs[s.procs.length]? = some (Pass.runOnce reaper).start :=
    getElem?_set_self hnew
  obtain ⟨s₃, p', hs₃, _, _, _, _, hdb, hpushed, _⟩ := exists_reachable_of_eventually hpass (fun _ _ h => h.2)
    (Reaper.passEnds_runOnce (p := reaper) rfl rfl)
  obtain ⟨hrow, hid⟩ := Database.job?_of_overdue hr ho
  refine .of_reachable ((hspawn.trans hloop).trans hs₃) ?_
  exact salvageable_of_waiting (Redis.lists_of_pushed hpushed hid) (hdb ▸ hrow) rfl

/-- A job that has been locked or is to be retried becomes overdue some time. -/
theorem salvageable_of_taken (hr : s.store.db.job? j = some r)
    (hs : r.status = .running ∧ r.lockedAt.isSome = true ∨ r.status = .retrying ∧ r.nextRetryAt.isSome = true) :
    s.Salvageable env j := by
  have hwait (n : ℕ) (ho : r.Overdue env (s.store.clock + n)) : s.Salvageable env j :=
    .of_reachable (reachable_tick s n) (salvageable_of_overdue (s := ⟨s.store.wait n, s.procs⟩) hr ho)
  rcases hs with ⟨hs, hat⟩ | ⟨hs, hat⟩
  · obtain ⟨t, ht⟩ := Option.isSome_iff_exists.mp hat
    obtain ⟨n, hn⟩ := exists_later s.store.clock (t + seconds env.visibilityTimeoutSec)
    refine hwait n (.inl ⟨hs, ?_⟩)
    rw [ht, Option.any_some, decide_eq_true_eq]
    linarith
  · obtain ⟨t, ht⟩ := Option.isSome_iff_exists.mp hat
    obtain ⟨n, hn⟩ := exists_later s.store.clock t
    refine hwait n (.inr ?_)
    simp [Job.dueRetry, hs, ht, hn.le]

/-! A scheduler, from its start. -/

/-- The first turn of the loop moves what is due. -/
theorem salvageable_of_due {p : Scheduler} {t : Time} (hp : s.procs[pid]? = some (.scheduler p))
    (hpc : p.pc = .loop)
    (hrun : p.running = true) (hr : s.store.db.job? j = some r) (hs : r.status = .pending)
    (hj : (j, t) ∈ s.store.redis.scheduled.entries) (ht : t ≤ s.store.clock) : s.Salvageable env j := by
  obtain ⟨pc, running, last⟩ := p
  obtain rfl : pc = .loop := hpc
  obtain rfl : running = true := hrun
  let s₁ : State := ⟨s.store, s.procs.set pid (.scheduler ⟨.promoteNow, true, last⟩)⟩
  let s₂ : State := ⟨s.store, s₁.procs.set pid (.scheduler ⟨.promote s.store.clock, true, last⟩)⟩
  have hloop : Reachable Gentle (step env) s s₁ := reachable_call env {} hp rfl rfl rfl
  have hnow : Reachable Gentle (step env) s₁ s₂ :=
    reachable_call env {} (s := s₁) (p := .scheduler ⟨.promoteNow, true, last⟩)
      (getElem?_set_self hp) rfl rfl rfl
  have hpromote := reachable_call env (s := s₂) {} (getElem?_set_self (getElem?_set_self hp))
    rfl rfl rfl
  have hmem : j ∈ (s.store.redis.promoteScheduled .default s.store.clock).1.lists .default := by
    rw [Redis.lists_promoteScheduled, Function.update_self]
    exact List.mem_append_left _ (List.mem_reverse.mpr (SortedSet.mem_rangeTo.mpr ⟨t, ht, hj⟩))
  refine .of_reachable ((hloop.trans hnow).trans hpromote) ?_
  exact salvageable_of_waiting ⟨.default, hmem⟩ hr (by simp [Job.claimable, hs])

theorem salvageable_of_scheduled (hr : s.store.db.job? j = some r) (hs : r.status = .pending)
    (hj : j ∈ s.store.redis.scheduled.members ∨ r.scheduledFor.isSome = true) : s.Salvageable env j := by
  obtain ⟨s₁, p', hs₁, hp', _, _, _, js, hjs, hloop, hdb, hredis, _⟩ :=
    exists_reachable_of_spawn (r := .scheduler) trivial (fun _ _ h => h)
      (Scheduler.syncEnds env s.procs.length s.store {})
  obtain ⟨t, ht⟩ : ∃ t, (j, t) ∈ s₁.store.redis.scheduled.entries := by
    rw [hredis]
    simp only [Scheduler.mem_scheduled_syncFromDb hjs]
    cases hfor : r.scheduledFor with
    | some t => exact ⟨t, .inl ⟨r, Database.mem_of_job? hr, Database.id_of_job? hr, hs, hfor⟩⟩
    | none =>
      obtain ⟨t, ht⟩ := SortedSet.mem_members.mp (hj.resolve_right (by simp [hfor]))
      refine ⟨t, .inr ⟨ht, fun x hx t' hawaits hid => ?_⟩⟩
      have hx' : s.store.db.job? j = some x := (Table.find?_eq_some _).mpr ⟨hx, hid⟩
      cases hr.symm.trans hx'
      cases hfor.symm.trans hawaits.2
  obtain ⟨n, hn⟩ := exists_later s₁.store.clock t
  refine .of_reachable (hs₁.trans (reachable_tick s₁ n)) ?_
  obtain rfl : p' = .scheduler (({} : Scheduler).at' .loop) := hloop
  have hr' : s₁.store.db.job? j = some r := by
    rw [show s₁.store.db = s.store.db from hdb, hr]
  exact salvageable_of_due (s := ⟨s₁.store.wait n, s₁.procs⟩) hp' rfl rfl hr' hs ht hn.le

/-! A dead letter, which a request replays. -/

/-- A replay that has found a dead letter of the job makes it `PENDING` and pushes its id. -/
theorem salvageable_of_replaying {d : Uuid} (hp : s.procs[pid]? = some (.replay (.write d j)))
    (hr : s.store.db.job? j = some r) : s.Salvageable env j := by
  let st : Store := { s.store with db := s.store.db.replayWrite s.store.clock d j }
  let s₁ : State := ⟨st, s.procs.set pid (.replay (.push j))⟩
  have hwrite : Reachable Gentle (step env) s s₁ := reachable_call env {} hp rfl rfl rfl
  have hpush := reachable_call env {} (s := s₁) (p := .replay (.push j)) (getElem?_set_self hp) rfl rfl rfl
  have hid : r.id = j := Database.id_of_job? hr
  have hr' : st.db.job? j = some (r.reset.touch s.store.clock) :=
    (Database.job?_updateJobs (f := Job.reset) fun _ => rfl).trans (by simp [hr, hid])
  refine .of_reachable (hwrite.trans hpush) (salvageable_of_waiting ⟨Queue.ofPriority 0, ?_⟩ hr' rfl)
  exact List.mem_cons_self

theorem salvageable_of_letter (hl : 0 < s.store.db.deadLetterCount j) (hr : s.store.db.job? j = some r) :
    s.Salvageable env j := by
  obtain ⟨d, hd, rfl⟩ := List.mem_map.mp (List.count_pos_iff.mp hl)
  -- the query can return this letter first
  obtain ⟨ds, ds', hds⟩ : ∃ ds ds', s.store.db.replaySelect d.id = ds ++ d :: ds' :=
    List.append_of_mem (List.mem_filter.mpr ⟨hd, by simp⟩)
  have hfirst : Table.inOrder DeadLetter.id ((d :: (ds ++ ds')).map DeadLetter.id)
      (s.store.db.replaySelect d.id) = d :: (ds ++ ds') :=
    Table.inOrder_map (hds ▸ List.perm_middle.symm) (s.store.db.deadLetters.nodup_select _)
  let ch : Choice := { order := (d :: (ds ++ ds')).map DeadLetter.id }
  have hrun : Call.run env ch s.store (.replaySelect d.id) = some (s.store, some d) := by
    rw [Call.run, hfirst]
    rfl
  let s₁ : State := ⟨s.store, s.procs ++ [.replay (.select d.id)]⟩
  have hp : s₁.procs[s.procs.length]? = some (.replay (.select d.id)) := by simp [s₁]
  have hspawn : Reachable Gentle (step env) s s₁ := reachable_spawn s (r := .replay d.id) trivial
  have hselect := reachable_call env ch hp rfl rfl hrun
  refine .of_reachable (hspawn.trans hselect) ?_
  exact salvageable_of_replaying (s := ⟨s.store, _⟩) (getElem?_set_self hp) hr

/-! What a worker still has to write. -/

section
variable {job : LockedJob} {e : String} {v : Json} {t : Time} {running : Bool} {n : ℕ}

theorem salvageable_of_markSuccess (hp : s.procs[pid]? = some (.worker ⟨.markSuccess job v, running, n⟩))
    (hr : s.store.db.job? job.id = some r) : s.Salvageable env job.id := by
  have hrun : Call.run env {} s.store (.markJobSuccess job.id v) = some (_, ()) := rfl
  have hrow := Call.run_job?_of_update hrun hr rfl (by simpa using Database.id_of_job? hr)
  exact ⟨_, reachable_call env {} hp rfl rfl hrun, Database.status?_of_job? hrow⟩

theorem salvageable_of_handler (hp : s.procs[pid]? = some (.worker ⟨.handler job, running, n⟩))
    (hr : s.store.db.job? job.id = some r) : s.Salvageable env job.id := by
  have hcall := reachable_call env { outcome := .ok .null } hp rfl rfl rfl
  exact .of_reachable hcall (salvageable_of_markSuccess (getElem?_set_self hp) hr)

theorem salvageable_of_emitRunning (hp : s.procs[pid]? = some (.worker ⟨.emitRunning job, running, n⟩))
    (hr : s.store.db.job? job.id = some r) : s.Salvageable env job.id := by
  have hcall := reachable_call env {} hp rfl rfl rfl
  exact .of_reachable hcall (salvageable_of_handler (getElem?_set_self hp) hr)

theorem salvageable_of_markRetrying (hp : s.procs[pid]? = some (.worker ⟨.markRetrying job e t, running, n⟩))
    (hr : s.store.db.job? job.id = some r) : s.Salvageable env job.id := by
  have hrun : Call.run env {} s.store (.markJobRetrying job.id e t) = some (_, ()) := rfl
  have hrow := Call.run_job?_of_update hrun hr rfl (by simpa using Database.id_of_job? hr)
  have hcall := reachable_call env {} hp rfl rfl hrun
  exact .of_reachable hcall (salvageable_of_taken hrow (.inr ⟨rfl, rfl⟩))

theorem salvageable_of_computeRetry (hp : s.procs[pid]? = some (.worker ⟨.computeRetry job e, running, n⟩))
    (hb : (Retry.number? (Worker.baseDelay job.payload)).isSome = true)
    (hr : s.store.db.job? job.id = some r) : s.Salvageable env job.id := by
  obtain ⟨b, hb⟩ := Option.isSome_iff_exists.mp hb
  -- whatever the delay is, some time it ends after `datetime.min`
  let delay := Retry.roundHalfEven (Retry.computeBackoffDelay job.attempts b 300 true default * 1000000)
  obtain ⟨m, hm⟩ := exists_later s.store.clock (Retry.datetimeMin - delay)
  let st : Store := s.store.wait m
  have hrun : Call.run env {} st (.computeNextRetryAt job.attempts (Worker.baseDelay job.payload)) =
      some (st, some (st.clock + delay)) := by
    have hmin : Retry.datetimeMin ≤ st.clock + delay := by
      show Retry.datetimeMin ≤ s.store.clock + m + delay
      linarith
    simp only [Call.run, Retry.computeNextRetryAt, hb, Option.bind_eq_bind, Option.bind_some]
    rw [if_pos hmin]
  have hcall := reachable_call env {} (s := ⟨st, s.procs⟩) hp rfl rfl hrun
  refine .of_reachable ((reachable_tick s m).trans hcall) ?_
  exact salvageable_of_markRetrying (s := ⟨st, _⟩) (getElem?_set_self hp) hr

theorem salvageable_of_bury (hp : s.procs[pid]? = some (.worker ⟨.moveToDeadLetter job e, running, n⟩))
    (hr : s.store.db.job? job.id = some r) : s.Salvageable env job.id := by
  obtain ⟨id, hid⟩ := Call.exists_run env (.moveToDeadLetter job.id e job.attempts) s.store
  obtain ⟨⟨st, x⟩, hrun⟩ := hid { freshId := id } rfl
  have hletters := Call.run_letters hrun
  have hpos : 0 < st.db.deadLetterCount job.id := by
    rw [Database.deadLetterCount, hletters]
    simp [Call.letters]
  exact .of_reachable (reachable_call env _ hp rfl rfl hrun)
    (salvageable_of_letter hpos (Call.run_job? hrun hr))

end

/-- The job of which the worker may still write the outcome; a base delay that is no number ends its retry. -/
def Worker.Pc.settles? : Pc → Option LockedJob
  | computeRetry job _ => if (Retry.number? (baseDelay job.payload)).isSome then some job else none
  | pc => pc.attempt?

/-- The calls that are left to the outcome. -/
theorem salvageable_of_settles {w : Worker} {job : LockedJob} (hp : s.procs[pid]? = some (.worker w))
    (hw : w.pc.settles? = some job) (hr : s.store.db.job? job.id = some r) : s.Salvageable env job.id := by
  obtain ⟨pc, running, n⟩ := w
  cases pc with
  | emitRunning job' =>
    cases hw
    exact salvageable_of_emitRunning hp hr
  | handler job' =>
    cases hw
    exact salvageable_of_handler hp hr
  | markSuccess job' v =>
    cases hw
    exact salvageable_of_markSuccess hp hr
  | computeRetry job' e =>
    simp only [Worker.Pc.settles?, Option.ite_none_right_eq_some, Option.some.injEq] at hw
    obtain ⟨hb, rfl⟩ := hw
    exact salvageable_of_computeRetry hp hb hr
  | markRetrying job' e t =>
    cases hw
    exact salvageable_of_markRetrying hp hr
  | moveToDeadLetter job' e =>
    cases hw
    exact salvageable_of_bury hp hr
  | _ => cases hw

/-! What a process has in hand. -/

theorem Redis.mem_lpush {r : Redis} {q : Queue} : j ∈ (r.lpush q j).lists q := by
  simp [lpush, setList]

theorem Redis.mem_rpush {r : Redis} {q : Queue} : j ∈ (r.rpush q j).lists q := by
  simp [rpush, setList]

theorem salvageable_of_copy (hr : s.store.db.job? j = some r) (hs : r.status = .pending)
    (hj : (∃ q, j ∈ s.store.redis.lists q) ∨ j ∈ s.store.redis.scheduled.members) : s.Salvageable env j := by
  rcases hj with hj | hj
  · exact salvageable_of_waiting hj hr (by simp [Job.claimable, hs])
  · exact salvageable_of_scheduled hr hs (.inl hj)

/-- A loop that puts the ids of its batch back one by one comes to each of them. -/
theorem salvageable_of_loop {α : Type} (loop : List α → Proc) (id : α → Uuid)
    (hloop : ∀ (s : State) y ys, s.procs[pid]? = some (loop (y :: ys)) →
        ∃ s', Reachable Gentle (step env) s s' ∧
      s'.procs[pid]? = some (loop ys) ∧ s'.store.db = s.store.db ∧
      ((∃ q, id y ∈ s'.store.redis.lists q) ∨ id y ∈ s'.store.redis.scheduled.members))
    {ys : List α} (hp : s.procs[pid]? = some (loop ys)) (hj : j ∈ ys.map id) (hr : s.store.db.job? j = some r)
    (hs : r.status = .pending) : s.Salvageable env j := by
  induction ys generalizing s with
  | nil => cases hj
  | cons y ys ih =>
    obtain ⟨s', hs', hp', hdb, hy⟩ := hloop s y ys hp
    have hr' : s'.store.db.job? j = some r := hdb ▸ hr
    refine .of_reachable hs' ?_
    rcases List.mem_cons.mp hj with rfl | hj
    · exact salvageable_of_copy hr' hs hy
    · exact ih hp' hj hr'

theorem salvageable_of_fetchAndLock {running : Bool} {n : ℕ}
    (hp : s.procs[pid]? = some (.worker ⟨.fetchAndLock j, running, n⟩)) (hr : s.store.db.job? j = some r)
    (hs : r.status = .pending) : s.Salvageable env j := by
  have hrun : Call.run env {} s.store (.fetchAndLockJob j pid) = some (_, _) := rfl
  have hrow := Call.run_job?_of_update hrun hr rfl (by simp [Database.id_of_job? hr, Job.claimable, hs])
  exact .of_reachable (reachable_call env {} hp rfl rfl hrun) (salvageable_of_taken hrow (.inl ⟨rfl, rfl⟩))

theorem Worker.salvageable_of_hand {w : Worker} {x : Token} (hp : s.procs[pid]? = some (.worker w))
    (hx : x ∈ w.pc.hand) (hr : s.store.db.job? x.job = some r) (hs : r.status = .pending) :
    s.Salvageable env x.job := by
  obtain ⟨pc, running, n⟩ := w
  cases pc with
  | lpushProcessing i =>
    obtain rfl := List.mem_singleton.mp hx
    have hcall := reachable_call env {} hp rfl rfl rfl
    exact .of_reachable hcall (salvageable_of_fetchAndLock (getElem?_set_self hp) hr hs)
  | fetchAndLock i =>
    obtain rfl := List.mem_singleton.mp hx
    exact salvageable_of_fetchAndLock hp hr hs
  | zaddNext job i t =>
    obtain rfl := List.mem_singleton.mp hx
    refine .of_reachable (reachable_call env {} hp rfl rfl rfl) (salvageable_of_scheduled hr hs (.inl ?_))
    exact SortedSet.mem_members_add.mpr (.inl rfl)
  | _ => cases hx

theorem Submit.salvageable_of_hand {pc : Pc} {x : Token} (hp : s.procs[pid]? = some (.submit pc))
    (hx : x ∈ pc.hand) (hr : s.store.db.job? x.job = some r) (hs : r.status = .pending) :
    s.Salvageable env x.job := by
  cases pc with
  | push req i =>
    obtain rfl := List.mem_singleton.mp hx
    obtain ⟨type, payload, priority, maxAttempts, scheduledFor, rule, _, _, _⟩ := req
    cases scheduledFor with
    | none =>
      refine .of_reachable (reachable_call env {} hp rfl rfl rfl) ?_
      exact salvageable_of_copy hr hs (.inl ⟨Queue.ofPriority priority, Redis.mem_lpush⟩)
    | some t =>
      refine .of_reachable (reachable_call env {} hp rfl rfl rfl) (salvageable_of_scheduled hr hs (.inl ?_))
      exact SortedSet.mem_members_add.mpr (.inl rfl)
  | _ => cases hx

theorem Scheduler.salvageable_of_hand {p : Scheduler} {x : Token} (hp : s.procs[pid]? = some (.scheduler p))
    (hx : x ∈ p.pc.hand) (hr : s.store.db.job? x.job = some r) (hs : r.status = .pending) :
    s.Salvageable env x.job := by
  obtain ⟨pc, running, last⟩ := p
  let at' (pc : Pc) : Proc := .scheduler ⟨pc, running, last⟩
  cases pc with
  | sync y ys =>
    have hj : x.job ∈ (y :: ys).map ScheduledJob.id := by
      obtain ⟨z, hz, rfl⟩ := List.mem_map.mp hx
      exact List.mem_map_of_mem hz
    refine salvageable_of_loop (fun ys => at' (syncLoop ys)) ScheduledJob.id (fun s y ys hp => ?_) hp hj hr hs
    refine ⟨_, reachable_call env {} hp rfl rfl rfl, getElem?_set_self hp, rfl, .inr ?_⟩
    exact SortedSet.mem_members_add.mpr (.inl rfl)
  | pushRetries y ys =>
    have hj : x.job ∈ (y :: ys).map DueRetry.id := by
      obtain ⟨z, hz, rfl⟩ := List.mem_map.mp hx
      exact List.mem_map_of_mem hz
    refine salvageable_of_loop (fun ys => at' (retryLoop ys)) DueRetry.id (fun s y ys hp => ?_) hp hj hr hs
    exact ⟨_, reachable_call env {} hp rfl rfl rfl, getElem?_set_self hp, rfl, .inl ⟨_, Redis.mem_lpush⟩⟩
  | pushStale y ys =>
    have hj : x.job ∈ (y :: ys).map StaleJob.id := by
      obtain ⟨z, hz, rfl⟩ := List.mem_map.mp hx
      exact List.mem_map_of_mem hz
    refine salvageable_of_loop (fun ys => at' (staleLoop ys)) StaleJob.id (fun s y ys hp => ?_) hp hj hr hs
    exact ⟨_, reachable_call env {} hp rfl rfl rfl, getElem?_set_self hp, rfl, .inl ⟨_, Redis.mem_lpush⟩⟩
  | _ => cases hx

/-- The second call for a stale job. -/
theorem Reaper.exists_requeued (env : Env) {p : Reaper} {y : StaleJob} {ys : List StaleJob}
    (hp : s.procs[pid]? = some (.reaper (p.at' (.requeuePush y ys)))) : ∃ s', Reachable Gentle (step env) s s' ∧
      s'.procs[pid]? = some (.reaper (p.at' (staleLoop ys))) ∧ s'.store.db = s.store.db ∧
      ((∃ q, y.id ∈ s'.store.redis.lists q) ∨ y.id ∈ s'.store.redis.scheduled.members) :=
  ⟨_, reachable_call env {} hp rfl rfl rfl, getElem?_set_self hp, rfl, .inl ⟨_, Redis.mem_rpush⟩⟩

theorem Reaper.salvageable_of_staleLoop {p : Reaper} {ys : List StaleJob}
    (hp : s.procs[pid]? = some (.reaper (p.at' (staleLoop ys)))) (hj : j ∈ ys.map StaleJob.id)
    (hr : s.store.db.job? j = some r) (hs : r.status = .pending) : s.Salvageable env j := by
  refine salvageable_of_loop (fun ys => .reaper (p.at' (staleLoop ys))) StaleJob.id
    (fun s y ys hp => ?_) hp hj hr hs
  have hrem := reachable_call env {} hp rfl rfl rfl
  obtain ⟨s', hs', hrest⟩ := exists_requeued env (p := p) (s := ⟨_, _⟩) (getElem?_set_self hp)
  exact ⟨s', hrem.trans hs', hrest⟩

theorem Reaper.salvageable_of_hand {p : Reaper} {x : Token} (hp : s.procs[pid]? = some (.reaper p))
    (hx : x ∈ p.pc.hand) (hr : s.store.db.job? x.job = some r) (hs : r.status = .pending) :
    s.Salvageable env x.job := by
  obtain ⟨v, h, pc, running⟩ := p
  let p : Reaper := ⟨v, h, .loop, running⟩
  cases pc with
  | requeueRem y ys =>
    have hj : x.job ∈ (y :: ys).map StaleJob.id := by
      obtain ⟨z, hz, rfl⟩ := List.mem_map.mp hx
      exact List.mem_map_of_mem hz
    exact salvageable_of_staleLoop (p := p) hp hj hr hs
  | requeuePush y ys =>
    have hj : x.job ∈ (y :: ys).map StaleJob.id := by
      obtain ⟨z, hz, rfl⟩ := List.mem_map.mp hx
      exact List.mem_map_of_mem hz
    obtain ⟨s', hs', hp', hdb, hy⟩ := exists_requeued env (p := p) hp
    have hr' : s'.store.db.job? x.job = some r := hdb ▸ hr
    refine .of_reachable hs' ?_
    rcases List.mem_cons.mp hj with hj | hj
    · exact salvageable_of_copy hr' hs (hj ▸ hy)
    · exact salvageable_of_staleLoop hp' hj hr' hs
  | pushRetries y ys =>
    have hj : x.job ∈ (y :: ys).map DueRetry.id := by
      obtain ⟨z, hz, rfl⟩ := List.mem_map.mp hx
      exact List.mem_map_of_mem hz
    refine salvageable_of_loop (fun ys => .reaper (p.at' (retryLoop ys))) DueRetry.id
      (fun s y ys hp => ?_) hp hj hr hs
    exact ⟨_, reachable_call env {} hp rfl rfl rfl, getElem?_set_self hp, rfl, .inl ⟨_, Redis.mem_lpush⟩⟩
  | _ => cases hx

/-- A `PENDING` job is salvageable if its id is anywhere. -/
theorem salvageable_of_reaches (hj : s.Reaches j) (hr : s.store.db.job? j = some r) (hs : r.status = .pending) :
    s.Salvageable env j := by
  rcases hj with hj | hj | ⟨p, hp, x, hx, rfl⟩
  · exact salvageable_of_copy hr hs (.inl hj)
  · exact salvageable_of_copy hr hs (.inr hj)
  obtain ⟨pid, hp⟩ := List.mem_iff_getElem?.mp hp
  cases p with
  | worker w => exact Worker.salvageable_of_hand hp hx hr hs
  | submit pc => exact Submit.salvageable_of_hand hp hx hr hs
  | replay pc =>
    cases pc with
    | push i =>
      obtain rfl := List.mem_singleton.mp hx
      refine .of_reachable (reachable_call env {} hp rfl rfl rfl) ?_
      exact salvageable_of_copy hr hs (.inl ⟨Queue.ofPriority 0, Redis.mem_lpush⟩)
    | _ => cases hx
  | scheduler p => exact Scheduler.salvageable_of_hand hp hx hr hs
  | reaper p => exact Reaper.salvageable_of_hand hp hx hr hs
  | cancel | gone => cases hx

end DistribuQ
