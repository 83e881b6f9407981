import DistribuQ.Proofs.FailureFree

/-! Exact accounts of a run without failures: the copies of an id, the workers that execute its job and
the entries of `queue:processing`. -/

namespace DistribuQ
open Transition
variable {env : Env} {s s' : State} {a : Action} {pid i : Nat} {j : Uuid}

/-- The id that a worker has put into `queue:processing` and not yet acknowledged. -/
def Worker.Pc.held? : Worker.Pc → Option Uuid
  | fetchAndLock j | ackUnlocked j => some j
  | pc => pc.job?.map LockedJob.id

namespace Worker
variable {w : WorkerId} {ch : Choice} {st st' : Store} {pc pc' : Pc} {c : Call} {job : LockedJob}

theorem held?_onFailure (e : String) : (onFailure job e).held? = some job.id :=
  onFailure_cases (P := fun pc => pc.held? = some job.id) e (fun _ => rfl) fun _ => rfl

theorem held?_afterSuccess : (afterSuccess job).held? = some job.id :=
  afterSuccess_cases (P := fun pc => pc.held? = some job.id) (fun _ => rfl) rfl

/-- A worker puts into `queue:processing` what it goes on to hold, and takes out what it no longer holds. -/
theorem processing_of_goes {x : c.Ret} (h : pc.Goes env w ch st st' c pc') (hf : ch.fault = .none)
    (hx : c.run env ch st = some (st', x)) (hmem : ∀ i, pc.held? = some i → i ∈ st.redis.processing) :
    st'.redis.processing.count j + indicator (pc.held? = some j) =
      st.redis.processing.count j + indicator (pc'.held? = some j) := by
  have untouched (hc : c.tracks = false) (hheld : pc'.held? = pc.held?) :
      st'.redis.processing.count j + indicator (pc.held? = some j) =
        st.redis.processing.count j + indicator (pc'.held? = some j) := by
    rw [Call.processing_of_run hx hc, hheld]
  have acked {i : Uuid} (hi : i ∈ st.redis.processing) :
      (st.redis.lremProcessing i).processing.count j + indicator (some i = some j) =
        st.redis.processing.count j := by
    have hperm := (List.perm_cons_erase hi).count_eq j
    rw [List.count_cons] at hperm
    simp only [Redis.lremProcessing, indicator, Option.some.injEq, beq_iff_eq] at hperm ⊢
    omega
  cases h with
  | @reserved q qs i _ hr =>
    have hprocessing := Redis.processing_rpoplpush (r := st.redis) (q := q)
    simp only [Call.run, Option.some.injEq, Prod.mk.injEq] at hr
    rw [hr.2] at hprocessing
    rw [← hr.1, hprocessing]
    simp [Pc.held?, Pc.job?, indicator, List.count_cons]
  | @empty q qs _ hr =>
    have hprocessing := Redis.processing_rpoplpush (r := st.redis) (q := q)
    simp only [Call.run, Option.some.injEq, Prod.mk.injEq] at hr
    rw [hr.2] at hprocessing
    rw [← hr.1, hprocessing]
    rfl
  | @put i =>
    cases hx
    simp [Redis.lpushProcessing, Pc.held?, Pc.job?, indicator, List.count_cons]
  | @locked i job _ hr =>
    obtain ⟨_, _, _, _, hid, _⟩ := Call.run_fetchAndLockJob_some hr
    exact untouched rfl (congrArg some hid)
  | @ackUnlocked i =>
    cases hx
    exact acked (hmem i rfl)
  | @acked job | @ackedExit job =>
    cases hx
    exact acked (hmem job.id rfl)
  | raised => exact untouched rfl (held?_onFailure _)
  | emitSuccess => exact untouched rfl held?_afterSuccess
  | pollFault hf' | popFault hf' | putFault hf' | lockFault hf' | successFault hf' | scheduleFault hf'
  | retryFault hf' | buryFault hf' => exact absurd hf hf'
  | _ => exact untouched rfl rfl

/-- A worker is in an attempt from the lock to its outcome write, where every lock attempt succeeds, every
failure finds a time for its retry and no handler ends the worker. -/
theorem attempt_of_goes (h : pc.Goes env w ch st st' c pc') (hf : ch.fault = .none) (he : ch.exits = false)
    (hl : ∀ i, c.locked? = some i → ∃ r, st.db.job? i = some r ∧ r.claimable = true)
    (hd : ∀ job e, pc = .computeRetry job e →
      Retry.computeNextRetryAt st.clock job.attempts (baseDelay job.payload) ch.draw ≠ none) :
    indicator (pc'.attempt?.map LockedJob.id = some j) + indicator (c.outcome? = some j) =
      indicator (pc.attempt?.map LockedJob.id = some j) + indicator (c.locked? = some j) := by
  cases h with
  | locked _ hr =>
    obtain ⟨_, _, _, _, hid, _⟩ := Call.run_fetchAndLockJob_some hr
    rw [Pc.attempt?, Option.map_some, hid]
    simp [Pc.attempt?, Call.outcome?, Call.locked?]
  | unlocked _ hr =>
    obtain ⟨r, hrow, hclaim⟩ := hl _ rfl
    cases hclaim.symm.trans (Call.run_fetchAndLockJob_none hr hrow)
  | raised =>
    rw [attempt?_onFailure]
    rfl
  | emitSuccess =>
    rw [attempt?_afterSuccess]
    rfl
  | succeeded | retried | buried => exact Nat.add_comm _ _
  | exits hraised => cases he.symm.trans (Choice.exits_of_raised hraised)
  | noDelay hnone => exact absurd hnone (hd _ _ rfl)
  | lockFault hf' | successFault hf' | retryFault hf' | buryFault hf' => exact absurd hf hf'
  | _ => rfl

end Worker

namespace Proc

def held? (p : Proc) : Option Uuid := p.ofPc Worker.Pc.held?

def tracking (j : Uuid) (p : Proc) : Nat := indicator (p.held? = some j)

def executing (j : Uuid) (p : Proc) : Nat := indicator (p.attempt?.map LockedJob.id = some j)

end Proc

/-- The number of workers that have put `j` into `queue:processing` and not yet acknowledged it. -/
def State.tracking (j : Uuid) (s : State) : Nat := tally (Proc.tracking j) s.procs

/-- The number of workers in an attempt at `j`. -/
def State.executing (j : Uuid) (s : State) : Nat := tally (Proc.executing j) s.procs

/-! What a call does to the status of a job goes with the copies of its id. -/

namespace Call
variable {ch : Choice} {st st' : Store} {c : Call} {r r' : Job}

theorem fresh_of_synced {xs : List ScheduledJob}
    (h : run env ch st .getPendingScheduledJobs = some (st', xs))
    (hs : st.db.jobs.rows.isEmpty = true) : xs = [] := by
  refine List.eq_nil_iff_forall_not_mem.mpr fun x hx => ?_
  obtain ⟨r, hr, _⟩ := row_of_synced h hx
  have hmem := Database.mem_of_job? hr
  rw [List.isEmpty_iff.mp hs] at hmem
  cases hmem

theorem count_fresh_kept {x : c.Ret} (h : c.run env ch st = some (st', x)) (hr : st.db.job? j = some r)
    (hk : ∀ u ∈ c.update? st, u.1 r = false) (hs : c.syncs = true → st.db.jobs.rows.isEmpty = true) :
    (c.fresh x).count j = 0 := by
  have hid := Database.id_of_job? hr
  cases c with
  | reclaimStaleJobs n =>
    rw [fresh, count_fresh_reclaimStaleJobs h, hr, Option.any_some]
    exact if_neg (Bool.eq_false_iff.mp (hk _ rfl))
  | reclaimDueRetryJobs =>
    rw [fresh, count_fresh_reclaimDueRetryJobs h, hr, Option.any_some]
    exact if_neg (Bool.eq_false_iff.mp (hk _ rfl))
  | replayWrite d i =>
    have hne : i ≠ j := by
      rintro rfl
      simpa [hid] using hk _ rfl
    rw [fresh, List.count_singleton]
    simp [hne]
  | createJob new | scheduleNextOccurrence new =>
    obtain ⟨⟨db, row⟩, hrun, heq⟩ := Option.map_eq_some_iff.mp h
    cases heq
    obtain ⟨rfl, hnone, _⟩ := Database.insertJob_eq_some hrun
    have hne : ch.freshId ≠ j := by
      rintro rfl
      rw [hr] at hnone
      cases hnone
    rw [fresh, List.count_singleton]
    simpa [NewJob.toJob] using hne
  | getPendingScheduledJobs =>
    obtain rfl := fresh_of_synced h (hs rfl)
    rfl
  | _ => rfl

theorem count_fresh_none {x : c.Ret} (h : c.run env ch st = some (st', x)) (hr : st.db.job? j = none)
    (hr' : st'.db.job? j = none) (hl : ∀ l ∈ c.replayed?, st.db.job? l.2 ≠ none)
    (hs : c.syncs = true → st.db.jobs.rows.isEmpty = true) : (c.fresh x).count j = 0 := by
  cases c with
  | reclaimStaleJobs n =>
    rw [fresh, count_fresh_reclaimStaleJobs h, hr]
    rfl
  | reclaimDueRetryJobs =>
    rw [fresh, count_fresh_reclaimDueRetryJobs h, hr]
    rfl
  | replayWrite d i =>
    have hne : i ≠ j := by
      rintro rfl
      exact hl _ rfl hr
    rw [fresh, List.count_singleton]
    simp [hne]
  | createJob new | scheduleNextOccurrence new =>
    obtain ⟨hrow, _⟩ := row_of_inserted h
    have hne : x.id ≠ j := by
      rintro rfl
      cases hr'.symm.trans hrow
    rw [fresh, List.count_singleton]
    simpa using hne
  | getPendingScheduledJobs =>
    obtain rfl := fresh_of_synced h (hs rfl)
    rfl
  | _ => rfl

end Call

/-- Where outcomes are written under the lock, only `PENDING` jobs are locked and no job is reclaimed: the
copies that a call hands out are of the jobs that become `PENDING`, and a job is `RUNNING` from its lock to
its outcome. -/
theorem status_of_run {ch : Choice} {c : Call} {x : c.Ret} (hL : s.store.db.LettersAgree)
    (hf : Fenced env s a) (hc : s.call? env a = some (pid, c))
    (hx : c.run env ch s.store = some (s'.store, x)) (hremove : c.removes = false)
    (hreclaim : ∀ n ∈ c.staleTimeout?, ∀ r ∈ s.store.db.jobs.rows,
      s.store.db.stale s.store.clock n r = false)
    (hsync : c.syncs = true → s.store.db.jobs.rows.isEmpty = true)
    (hlock : c.locked? = some j → s.store.db.status? j = some .pending) :
    indicator (s'.store.db.status? j = some .pending) + indicator (c.locked? = some j) =
        indicator (s.store.db.status? j = some .pending) + (c.fresh x).count j ∧
      indicator (s'.store.db.status? j = some .running) + indicator (c.outcome? = some j) =
        indicator (s.store.db.status? j = some .running) + indicator (c.locked? = some j) := by
  cases hr : s.store.db.job? j with
  -- a job without a row gets one by an insert or stays without
  | none =>
    have hs := Database.status?_of_job?_none hr
    have hnl : c.locked? ≠ some j := fun h => by cases hs.symm.trans (hlock h)
    have hno : c.outcome? ≠ some j := by
      intro h
      obtain ⟨_, hrow, _⟩ := (hf _ hc).1 _ h
      cases hr.symm.trans hrow
    rw [hs, indicator_neg hnl, indicator_neg hno]
    cases hr' : s'.store.db.job? j with
    | none =>
      have hs' := Database.status?_of_job?_none hr'
      rw [hs', Call.count_fresh_none hx hr hr' (job?_of_replayed hL hf hc) hsync]
      exact ⟨rfl, rfl⟩
    | some r' =>
      obtain ⟨hi, rfl⟩ := Call.run_job?_none hx hr hr'
      have hs' := Database.status?_of_job? hr'
      rw [hs']
      cases c with
      | createJob new | scheduleNextOccurrence new =>
        cases hi
        obtain ⟨_, hrow⟩ := Call.row_of_inserted hx
        rw [Call.fresh, hrow]
        simp [NewJob.toJob]
      | _ => cases hi
  -- a job with a row: one case for each guarded write
  | some r =>
    obtain ⟨r', hr', hg⟩ := exists_guarded hL hf hc hx hr
    have hid := Database.id_of_job? hr
    have hs := Database.status?_of_job? hr
    have hs' := Database.status?_of_job? hr'
    subst hid
    rw [hs, Option.some.injEq] at hlock
    rw [hs, hs']
    simp only [Option.some.injEq]
    cases hg with
    | kept hk =>
      have hnl : c.locked? ≠ some r.id := by
        intro hl
        have hp := hlock hl
        cases c <;> cases hl
        simpa [Job.claimable, hp] using hk _ rfl
      have hno : c.outcome? ≠ some r.id := by
        intro ho
        cases c <;> cases ho <;> simpa using hk _ rfl
      rw [indicator_neg hnl, indicator_neg hno, Call.count_fresh_kept hx hr hk hsync]
      exact ⟨rfl, rfl⟩
    | lock => simp [hlock rfl, Job.lock, Job.touch, Call.locked?, Call.fresh, Call.outcome?]
    | succeed v hrun => simp [hrun, Job.succeed, Job.touch, Call.locked?, Call.fresh, Call.outcome?]
    | retry e t hrun => simp [hrun, Job.retry, Job.touch, Call.locked?, Call.fresh, Call.outcome?]
    | bury e n hrun => simp [hrun, Job.bury, Job.touch, Call.locked?, Call.fresh, Call.outcome?]
    | release n _ hstale => cases (hreclaim n rfl r (Database.mem_of_job? hr)).symm.trans hstale
    | promote hretry hdue =>
      have hfresh := Call.count_fresh_reclaimDueRetryJobs (j := r.id) hx
      rw [hr, Option.any_some, if_pos hdue] at hfresh
      simp [hretry, Job.release, Job.touch, Call.locked?, Call.fresh, Call.outcome?, hfresh]
    | cancel => cases hremove
    | reset d hdead => simp [hdead, Job.reset, Job.touch, Call.locked?, Call.fresh, Call.outcome?]

section
variable {ch : Choice} {st st' : Store} {p p' : Proc} {op : Op Proc}

theorem executing_of_run (hop : p.next env pid = some op) (he : op.Ends env ch st st' p')
    (hf : ch.fault = .none) (hstays : ch.exits = false)
    (hl : ∀ i, op.call.locked? = some i → ∃ r, st.db.job? i = some r ∧ r.claimable = true)
    (hd : ∀ w job e, p = .worker w → w.pc = .computeRetry job e →
      Retry.computeNextRetryAt st.clock job.attempts (Worker.baseDelay job.payload) ch.draw ≠ none) :
    p'.executing j + indicator (op.call.outcome? = some j) =
      p.executing j + indicator (op.call.locked? = some j) := by
  have hm := Proc.makes_of_next hop
  have idle (hno : p.attempt? = none) (hno' : p'.attempt? = none) (hw : ∀ w, p ≠ .worker w) :
      p'.executing j + indicator (op.call.outcome? = some j) =
        p.executing j + indicator (op.call.locked? = some j) := by
    have hnl : op.call.locked? ≠ some j := by
      intro hl
      obtain ⟨w, rfl, _⟩ := hm.locker hl
      exact hw w rfl
    have hnoutcome : op.call.outcome? ≠ some j := by
      intro ho
      obtain ⟨_, ha, _⟩ := hm.attempt ho
      cases hno.symm.trans ha
    rw [indicator_neg hnl, indicator_neg hnoutcome, Proc.executing, hno', Proc.executing, hno]
  cases Proc.goes_of_next hop he with
  | worker hnext heq hends =>
    have hg := Worker.goes_of_next hnext hends
    rw [heq] at hg
    exact Worker.attempt_of_goes hg hf hstays hl fun job e hpc => hd _ job e rfl hpc
  | _ =>
    refine idle rfl rfl fun w h => ?_
    cases h

theorem processing_of_run (hop : p.next env pid = some op) (he : op.Ends env ch st st' p')
    (hf : ch.fault = .none) (hr : p.requeues = false)
    (hmem : ∀ i, p.held? = some i → i ∈ st.redis.processing) :
    st'.redis.processing.count j + p.tracking j = st.redis.processing.count j + p'.tracking j := by
  obtain ⟨x, hx, _⟩ := he.of_no_fault hf
  have hm := Proc.makes_of_next hop
  have idle (hw : p.isWorker = false) (hno : p.held? = none) (hno' : p'.held? = none) :
      st'.redis.processing.count j + p.tracking j = st.redis.processing.count j + p'.tracking j := by
    have htracks : op.call.tracks = false := by
      by_contra htracks
      rw [Bool.not_eq_false] at htracks
      rcases hm.tracker htracks with h | h
      · cases hw.symm.trans h
      · cases hr.symm.trans h
    rw [Call.processing_of_run hx htracks, Proc.tracking, hno, Proc.tracking, hno']
  cases Proc.goes_of_next hop he with
  | worker hnext heq hends =>
    have hg := Worker.goes_of_next hnext hends
    rw [heq] at hg
    exact Worker.processing_of_goes hg hf hx hmem
  | _ => exact idle rfl rfl rfl

end

/-- The copies of an id, the workers that execute its job and its entries in `queue:processing`. -/
structure Accounted (s : State) : Prop where
  tokens : ∀ j, s.tokens j = indicator (s.store.db.status? j = some .pending)
  executing : ∀ j, s.executing j = indicator (s.store.db.status? j = some .running)
  tracking : ∀ j, s.store.redis.processing.count j = s.tracking j

namespace Accounted
variable {p : Proc} {op : Op Proc}

theorem pending_of_holds (hI : Accounted s) (hp : s.procs[pid]? = some p) (hj : 0 < p.holds j) :
    s.store.db.status? j = some .pending := by
  by_contra hne
  have htokens := hI.tokens j
  rw [indicator_neg hne, State.tokens] at htokens
  have hle := le_tally (f := Proc.holds j) hp
  omega

theorem pending_of_locked (hI : Accounted s) (hp : s.procs[pid]? = some p) (hop : p.next env pid = some op)
    (hl : op.call.locked? = some j) : s.store.db.status? j = some .pending := by
  have htoken : op.call.token? = some (.lock j) := by
    revert hl
    generalize op.call = c
    cases c <;> rintro ⟨⟩
    rfl
  exact hI.pending_of_holds hp (Proc.holds_pos.mpr ⟨_, mem_hand_of_next hop htoken, rfl⟩)

theorem not_mem_of_zadded (hI : Accounted s) (hp : s.procs[pid]? = some p) (hop : p.next env pid = some op)
    (hz : op.call.zadded? = some j) : j ∉ s.store.redis.scheduled.members := by
  intro hmem
  have htoken : ∃ t, op.call.token? = some (.schedule j t) := by
    revert hz
    generalize op.call = c
    cases c <;> rintro ⟨⟩
    exact ⟨_, rfl⟩
  obtain ⟨t, htoken⟩ := htoken
  have hholds : 0 < p.holds j := Proc.holds_pos.mpr ⟨_, mem_hand_of_next hop htoken, rfl⟩
  have hcopies := Redis.copies_pos.mpr (.inr hmem)
  have hle := le_tally (f := Proc.holds j) hp
  have htokens := hI.tokens j
  have hone := indicator_le_one (p := s.store.db.status? j = some .pending)
  rw [State.tokens] at htokens
  omega

end Accounted

namespace Accounted

theorem tokens_step (hI : Accounted s) (hU : Undisturbed s) (hff : FailureFree env s a)
    (h : step env s a = some s') (j : Uuid) :
    s'.tokens j = indicator (s'.store.db.status? j = some .pending) := by
  cases trades_of_step (j := j) hff.returns h with
  | quiet hq htokens =>
    rw [htokens, hI.tokens, Database.status?, Database.status?, Database.job?, Database.job?, hq.jobs]
  | crashed => exact absurd hff.lives id
  | @ran pid ch p op x hp hop hx htokens =>
    have hc := call?_of_no_fault hp (.inl ⟨rfl, hop⟩) hff.returns
    have hremove := hU.cancels.removes hp hop
    have hstatus := (status_of_run (j := j) hU.exclusive.letters hU.exclusive.fenced hc hx hremove
      (hff.reclaim _ hc) (hff.sync _ hc) (hI.pending_of_locked hp hop)).1
    have hbalance := htokens hremove
    have hz : ¬ (op.call.zadded? = some j ∧ j ∈ s.store.redis.scheduled.members) :=
      fun hz => hI.not_mem_of_zadded hp hop hz.1 hz.2
    rw [indicator_neg hz, Nat.add_zero, hI.tokens] at hbalance
    omega

theorem executing_step (hI : Accounted s) (hU : Undisturbed s) (hff : FailureFree env s a)
    (h : step env s a = some s') (j : Uuid) :
    s'.executing j = indicator (s'.store.db.status? j = some .running) := by
  have hsignal (p : Proc) : p.signal.executing j = p.executing j := by
    rw [Proc.executing, Proc.attempt?, Proc.ofPc_signal]
    rfl
  have hnew (r : Request) : r.toProc.executing j = 0 := by
    rw [Proc.executing, Proc.attempt?, Request.ofPc_toProc rfl]
    rfl
  cases shifts_of_step (f := Proc.executing j) rfl hsignal hnew h with
  | quiet hq htally =>
    rw [State.executing, htally, Database.status?, Database.job?, hq.jobs]
    exact hI.executing j
  | crashed => exact absurd hff.lives id
  | @ran pid ch p p' op hp hop he htally =>
    obtain ⟨x, hx, _⟩ := he.of_no_fault hff.returns
    have hc := call?_of_no_fault hp (.inl ⟨rfl, hop⟩) hff.returns
    have hstatus := (status_of_run (j := j) hU.exclusive.letters hU.exclusive.fenced hc hx
      (hU.cancels.removes hp hop) (hff.reclaim _ hc) (hff.sync _ hc) (hI.pending_of_locked hp hop)).2
    have hlocked (i : Uuid) (hl : op.call.locked? = some i) :
        ∃ r, s.store.db.job? i = some r ∧ r.claimable = true := by
      obtain ⟨r, hr, hpending⟩ := Option.map_eq_some_iff.mp (hI.pending_of_locked hp hop hl)
      exact ⟨r, hr, by simp [Job.claimable, hpending]⟩
    have hbalance := executing_of_run (j := j) hop he hff.returns hff.stays hlocked ?_
    · have hexecuting := hI.executing j
      rw [State.executing] at hexecuting ⊢
      omega
    · rintro w job e rfl hpc
      obtain ⟨r, hr, hrow⟩ := hU.carried pid _ job hp (by rw [Proc.job?, Proc.ofPc, hpc]; rfl)
      have hpayload : job.payload = r.payload := congrArg LockedJob.payload hrow
      rw [hpayload]
      exact Retry.computeNextRetryAt_ne_none (hU.delays.row _ r hr) hU.clock _ _

theorem tracking_step (hI : Accounted s) (hU : Undisturbed s) (hff : FailureFree env s a)
    (h : step env s a = some s') (j : Uuid) : s'.store.redis.processing.count j = s'.tracking j := by
  have hsignal (p : Proc) : p.signal.tracking j = p.tracking j := by
    rw [Proc.tracking, Proc.held?, Proc.ofPc_signal]
    rfl
  have hnew (r : Request) : r.toProc.tracking j = 0 := by
    rw [Proc.tracking, Proc.held?, Request.ofPc_toProc rfl]
    rfl
  cases shifts_of_step (f := Proc.tracking j) rfl hsignal hnew h with
  | quiet hq htally =>
    rw [State.tracking, htally, hq.redis]
    exact hI.tracking j
  | crashed => exact absurd hff.lives id
  | @ran pid ch p p' op hp hop he htally =>
    have hmem (i : Uuid) (hi : p.held? = some i) : i ∈ s.store.redis.processing := by
      have hle := le_tally (f := Proc.tracking i) hp
      rw [Proc.tracking, indicator_pos hi] at hle
      exact List.count_pos_iff.mp (hI.tracking i ▸ hle)
    have hbalance := processing_of_run (j := j) hop he hff.returns (hU.requeues pid p hp) hmem
    have htracking := hI.tracking j
    rw [State.tracking] at htracking ⊢
    omega

end Accounted

theorem accounted_init (t : Nat) : Accounted (.init t) := ⟨fun _ => rfl, fun _ => rfl, fun _ => rfl⟩

theorem accounted_of_reachable {t : Nat} (h : Reachable (FailureFree env) (step env) (.init t) s) :
    Undisturbed s ∧ Accounted s := by
  refine h.invariant (I := fun s => Undisturbed s ∧ Accounted s) ⟨undisturbed_init t, accounted_init t⟩ ?_
  rintro s a s' ⟨hU, hI⟩ hff h
  exact ⟨undisturbed_step hU hff h, hI.tokens_step hU hff h, hI.executing_step hU hff h,
    hI.tracking_step hU hff h⟩

/-- The accounts of every job, and what follows for the lock attempts. -/
structure AccountingLaw (env : Env) (ok : State → Action → Prop) : Prop where
  tokens {t : Nat} {s : State} : Reachable ok (step env) (.init t) s →
    ∀ j, s.tokens j = if s.store.db.status? j = some .pending then 1 else 0
  executing {t : Nat} {s : State} : Reachable ok (step env) (.init t) s →
    ∀ j, s.executing j = if s.store.db.status? j = some .running then 1 else 0
  tracking {t : Nat} {s : State} : Reachable ok (step env) (.init t) s →
    ∀ j, s.store.redis.processing.count j = s.tracking j
  locked {t : Nat} {s : State} {a : Action} {pid : Nat} {j : Uuid} {w : WorkerId} :
    Reachable ok (step env) (.init t) s → s.call? env a = some (pid, .fetchAndLockJob j w) →
    (s.store.db.fetchAndLockJob s.store.clock j w).2.isSome = true

theorem accountingLaw (env : Env) : AccountingLaw env (FailureFree env) where
  tokens h j := (accounted_of_reachable h).2.tokens j
  executing h j := (accounted_of_reachable h).2.executing j
  tracking h j := (accounted_of_reachable h).2.tracking j
  locked {t s a pid j w} h hc := by
    obtain ⟨_, p, op, hp, ⟨_, hop⟩ | ⟨_, hop⟩, hcall⟩ := call?_eq_some hc
    · have hpending := (accounted_of_reachable h).2.pending_of_locked (j := j) hp hop (by rw [hcall]; rfl)
      obtain ⟨r, hr, hstatus⟩ := Option.map_eq_some_iff.mp hpending
      refine Option.isSome_iff_ne_none.mpr fun hnone => ?_
      have hclaim := Database.fetchAndLockJob_eq_none hnone hr
      simp [Job.claimable, hstatus] at hclaim
    · obtain ⟨n, rfl⟩ := heartbeat_eq_some hop
      cases hcall

/-- Job 7 has failed and is `PENDING` again, its id in the hands of scheduler 0, before worker 2 has
acknowledged the first attempt. -/
theorem accountingLaw_promoted : ∃ s, Reachable (FailureFree minutely) (step minutely) (.init 0) s ∧
    s.store.db.status? 7 = some .pending ∧ s.tokens 7 = 1 ∧ s.executing 7 = 0 ∧
    s.store.redis.processing.count 7 = 1 := by
  obtain ⟨s, h, hs⟩ : ∃ s, Reachable (FailureFree minutely) (step minutely) (.init 0) s ∧ _ :=
    exists_reachable_of_exec ([.spawn .scheduler] ++ calls 0 1 ++ [.spawn (.submit report), .run 1 {},
        .run 1 { freshId := 7 }] ++ calls 1 2 ++ [.spawn .worker] ++ calls 2 5 ++
        [.run 2 { outcome := .error (.exception "down") }] ++ calls 2 2 ++ [.tick 300000000] ++ calls 0 4)
      (fun s => s.store.db.status? 7 = some .pending ∧ s.tracking 7 = 1) (by decide +kernel)
  obtain ⟨hpending, htracking⟩ := of_decide_eq_true hs
  have law := accountingLaw minutely
  refine ⟨s, h, hpending, (law.tokens h 7).trans (if_pos hpending), (law.executing h 7).trans (if_neg ?_),
    (law.tracking h 7).trans htracking⟩
  rw [hpending]
  nofun

end DistribuQ
