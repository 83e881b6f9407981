import DistribuQ.Proofs.Accounting

/-! No id is queued twice, where `sync_from_db` adds only what is missing. -/

namespace DistribuQ
open Transition
variable {env : Env} {s s' : State} {a : Action} {pid : Nat} {ch : Choice} {st st' : Store} {i j : Uuid}

namespace Proc

/-- A scheduler in `sync_from_db`. -/
def syncing : Proc → Bool
  | scheduler p =>
    match p.pc with
    | .syncSelect | .sync .. => true
    | _ => false
  | _ => false

/-- The copies of `j` in the hands of a process, but for those that `sync_from_db` is about to add. -/
def owes (j : Uuid) (p : Proc) : Nat := if p.syncing then 0 else p.holds j

end Proc

/-- The copies of `j` in the queues and in the hands of the processes, but for those that `sync_from_db` is
about to add. -/
def State.live (j : Uuid) (s : State) : Nat := s.store.redis.copies j + tally (Proc.owes j) s.procs

section
variable (env : Env) (s : State) (a : Action)

/-- Every outcome is written by a worker that still holds the lock. -/
def NoLateOutcome : Prop := ∀ x ∈ s.call? env a, ∀ j ∈ x.2.outcome?, s.Holds x.1 j

/-- `sync_from_db` adds an id to the scheduled set that is in it already, or the id of a `PENDING` job of
which there is no other copy. -/
def SyncsMissing : Prop :=
  ∀ x ∈ s.call? env a, ∀ j ∈ x.2.zadded?, ∀ p ∈ s.procs[x.1]?, p.syncing = true →
    j ∈ s.store.redis.scheduled.members ∨ s.store.db.status? j = some .pending ∧ s.live j = 0

instance : Decidable (NoLateOutcome env s a) := inferInstanceAs (Decidable (∀ x ∈ s.call? env a, _))
instance : Decidable (SyncsMissing env s a) := inferInstanceAs (Decidable (∀ x ∈ s.call? env a, _))

end

/-! The hands of a process after its call. -/

namespace Proc
variable {p p' : Proc} {op : Op Proc}

theorem owes_le_holds : p.owes j ≤ p.holds j := by
  unfold owes
  split_ifs
  · exact Nat.zero_le _
  · exact le_rfl

theorem owes_of_syncing (h : p.syncing = true) : p.owes j = 0 := if_pos h

theorem owes_of_not_syncing (h : p.syncing = false) : p.owes j = p.holds j :=
  if_neg (by rw [h]; exact Bool.false_ne_true)

@[simp] theorem syncing_signal : p.signal.syncing = p.syncing := by cases p <;> rfl

@[simp] theorem owes_signal : p.signal.owes j = p.owes j := by
  rw [owes, syncing_signal, holds_signal, owes]

@[simp] theorem owes_toProc (r : Request) : r.toProc.owes j = 0 :=
  Nat.le_zero.mp (owes_le_holds.trans (holds_toProc r).le)

/-- A process whose call raises has at most what it had, but for what it was putting away or trying to lock. -/
theorem holds_of_error (hop : p.next env pid = some op) (e : String) :
    (op.resume (.error e)).holds j + indicator (op.call.token?.map Token.job = some j) ≤ p.holds j := by
  cases p with
  | worker p =>
    obtain ⟨pc, running, _⟩ := p
    cases pc
    case poll qs => cases qs <;> cases hop <;> exact Nat.zero_le _
    case loop =>
      cases hop
      cases running <;> exact le_rfl
    case handler job | markSuccess job v =>
      cases hop
      exact (congrArg (fun hand => (hand.map Token.job).count j) (Worker.hand_onFailure job e)).le
    case emitSuccess job =>
      cases hop
      exact (congrArg (fun hand => (hand.map Token.job).count j) (Worker.hand_afterSuccess job)).le
    case stopped => cases hop
    all_goals
      cases hop
      simp [holds_worker, Worker.Pc.hand, Op.map, Worker.at', Worker.count, Token.job, Call.token?,
        indicator, List.count_singleton]
  | submit pc =>
    obtain ⟨_, hnext, rfl⟩ := Option.map_eq_some_iff.mp hop
    cases Submit.does_of_next hnext with
    | push hs | schedule hs =>
      simp [holds_submit, Submit.Pc.hand, Op.map, JobCreateRequest.token, hs, Token.job, Call.token?,
        indicator, List.count_singleton]
    | _ => exact Nat.zero_le _
  | cancel pc => cases pc <;> cases hop <;> exact Nat.zero_le _
  | replay pc =>
    cases pc <;> cases hop <;>
      simp [holds_replay, Replay.Pc.hand, Op.map, Token.job, Call.token?, indicator,
        List.count_singleton]
  | scheduler p =>
    obtain ⟨pc, running, last⟩ := p
    cases pc
    case loop =>
      cases hop
      cases running <;> exact le_rfl
    case stopped => cases hop
    all_goals
      cases hop
      simp [holds_scheduler, Scheduler.Pc.hand, Op.map, Scheduler.at', ScheduledJob.token,
        DueRetry.token, StaleJob.token, Token.job, Call.token?, indicator, List.count_cons]
  | reaper p =>
    obtain ⟨v, b, pc, running⟩ := p
    cases pc
    case loop =>
      cases hop
      cases running <;> exact le_rfl
    case stopped => cases hop
    all_goals
      cases hop
      simp only [holds_reaper, Op.map, Reaper.at', Reaper.map_job_staleLoop, Reaper.map_job_retryLoop]
      simp [Reaper.Pc.hand, Function.comp_def, Token.job, Call.token?, indicator, List.count_cons]
  | gone => cases hop

theorem owes_of_sync (hop : p.next env pid = some op) (hp : p.syncing = true)
    (x : Except String op.call.Ret) :
    (op.resume x).owes j = 0 := by
  cases p with
  | scheduler p =>
    obtain ⟨pc, running, last⟩ := p
    cases pc with
    | syncSelect =>
      cases hop
      rcases x with e | xs
      · rfl
      · cases xs <;> rfl
    | sync x xs =>
      cases hop
      rcases x with e | x
      · rfl
      · cases xs <;> rfl
    | _ => cases hp
  | _ => cases hp

end Proc

/-! What one step does to the copies of an id. -/

theorem Redis.copies_lrem_le {r : Redis} {q : Queue} : (r.lrem q i).copies j ≤ r.copies j := by
  have hset := copies_setList (r := r) (q := q) (l := (r.lists q).filter fun k => k ≠ i) (j := j)
  have hle : ((r.lists q).filter fun k => k ≠ i).count j ≤ (r.lists q).count j :=
    List.filter_sublist.count_le j
  unfold lrem
  omega

theorem Redis.copies_zrem_le {r : Redis} : (r.zrem i).copies j ≤ r.copies j := by
  have hle : (r.scheduled.remove i).members.count j ≤ r.scheduled.members.count j :=
    (List.filter_sublist.map Prod.fst).count_le j
  exact Nat.add_le_add_left hle _

theorem Call.copies_le_of_run {c : Call} {x : c.Ret} (h : c.run env ch st = some (st', x)) :
    st'.redis.copies j + (c.popped x).count j ≤ st.redis.copies j + indicator (c.put? = some j) := by
  cases hr : c.removes with
  | false =>
    have hcopies := copies_of_run (j := j) h hr
    omega
  | true =>
    cases c with
    | lrem q i =>
      cases h
      exact Redis.copies_lrem_le
    | zrem i =>
      cases h
      exact Redis.copies_zrem_le
    | cancelUpdate i =>
      cases h
      exact le_rfl
    | _ => cases hr

theorem live_of_ends {p p' : Proc} {op : Op Proc} (hop : p.next env pid = some op)
    (hp : p.syncing = false) (he : op.Ends env ch st st' p') :
    (st' = st ∧ st'.redis.copies j + p'.owes j ≤ st.redis.copies j + p.owes j) ∨
      ((∀ e, ch.fault ≠ .raised e) ∨ op.call.isLocal = true) ∧
        ∃ x, op.call.run env ch st = some (st', x) ∧
        st'.redis.copies j + p'.owes j + indicator (op.call.locked? = some j) ≤
          st.redis.copies j + p.owes j + (op.call.fresh x).count j := by
  rw [Proc.owes_of_not_syncing hp]
  have hle := Proc.owes_le_holds (p := p') (j := j)
  cases he with
  | @raised e =>
    have hhand := Proc.holds_of_error (j := j) hop e
    exact .inl ⟨rfl, by omega⟩
  | @lost e _ x hf _ hx =>
    have hhand := Proc.holds_of_error (j := j) hop e
    have hqueues := Call.copies_le_of_run (j := j) hx
    rw [Call.indicator_token] at hhand
    exact .inr ⟨.inl fun e' he => (by rw [hf] at he; cases he), x, hx, by omega⟩
  | @returned _ x hf hx =>
    have hhand := keeps_of_next (j := j) hop x
    have hqueues := Call.copies_le_of_run (j := j) hx
    rw [Call.indicator_token] at hhand
    refine .inr ⟨hf.imp_left fun hf e he => ?_, x, hx, by omega⟩
    rw [hf] at he
    cases he

/-- A step brings the copies that its call reads from Postgres, or the one that `sync_from_db` adds, and a
lock attempt uses one up. -/
inductive Deals (env : Env) (j : Uuid) (s s' : State) (a : Action) : Prop
  | idle : s'.store.db.jobs = s.store.db.jobs → s'.live j ≤ s.live j → Deals env j s s' a
  | synced {pid : Nat} {p : Proc} {c : Call} : s.procs[pid]? = some p → p.syncing = true →
      s.call? env a = some (pid, c) → s'.store.db.jobs = s.store.db.jobs →
      s'.live j ≤ s.live j + indicator (c.zadded? = some j ∧ j ∉ s.store.redis.scheduled.members) →
      Deals env j s s' a
  | called {pid : Nat} {ch : Choice} {c : Call} {x : c.Ret} : s.call? env a = some (pid, c) →
      c.run env ch s.store = some (s'.store, x) → c.syncs = false →
      s'.live j + indicator (c.locked? = some j) ≤ s.live j + (c.fresh x).count j → Deals env j s s' a

theorem Proc.syncing_of_syncs {p : Proc} {op : Op Proc} (hop : p.next env pid = some op)
    (hc : op.call.syncs = true) : p.syncing = true := by
  cases p with
  | worker p =>
    obtain ⟨pc, _, _⟩ := p
    cases pc with
    | poll qs => cases qs <;> cases hop <;> cases hc
    | stopped => cases hop
    | _ =>
      cases hop
      cases hc
  | submit pc =>
    obtain ⟨_, hnext, rfl⟩ := Option.map_eq_some_iff.mp hop
    cases Submit.does_of_next hnext <;> cases hc
  | cancel pc => cases pc <;> cases hop <;> cases hc
  | replay pc => cases pc <;> cases hop <;> cases hc
  | scheduler p =>
    obtain ⟨pc, _, _⟩ := p
    cases pc <;> cases hop <;> first | rfl | cases hc
  | reaper p =>
    obtain ⟨_, _, pc, _⟩ := p
    cases pc <;> cases hop <;> cases hc
  | gone => cases hop

theorem Proc.quiet_of_syncing {p : Proc} {op : Op Proc} (hop : p.next env pid = some op)
    (hp : p.syncing = true) : op.call.removes = false ∧ op.call.isLocal = false ∧
      ∀ x st st' ch, op.call.run env ch st = some (st', x) →
        st'.db = st.db ∧ op.call.popped x = [] ∧ op.call.put? = op.call.zadded? := by
  cases p with
  | scheduler p =>
    obtain ⟨pc, _, _⟩ := p
    cases pc with
    | syncSelect | sync =>
      cases hop
      refine ⟨rfl, rfl, fun x st st' ch h => ?_⟩
      cases h
      exact ⟨rfl, rfl, rfl⟩
    | _ => cases hp
  | _ => cases hp

theorem deals_of_step (h : step env s a = some s') : Deals env j s s' a := by
  cases shifts_of_step (f := Proc.owes j) rfl (fun _ => Proc.owes_signal) Proc.owes_toProc h with
  | quiet hq htally => exact .idle hq.jobs (by rw [State.live, hq.redis, htally, State.live])
  | crashed hp hst htally =>
    refine .idle (by rw [hst]) ?_
    rw [State.live, hst, State.live]
    omega
  | @ran pid ch p p' op hp hop he htally =>
    have hmakes : MakesOp env (.run pid ch) pid ch p op := .inl ⟨rfl, hop⟩
    cases hsync : p.syncing with
    | false =>
      rcases live_of_ends (j := j) hop hsync he with ⟨hst, hlive⟩ | ⟨hf, x, hx, hlive⟩
      · refine .idle (by rw [hst]) ?_
        simp only [State.live]
        omega
      · refine .called (call?_of_makes hp hmakes hf) hx ?_ ?_
        · refine Bool.eq_false_iff.mpr fun hc => ?_
          cases hsync.symm.trans (Proc.syncing_of_syncs hop hc)
        · simp only [State.live]
          omega
    | true =>
      obtain ⟨hremove, hlocal, hrun⟩ := Proc.quiet_of_syncing hop hsync
      have howes (x : Except String op.call.Ret) : (op.resume x).owes j = 0 :=
          Proc.owes_of_sync hop hsync x
      rw [Proc.owes_of_syncing hsync] at htally
      have hsynced {x : op.call.Ret} (hf : ∀ e, ch.fault ≠ .raised e)
          (hx : op.call.run env ch s.store = some (s'.store, x)) (hp' : p'.owes j = 0) :
          Deals env j s s' (.run pid ch) := by
        obtain ⟨hdb, hpopped, hput⟩ := hrun _ _ _ _ hx
        refine .synced hp hsync (call?_of_makes hp hmakes (.inl hf)) (by rw [hdb]) ?_
        have hqueues := Call.copies_of_run (j := j) hx hremove
        rw [hpopped, hput, List.count_nil] at hqueues
        simp only [State.live]
        by_cases hz : op.call.zadded? = some j
        · by_cases hm : j ∈ s.store.redis.scheduled.members
          · rw [indicator_pos ⟨hz, hm⟩, indicator_pos hz] at hqueues
            omega
          · rw [indicator_pos hz] at hqueues
            rw [indicator_pos ⟨hz, hm⟩]
            omega
        · rw [indicator_neg hz] at hqueues
          omega
      generalize hst : s'.store = st' at he
      cases he with
      | @raised e =>
        refine .idle (by rw [hst]) ?_
        have hp' := howes (.error e)
        simp only [State.live, hst]
        omega
      | @lost e _ x hf _ hx =>
        refine hsynced (x := x) (fun e' he => ?_) (by rw [hst, hx]) (howes _)
        rw [hf] at he
        cases he
      | @returned _ x hf hx =>
        refine hsynced (x := x) (fun e' he => ?_) (by rw [hst, hx]) (howes _)
        rw [hf.resolve_right (by rw [hlocal]; exact Bool.false_ne_true)] at he
        cases he

/-- A job whose id may wait in a queue: `PENDING`, or cancelled and not yet removed. -/
def Database.Waits (db : Database) (j : Uuid) : Prop :=
  db.status? j = some .pending ∨ db.status? j = some .failed

instance (db : Database) (j : Uuid) : Decidable (db.Waits j) :=
  inferInstanceAs (Decidable (db.status? j = _ ∨ db.status? j = _))

namespace Database
variable {db : Database} {r : Job}

theorem waits_iff (hr : db.job? j = some r) : db.Waits j ↔
    r.status = .pending ∨ r.status = .failed := by
  rw [Waits, status?_of_job? hr, Option.some.injEq, Option.some.injEq]

theorem not_waits (hr : db.job? j = none) : ¬ db.Waits j := by
  rw [Waits, status?_of_job?_none hr]
  nofun

theorem waits_congr {db' : Database} (h : db'.jobs = db.jobs) : db'.Waits j ↔ db.Waits j := by
  rw [Waits, Waits, status?, status?, job?, job?, h]

end Database

/-- The copies that a call hands out are of jobs that come to wait, and only a lock ends the wait. -/
theorem waits_of_run {c : Call} {x : c.Ret} (hL : s.store.db.LettersAgree) (hf : Fenced env s a)
    (hc : s.call? env a = some (pid, c)) (hx : c.run env ch s.store = some (s'.store, x))
    (hsync : c.syncs = false) : indicator (s.store.db.Waits j) + (c.fresh x).count j ≤
      indicator (s'.store.db.Waits j) + indicator (c.locked? = some j) := by
  have hempty (h : c.syncs = true) : s.store.db.jobs.rows.isEmpty = true := by
    cases hsync.symm.trans h
  cases hr : s.store.db.job? j with
  | none =>
    rw [indicator_neg (Database.not_waits hr), Nat.zero_add]
    cases hr' : s'.store.db.job? j with
    | none =>
      rw [Call.count_fresh_none hx hr hr' (job?_of_replayed hL hf hc) hempty]
      exact Nat.zero_le _
    | some r' =>
      obtain ⟨hi, rfl⟩ := Call.run_job?_none hx hr hr'
      cases c with
      | createJob new | scheduleNextOccurrence new =>
        cases hi
        rw [indicator_pos ((Database.waits_iff hr').mpr (.inl rfl))]
        exact List.count_le_length.trans (Nat.le_add_right _ _)
      | _ => cases hi
  | some r =>
    obtain ⟨r', hr', hg⟩ := exists_guarded hL hf hc hx hr
    have hid := Database.id_of_job? hr
    subst hid
    rw [indicator_congr (Database.waits_iff hr), indicator_congr (Database.waits_iff hr')]
    cases hg with
    | kept hk =>
      rw [Call.count_fresh_kept hx hr hk hempty]
      exact Nat.le_add_right _ _
    | lock hp =>
      have hlocked : Call.locked? (.fetchAndLockJob r.id pid) = some r.id := rfl
      rw [indicator_pos hlocked]
      exact indicator_le_one.trans (Nat.le_add_left _ _)
    | succeed v hs => simp [hs, Call.fresh]
    | retry e t hs => simp [hs, Call.fresh]
    | bury e n hs => simp [hs, Call.fresh]
    | release n hs hstale =>
      have hfresh := Call.count_fresh_reclaimStaleJobs (j := r.id) hx
      rw [hr, Option.any_some, if_pos hstale] at hfresh
      simp [hs, Job.release, Job.touch, Call.fresh, hfresh]
    | promote hs hdue =>
      have hfresh := Call.count_fresh_reclaimDueRetryJobs (j := r.id) hx
      rw [hr, Option.any_some, if_pos hdue] at hfresh
      simp [hs, Job.release, Job.touch, Call.fresh, hfresh]
    | cancel hs => simp [hs, Job.cancel, Job.touch, Call.fresh]
    | reset d hs => simp [hs, Job.reset, Job.touch, Call.fresh]

/-- There is one copy at most of the id of a job that waits, and none of any other. -/
structure Unduplicated (s : State) : Prop where
  letters : s.store.db.LettersAgree
  live : ∀ j, s.live j ≤ indicator (s.store.db.Waits j)

theorem unduplicated_step (hI : Unduplicated s) (hf : Fenced env s a) (hs : SyncsMissing env s a)
    (h : step env s a = some s') : Unduplicated s' := by
  refine ⟨lettersAgree_step hI.letters hf h, fun j => ?_⟩
  have hlive := hI.live j
  cases deals_of_step (j := j) h with
  | idle hjobs hle =>
    rw [indicator_congr (Database.waits_congr hjobs)]
    exact hle.trans hlive
  | @synced pid p c hp hsync hc hjobs hle =>
    rw [indicator_congr (Database.waits_congr hjobs)]
    by_cases hz : c.zadded? = some j ∧ j ∉ s.store.redis.scheduled.members
    · obtain ⟨hpending, hnone⟩ := (hs _ hc j hz.1 p hp hsync).resolve_left hz.2
      rw [indicator_pos hz, hnone] at hle
      rw [indicator_pos (p := s.store.db.Waits j) (.inl hpending)]
      exact hle
    · rw [indicator_neg hz] at hle
      exact hle.trans hlive
  | called hc hx hsync hle =>
    have hwaits := waits_of_run (j := j) hI.letters hf hc hx hsync
    omega

theorem unduplicated_init (t : Nat) : Unduplicated (.init t) where
  letters _ := rfl
  live _ := Nat.zero_le _

/-- Every id is in the ready lists and the scheduled set once at most. -/
def NoDuplicates (env : Env) (ok : State → Action → Prop) : Prop :=
  ∀ t s j, Reachable ok (step env) (.init t) s → s.store.redis.copies j ≤ 1

theorem noDuplicates_of_missing (env : Env) :
    NoDuplicates env fun s a => Fenced env s a ∧ SyncsMissing env s a := by
  intro t s j h
  have hI := h.invariant (unduplicated_init t) fun _ _ _ hI hok => unduplicated_step hI hok.1 hok.2
  exact (Nat.le_add_right _ _).trans ((hI.live j).trans indicator_le_one)

def due : JobCreateRequest := { report with scheduledFor := some 0 }

/-- Job 7 is submitted with a time, and scheduler 1 promotes it and stops. -/
def promoted : List Action :=
  [.spawn (.submit due), .run 0 {}, .run 0 { freshId := 7 }] ++ calls 0 2 ++
    [.spawn .scheduler] ++ calls 1 4 ++ [.signal 1] ++ calls 1 3

/-- The request crashes before it adds job 7 to the scheduled set, and `sync_from_db` adds it. -/
theorem noDuplicates_synced :
    ∃ s, Reachable (fun s a => Fenced minutely s a ∧ SyncsMissing minutely s a) (step minutely) (.init 0) s ∧
      7 ∈ s.store.redis.scheduled.members ∧ s.store.redis.copies 7 = 1 := by
  obtain ⟨s, h, hs⟩ : ∃ s, Reachable (fun s a => Fenced minutely s a ∧ SyncsMissing minutely s a)
      (step minutely) (.init 0) s ∧ _ :=
    exists_reachable_of_exec ([.spawn (.submit due), .run 0 {}, .run 0 { freshId := 7 }, .crash 0,
        .spawn .scheduler] ++ calls 1 2)
      (fun s => 7 ∈ s.store.redis.scheduled.members) (by decide)
  have hmem := of_decide_eq_true hs
  have hpos := Redis.copies_pos.mpr (.inr hmem)
  exact ⟨s, h, hmem, le_antisymm (noDuplicates_of_missing minutely 0 s 7 h) hpos⟩

/-- Job 7 waits in a ready list, and the `sync_from_db` of scheduler 2 adds it to the scheduled set again. -/
theorem not_noDuplicates : ¬ NoDuplicates minutely (NoLateOutcome minutely) := by
  intro law
  obtain ⟨s, h, hs⟩ : ∃ s, Reachable (NoLateOutcome minutely) (step minutely) (.init 0) s ∧ _ :=
    exists_reachable_of_exec (promoted ++ [.spawn .scheduler] ++ calls 2 2)
      (fun s => s.store.redis.copies 7 = 2) (by decide)
  have hle := law 0 s 7 h
  rw [of_decide_eq_true hs] at hle
  exact absurd hle (by decide)

/-- Two replays of job 7 read its dead letter before either has deleted it, and each pushes the job. -/
theorem not_noDuplicates_replayed :
    ¬ NoDuplicates minutely fun s a => NoLateOutcome minutely s a ∧ SyncsMissing minutely s a := by
  intro law
  obtain ⟨s, h, hs⟩ : ∃ s, Reachable (fun s a => NoLateOutcome minutely s a ∧ SyncsMissing minutely s a)
      (step minutely) (.init 0) s ∧ _ :=
    exists_reachable_of_exec (buried ++ [.spawn (.replay 7), .spawn (.replay 7)] ++
        calls 4 1 ++ calls 5 3 ++ calls 4 2)
      (fun s => s.store.redis.copies 7 = 2) (by decide)
  have hle := law 0 s 7 h
  rw [of_decide_eq_true hs] at hle
  exact absurd hle (by decide)

end DistribuQ
