import DistribuQ.Proofs.Queues
import DistribuQ.Proofs.Executions

/-! Delayed jobs: an id is in a ready list or in the hands of a worker only when its time has come. -/

namespace DistribuQ
open Transition
variable {env : Env} {s s' : State} {a : Action} {i : Nat} {j : Uuid} {t : Time}

/-- The job `j` is not delayed, or no more. -/
def Store.Ripe (st : Store) (j : Uuid) : Prop :=
  ∃ r, st.db.job? j = some r ∧ ∀ t, r.scheduledFor = some t → t ≤ st.clock

def Store.Delayed (st : Store) (j : Uuid) (t : Time) : Prop :=
  ∃ r, st.db.job? j = some r ∧ r.scheduledFor = some t

theorem Store.Delayed.ripe {st : Store} (h : st.Delayed j t) (ht : t ≤ st.clock) : st.Ripe j := by
  obtain ⟨r, hr, hfor⟩ := h
  refine ⟨r, hr, fun t' ht' => ?_⟩
  cases hfor.symm.trans ht'
  exact ht

theorem Store.Delayed.step (hd : s.store.Delayed j t) (h : step env s a = some s') :
    s'.store.Delayed j t := by
  obtain ⟨r, hr, ht⟩ := hd
  obtain ⟨r', hr', horigin⟩ := step_origin h hr
  exact ⟨r', hr', (congrArg NewJob.scheduledFor horigin).trans ht⟩

theorem Store.Ripe.step (hd : s.store.Ripe j) (h : step env s a = some s') : s'.store.Ripe j := by
  obtain ⟨r, hr, ht⟩ := hd
  obtain ⟨r', hr', horigin⟩ := step_origin h hr
  refine ⟨r', hr', fun t ht' => (ht t ?_).trans (clock_le_of_step h)⟩
  exact (congrArg NewJob.scheduledFor horigin).symm.trans ht'

/-- An id about to be pushed or locked is of a job whose time has come, one about to be scheduled goes
with the time of its job. -/
def Token.Timely (st : Store) : Token → Prop
  | push _ j | lock j => st.Ripe j
  | schedule j t => st.Delayed j t

theorem Token.Timely.step {x : Token} (hx : x.Timely s.store) (h : step env s a = some s') :
    x.Timely s'.store := by
  cases x with
  | push | lock => exact Store.Ripe.step hx h
  | schedule => exact Store.Delayed.step hx h

/-- Where the id of a job whose time has not come may be: in the scheduled set and in the hands of those
who put it there. -/
structure Timely (s : State) : Prop where
  ready : ∀ q, ∀ j ∈ s.store.redis.lists q, s.store.Ripe j
  scheduled : ∀ e ∈ s.store.redis.scheduled.entries, s.store.Delayed e.1 e.2
  hand : ∀ (i : Nat) (p : Proc), s.procs[i]? = some p → ∀ x ∈ p.hand, x.Timely s.store
  attempt : ∀ (i : Nat) (p : Proc) (job : LockedJob), s.procs[i]? = some p → p.attempt? = some job →
    s.store.Ripe job.id
  row : ∀ (j : Uuid) (r : Job), s.store.db.job? j = some r → r.status = .running ∨ r.status = .retrying →
    s.store.Ripe j
  letters : ∀ l ∈ s.store.db.deadLetters.rows, s.store.Ripe l.jobId
  replay : ∀ (i : Nat) (d j : Uuid), s.procs[i]? = some (.replay (.write d j)) → s.store.Ripe j
  now : ∀ (i : Nat) (p : Scheduler) (t : Time), s.procs[i]? = some (.scheduler p) → p.pc = .promote t →
    t ≤ s.store.clock

theorem timely_init (t : Nat) : Timely (.init t) where
  ready _ _ h := by cases h
  scheduled _ h := by cases h
  hand _ _ h := by cases h
  attempt _ _ _ h := by cases h
  row _ _ h := by cases h
  letters _ h := by cases h
  replay _ _ _ h := by cases h
  now _ _ _ h := by cases h

theorem promoter_of_call? {q : Queue} (hc : s.call? env a = some (i, .promoteScheduled q t)) :
    ∃ x, s.procs[i]? = some (.scheduler x) ∧ x.pc = .promote t ∧ q = .default := by
  rcases makes_of_call? hc with ⟨_, p, _, hp, hm⟩ | ⟨_, _, _, hm⟩
  · cases hm with
    | promote hpc => exact ⟨_, hp, hpc, rfl⟩
    | other hplain => exact absurd rfl (hplain.promote _ _)
  · cases hm

namespace Scheduler
variable {ch : Choice} {st st' : Store} {p p' : Scheduler} {op : Op Scheduler}

theorem syncLoop_ne (xs : List ScheduledJob) : syncLoop xs ≠ .promote t := by
  cases xs <;> nofun

theorem retryLoop_ne (xs : List DueRetry) : retryLoop xs ≠ .promote t := by
  cases xs <;> nofun

theorem staleLoop_ne (xs : List StaleJob) : staleLoop xs ≠ .promote t := by
  cases xs <;> nofun

theorem promote_of_next (hop : p.next env = some op) (he : op.Ends env ch st st' p')
    (hpc : p'.pc = .promote t) : t = st.clock := by
  obtain ⟨pc, running, last⟩ := p
  cases pc with
  | promoteNow =>
    cases hop
    cases he with
    | returned _ hr =>
      cases hr
      cases hpc
      rfl
    | _ => cases hpc
  | syncSelect | sync =>
    cases hop
    cases he with
    | returned => exact absurd hpc (syncLoop_ne _)
    | _ => cases hpc
  | retries | pushRetries =>
    cases hop
    cases he with
    | returned => exact absurd hpc (retryLoop_ne _)
    | _ => cases hpc
  | stale | pushStale =>
    cases hop
    cases he with
    | returned => exact absurd hpc (staleLoop_ne _)
    | _ => cases hpc
  | monotonic =>
    cases hop
    cases he with
    | returned =>
      simp only at hpc
      split_ifs at hpc
      cases hpc
    | _ => cases hpc
  | loop =>
    cases hop
    cases running <;> cases he
    all_goals cases hpc
  | promote | expire =>
    cases hop
    cases he <;> cases hpc
  | stopped => cases hop

end Scheduler

namespace Timely

theorem ready_step (hI : Timely s) (h : step env s a = some s') {q : Queue}
    (hj : j ∈ s'.store.redis.lists q) : s'.store.Ripe j := by
  refine Store.Ripe.step ?_ h
  rcases store_of_step h with ⟨pid, ch, c, x, hc, hx⟩ | ⟨_, _, hredis⟩
  · rcases Call.mem_lists_of_run hx hj with hj | htoken | ⟨t, rfl, hj⟩
    · exact hI.ready q j hj
    · obtain ⟨p, hp, hmem⟩ := mem_hand_of_call? hc htoken
      exact hI.hand pid p hp _ hmem
    · -- the script compares with a time the scheduler has read before
      obtain ⟨p, hp, hpc, _⟩ := promoter_of_call? hc
      obtain ⟨t', hle, he⟩ := SortedSet.mem_rangeTo.mp hj
      exact (hI.scheduled _ he).ripe (hle.trans (hI.now pid p t hp hpc))
  · exact hI.ready q j (hredis ▸ hj)

theorem scheduled_step (hI : Timely s) (h : step env s a = some s') {e : Uuid × Time}
    (he : e ∈ s'.store.redis.scheduled.entries) : s'.store.Delayed e.1 e.2 := by
  refine Store.Delayed.step ?_ h
  rcases store_of_step h with ⟨pid, ch, c, x, hc, hx⟩ | ⟨_, _, hredis⟩
  · rcases Call.mem_scheduled_of_run hx he with he | htoken
    · exact hI.scheduled e he
    · obtain ⟨p, hp, hmem⟩ := mem_hand_of_call? hc htoken
      exact hI.hand pid p hp _ hmem
  · exact hI.scheduled e (hredis ▸ he)

theorem hand_step (hI : Timely s) (h : step env s a = some s') {p' : Proc} {x : Token}
    (hp' : s'.procs[i]? = some p') (hx : x ∈ p'.hand) : x.Timely s'.store := by
  rcases hand_of_step h hp' hx with ⟨p, hp, hx⟩ | ⟨p, ch, c, hp, hissue⟩
  · exact (hI.hand i p hp x hx).step h
  · cases hissue with
    | @create req row hr =>
      obtain ⟨hrow, hnew⟩ := Call.row_of_inserted hr
      have hfor : row.scheduledFor = req.scheduledFor := by rw [hnew]; rfl
      unfold JobCreateRequest.token
      split
      · rename_i hs
        refine ⟨row, hrow, fun t ht => ?_⟩
        cases (hfor.trans hs).symm.trans ht
      · rename_i t hs
        exact ⟨row, hrow, hfor.trans hs⟩
    | successor _ hr =>
      obtain ⟨hrow, hnew⟩ := Call.row_of_inserted hr
      exact ⟨_, hrow, by rw [hnew]; rfl⟩
    | reserved hr => exact (hI.ready _ _ (Call.mem_lists_of_reserved hr)).step h
    | popped hr => exact (hI.ready _ _ (Call.mem_lists_of_popped hr)).step h
    | replayed => exact (hI.replay i _ _ hp).step h
    | synced hr hmem =>
      obtain ⟨r, hr, _, ht⟩ := Call.row_of_synced hr hmem
      exact Store.Delayed.step ⟨r, hr, ht⟩ h
    -- a row that is reclaimed has been running, so its time had come by then
    | promoted hr hmem | retried hr hmem =>
      obtain ⟨r, hr, hdue, _⟩ := Call.row_of_promoted hr hmem
      exact (hI.row _ r hr (.inr (Job.retrying_of_dueRetry hdue))).step h
    | reclaimed hr hmem | reaped hr hmem =>
      obtain ⟨r, hr, hstale, _⟩ := Call.row_of_reclaimed hr hmem
      exact (hI.row _ r hr (.inl (Database.running_of_stale hstale))).step h

theorem attempt_step (hI : Timely s) (h : step env s a = some s') {p' : Proc} {job : LockedJob}
    (hp' : s'.procs[i]? = some p') (ha : p'.attempt? = some job) : s'.store.Ripe job.id := by
  rcases ofPc_of_step Worker.fromLock_attempt? h hp' ha with ⟨p, hp, ha, _⟩ | ⟨_, hc, _⟩
  · exact (hI.attempt i p job hp ha).step h
  · obtain ⟨p, hp, hmem⟩ := mem_hand_of_call? hc rfl
    exact (hI.hand i p hp _ hmem : s.store.Ripe job.id).step h

theorem outcome (hI : Timely s) {c : Call} (hc : s.call? env a = some (i, c)) (ho : c.outcome? = some j) :
    s.store.Ripe j := by
  rcases makes_of_call? hc with ⟨_, p, _, hp, hm⟩ | ⟨_, _, _, rfl⟩
  · obtain ⟨job, ha, rfl⟩ := hm.attempt ho
    exact hI.attempt i p job hp ha
  · cases ho

theorem row_step (hI : Timely s) (h : step env s a = some s') {r' : Job}
    (hr' : s'.store.db.job? j = some r') (hs : r'.status = .running ∨ r'.status = .retrying) :
    s'.store.Ripe j := by
  cases hr : s.store.db.job? j with
  | none =>
    obtain ⟨_, _, c, _, hi, _⟩ := step_job?_none h hr hr'
    cases c <;> cases hi <;> rcases hs with hs | hs <;> cases hs
  | some r =>
    refine Store.Ripe.step ?_ h
    have hid := Database.id_of_job? hr
    rcases step_job? h hr with hk | ⟨pid, c, hc, hrow⟩
    · cases hk.symm.trans hr'
      exact hI.row j _ hr hs
    · cases hrow.symm.trans hr'
      have hw : c.Writes s.store r _ := Call.writes_rewrite c
      generalize c.rewrite s.store r = r' at hw hs
      subst hid
      cases hw with
      | kept => exact hI.row _ _ hr hs
      | lock =>
        obtain ⟨p, hp, hmem⟩ := mem_hand_of_call? hc rfl
        exact hI.hand pid p hp _ hmem
      | succeed | retry | bury => exact hI.outcome hc rfl
      | release | promote | cancel | reset => rcases hs with hs | hs <;> cases hs

theorem letters_step (hI : Timely s) (h : step env s a = some s') {l : DeadLetter}
    (hl : l ∈ s'.store.db.deadLetters.rows) : s'.store.Ripe l.jobId := by
  refine Store.Ripe.step ?_ h
  rcases store_of_step h with ⟨pid, ch, c, x, hc, hx⟩ | ⟨_, hdb, _⟩
  · rw [Call.run_letters hx] at hl
    cases c with
    | moveToDeadLetter =>
      rcases List.mem_append.mp hl with hl | hl
      · exact hI.letters l hl
      · cases List.mem_singleton.mp hl
        exact hI.outcome hc rfl
    | replayWrite => exact hI.letters l (List.mem_of_mem_filter hl)
    | _ => exact hI.letters l hl
  · rw [hdb] at hl
    exact hI.letters l hl

theorem replay_step (hI : Timely s) (h : step env s a = some s') {d : Uuid}
    (hp' : s'.procs[i]? = some (.replay (.write d j))) : s'.store.Ripe j := by
  refine Store.Ripe.step ?_ h
  cases became_of_step h hp' with
  | kept hp => exact hI.replay i d j hp
  | spawned r hr => cases r <;> cases hr
  | signalled p hp hr =>
    cases p <;> cases hr
    exact hI.replay i d j hp
  | crashed hr => cases hr
  | ran hp hop he =>
    cases Proc.goes_of_next hop he with
    | replay hnext _ hends =>
      obtain ⟨_, l, hl, rfl⟩ := Replay.hasLetter_of_next hnext hends
      exact hI.letters l ((Table.find?_eq_some _).mp hl).1

theorem now_step (hI : Timely s) (h : step env s a = some s') {p' : Scheduler}
    (hp' : s'.procs[i]? = some (.scheduler p')) (hpc : p'.pc = .promote t) : t ≤ s'.store.clock := by
  refine le_trans ?_ (clock_le_of_step h)
  cases became_of_step h hp' with
  | kept hp => exact hI.now i p' t hp hpc
  | spawned r hr =>
    cases r <;> cases hr
    cases hpc
  | signalled p hp hr =>
    cases p <;> cases hr
    exact hI.now i _ t hp hpc
  | crashed hr => cases hr
  | ran hp hop he =>
    cases Proc.goes_of_next hop he with
    | scheduler hnext _ hends => exact (Scheduler.promote_of_next hnext hends hpc).le

end Timely

theorem timely_step (hI : Timely s) (h : step env s a = some s') : Timely s' where
  ready _ _ hj := hI.ready_step h hj
  scheduled _ he := hI.scheduled_step h he
  hand _ _ hp _ hx := hI.hand_step h hp hx
  attempt _ _ _ hp ha := hI.attempt_step h hp ha
  row _ _ hr hs := hI.row_step h hr hs
  letters _ hl := hI.letters_step h hl
  replay _ _ _ hp := hI.replay_step h hp
  now _ _ _ hp hpc := hI.now_step h hp hpc

theorem timely_of_reachable {ok : State → Action → Prop} {t : Nat}
    (h : Reachable ok (step env) (.init t) s) : Timely s :=
  h.invariant (timely_init t) fun _ _ _ hI _ => timely_step hI

/-- No handler execution of a job starts before its `scheduled_for`. -/
theorem scheduledFor_le_of_starts {t₀ : Nat} (h : Reachable Unrestricted (step env) (.init t₀) s)
    (hs : s.Starts a j) :
    ∃ r, s.store.db.job? j = some r ∧ ∀ t, r.scheduledFor = some t → t ≤ s.store.clock := by
  obtain ⟨pid, _, p, hp, hj⟩ := hs
  obtain ⟨job, hjob, rfl⟩ := Option.map_eq_some_iff.mp hj
  exact (timely_of_reachable h).attempt pid p job hp (Proc.attempt?_of_starting? hjob)

def delayed : JobCreateRequest := { report with scheduledFor := some (seconds 60) }

/-- A job delayed by a minute comes to its handler after that minute. -/
theorem scheduledFor_le_of_starts_minute : ∃ s r, Reachable Unrestricted (step minutely) (.init 0) s ∧
    s.Starts (.run 2 {}) 7 ∧ s.store.db.job? 7 = some r ∧ r.scheduledFor = some (seconds 60) ∧
    seconds 60 ≤ s.store.clock := by
  obtain ⟨s, h, hs⟩ : ∃ s, Reachable Unrestricted (step minutely) (.init 0) s ∧ _ :=
    exists_reachable_of_exec ([.spawn (.submit delayed), .run 0 {}, .run 0 { freshId := 7 }] ++ calls 0 2 ++
        [.tick 60000000, .spawn .scheduler] ++ calls 1 5 ++ [.spawn .worker] ++ calls 2 4)
      (fun s => s.Starts (.run 2 {}) 7 ∧ ∃ r ∈ s.store.db.job? 7, r.scheduledFor = some (seconds 60))
      (by decide)
  obtain ⟨hstarts, r, hr, ht⟩ := of_decide_eq_true hs
  obtain ⟨r', hr', hle⟩ := scheduledFor_le_of_starts h hstarts
  cases hr.symm.trans hr'
  exact ⟨s, r, h, hstarts, hr, ht, hle _ ht⟩

end DistribuQ
