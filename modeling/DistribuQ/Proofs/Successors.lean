import DistribuQ.Proofs.Recurrence
import DistribuQ.Proofs.Carried

/-! What becomes of a recurring job once it has succeeded. -/

namespace DistribuQ
open Transition
variable {env : Env} {s s' : State} {a : Action} {j k : Uuid} {r r' : Job}

namespace Worker.Pc

/-- The job of which `process_job` may yet write the outcome or insert the next occurrence. -/
def owing? : Pc → Option LockedJob
  | emitRunning job | handler job | markSuccess job _ | emitSuccess job | computeNextRun job _
  | scheduleNext job _ _ | computeRetry job _ | markRetrying job _ _ | moveToDeadLetter job _ => some job
  | _ => none

/-- What the worker calls does not raise, where the job would be given up. -/
def Proceeds (env : Env) (now : Time) (ch : Choice) : Pc → Prop
  | handler _ => ch.exits = false
  | computeNextRun _ rule => (env.computeNextRun rule now).isSome
  | computeRetry job _ =>
    (Retry.computeNextRetryAt now job.attempts (baseDelay job.payload) ch.draw).isSome
  | scheduleNext .. | markRetrying .. | moveToDeadLetter .. => ∀ e, ch.fault ≠ .raised e
  | _ => True

/-- The rule a worker schedules by is its job's. -/
def Ruled : Pc → Prop
  | computeNextRun job rule | scheduleNext job rule _ => job.recurrenceRule = some rule
  | _ => True

theorem job?_of_owing? {pc : Pc} {job : LockedJob} (h : pc.owing? = some job) : pc.job? = some job := by
  cases pc <;> first | exact h | cases h

end Worker.Pc

namespace Worker
variable {w : WorkerId} {ch : Choice} {st st' : Store} {pc pc' : Pc} {c : Call} {job : LockedJob}

theorem ruled_afterSuccess : (afterSuccess job).Ruled := by
  unfold afterSuccess
  split
  · rename_i rule hrule
    split_ifs
    · exact hrule
    · trivial
  · trivial

theorem ruled_of_goes (h : pc.Goes env w ch st st' c pc') (hr : pc.Ruled) : pc'.Ruled := by
  cases h with
  | raised | successFault =>
    exact onFailure_cases (P := Pc.Ruled) _ (fun _ => trivial) fun _ => trivial
  | emitSuccess => exact ruled_afterSuccess
  | recurs => exact hr
  | _ => trivial

theorem afterSuccess_of_rule {rule : String} (hrule : job.recurrenceRule = some rule) (hne : rule ≠ "") :
    afterSuccess job = .computeNextRun job rule := by
  unfold afterSuccess
  rw [hrule]
  exact if_pos hne

@[simp] theorem owing?_onFailure (e : String) : (onFailure job e).owing? = some job :=
  onFailure_cases (P := fun pc => pc.owing? = some job) e (fun _ => rfl) fun _ => rfl

/-- A worker lets go of the job of a recurring row with the insert, or with another outcome. -/
theorem owing_of_goes {rule : String} (h : pc.Goes env w ch st st' c pc') (ho : pc.owing? = some job)
    (hp : pc.Proceeds env st.clock ch) (hrule : job.recurrenceRule = some rule) (hne : rule ≠ "") :
    pc'.owing? = some job ∨ (∀ e, ch.fault ≠ .raised e) ∧
      ((∃ rule t, pc = .scheduleNext job rule t ∧ c = .scheduleNextOccurrence (nextOccurrence job rule t)) ∨
        (∃ e t, c = .markJobRetrying job.id e t) ∨ ∃ e n, c = .moveToDeadLetter job.id e n) := by
  cases h with
  | raised | successFault =>
    cases ho
    exact .inl (owing?_onFailure _)
  | exits hraised =>
    have hstays : ch.exits = false := hp
    cases hstays.symm.trans (Choice.exits_of_raised hraised)
  | emitSuccess =>
    cases ho
    exact .inl (by rw [afterSuccess_of_rule hrule hne]; rfl)
  | badRule hnone | noDelay hnone =>
    simp only [Pc.Proceeds, hnone, Option.isSome_none, Bool.false_eq_true] at hp
  | scheduled | scheduleFault =>
    cases ho
    exact .inr ⟨hp, .inl ⟨_, _, rfl, rfl⟩⟩
  | retried | retryFault =>
    cases ho
    exact .inr ⟨hp, .inr (.inl ⟨_, _, rfl⟩)⟩
  | buried | buryFault =>
    cases ho
    exact .inr ⟨hp, .inr (.inr ⟨_, _, rfl⟩)⟩
  | _ => first | exact .inl ho | cases ho

theorem owing_of_markSuccess {j : Uuid} {v : Json} (h : pc.Goes env w ch st st' (.markJobSuccess j v) pc') :
    ∃ job, pc'.owing? = some job ∧ job.id = j := by
  generalize hc : Call.markJobSuccess j v = c at h
  cases h with
  | succeeded =>
    cases hc
    exact ⟨_, rfl, rfl⟩
  | successFault =>
    cases hc
    exact ⟨_, owing?_onFailure _, rfl⟩
  | _ => cases hc

end Worker

/-- The row of `j` is `SUCCESS` and recurs; a job with the empty rule does not. -/
def State.Recurred (s : State) (j : Uuid) : Prop :=
  ∃ r ∈ s.store.db.job? j, r.status = .success ∧ ∃ rule ∈ r.recurrenceRule, rule ≠ ""

/-- Worker `i` may yet write the outcome of `j` or insert the next occurrence. -/
def State.Owes (s : State) (i : Nat) (j : Uuid) : Prop :=
  ∃ p, s.procs[i]? = some p ∧ ∃ job, p.ofPc Worker.Pc.owing? = some job ∧ job.id = j

/-- The last worker that can do more for a recurring job in `SUCCESS` neither crashes nor meets an exception
where it gives the job up. -/
def LastProceeds (env : Env) (s : State) (a : Action) : Prop :=
  ∀ (i : Nat) (j : Uuid), s.Recurred j → s.Owes i j → (∀ i', s.Owes i' j → i' = i) →
    a ≠ .crash i ∧ ∀ ch, a = .run i ch → ∀ w, s.procs[i]? = some (.worker w) →
      w.pc.Proceeds env s.store.clock ch

/-- The row repeats another in all but its due time. -/
structure Job.Repeats (r r' : Job) : Prop where
  type : r'.type = r.type
  payload : r'.payload = r.payload
  priority : r'.priority = r.priority
  maxAttempts : r'.maxAttempts = r.maxAttempts
  recurrenceRule : r'.recurrenceRule = r.recurrenceRule

theorem Job.Repeats.of_origin {r₁ r₁' : Job} (h : r.Repeats r') (hr : r₁.origin = r.origin)
    (hr' : r₁'.origin = r'.origin) : r₁.Repeats r₁' := by
  simp only [Job.origin, NewJob.mk.injEq] at hr hr'
  obtain ⟨htype, hpayload, hpriority, hmax, _, hrule⟩ := hr
  obtain ⟨htype', hpayload', hpriority', hmax', _, hrule'⟩ := hr'
  exact ⟨by rw [htype', h.type, htype], by rw [hpayload', h.payload, hpayload],
    by rw [hpriority', h.priority, hpriority], by rw [hmax', h.maxAttempts, hmax],
    by rw [hrule', h.recurrenceRule, hrule]⟩

/-- Every recurring job in `SUCCESS` is in the hands of a worker inside `process_job`, or has a successor with
the columns it was submitted with. A row is inserted `PENDING` and stays. -/
def SuccessorsExist (env : Env) (ok : State → Action → Prop) : Prop :=
  ∀ t tr s j r rule, Run ok (step env) (.init t) tr s → s.store.db.job? j = some r → r.status = .success →
    r.recurrenceRule = some rule → rule ≠ "" →
    (∃ p ∈ s.procs, ∃ job, p.job? = some job ∧ job.id = j) ∨
    ∃ k r', Successor env tr j k ∧ s.store.db.job? k = some r' ∧ r.Repeats r'

theorem success_of_step (h : step env s a = some s') (hr' : s'.store.db.job? j = some r')
    (hs : r'.status = .success) :
    (∃ r, s.store.db.job? j = some r ∧ r.status = .success ∧ r'.origin = r.origin) ∨
    ∃ pid v, s.call? env a = some (pid, .markJobSuccess j v) := by
  cases hr : s.store.db.job? j with
  | none =>
    obtain ⟨pid, ch, c, _, hrow, _⟩ := step_job?_none h hr hr'
    cases c <;> cases hrow <;> cases hs
  | some r =>
    rcases step_job? h hr with hkept | ⟨pid, c, hc, hwritten⟩
    · obtain rfl : r = r' := Option.some.inj (hkept.symm.trans hr')
      exact .inl ⟨r, rfl, hs, rfl⟩
    · cases hr'.symm.trans hwritten
      have horigin : (c.rewrite s.store r).origin = r.origin := Call.origin_rewrite
      have hw : c.Writes s.store r _ := Call.writes_rewrite c
      generalize c.rewrite s.store r = r' at hw hs horigin ⊢
      cases hw with
      | kept => exact .inl ⟨r, rfl, hs, rfl⟩
      | succeed v => exact .inr ⟨pid, v, Database.id_of_job? hr ▸ hc⟩
      | lock | retry | bury | release | promote | cancel | reset => cases hs

theorem Carried.recurs (hC : Carried s) {i : Nat} {p : Proc} {job : LockedJob} (hp : s.procs[i]? = some p)
    (ho : p.ofPc Worker.Pc.owing? = some job) (hr : s.store.db.job? job.id = some r) :
    job.type = r.type ∧ job.payload = r.payload ∧ job.priority = r.priority ∧
      job.maxAttempts = r.maxAttempts ∧ job.recurrenceRule = r.recurrenceRule := by
  have hjob : p.job? = some job := by
    cases p with
    | worker => exact Worker.Pc.job?_of_owing? ho
    | _ => cases ho
  obtain ⟨r₀, hr₀, hrow⟩ := hC i p job hp hjob
  cases hr.symm.trans hr₀
  rw [hrow]
  exact ⟨rfl, rfl, rfl, rfl, rfl⟩

/-- The step of another process, or a heartbeat or a signal, leaves a worker where it is. -/
theorem owes_of_idle {i : Nat} (ho : s.Owes i j) (h : step env s a = some s') (hrun : ∀ ch, a ≠ .run i ch)
    (hcrash : a ≠ .crash i) : s'.Owes i j := by
  obtain ⟨p, hp, job, hjob, hid⟩ := ho
  obtain ⟨p', hp'⟩ := exists_proc_of_step h hp
  refine ⟨p', hp', job, ?_, hid⟩
  cases became_of_step h hp' with
  | kept hp₁ =>
    cases hp.symm.trans hp₁
    exact hjob
  | spawned _ _ hi => exact absurd (hi ▸ hp) (by simp)
  | signalled p₁ hp₁ hr =>
    cases hp.symm.trans hp₁
    rw [hr, Proc.ofPc_signal, hjob]
  | crashed => exact absurd rfl hcrash
  | ran => exact absurd rfl (hrun _)

theorem scheduling?_eq_some {pc : Worker.Pc} {job : LockedJob} {rule : String} {t : Time}
    (h : pc = .scheduleNext job rule t) : pc.scheduling? = some job := by
  rw [h]
  rfl

/-- A worker that proceeds keeps the job, or inserts the successor, or has written another outcome. -/
theorem owes_of_run {i : Nat} {ch : Choice} {w : Worker} {job : LockedJob} {rule : String} (hC : Carried s)
    (hR : w.pc.Ruled) (hp : s.procs[i]? = some (.worker w)) (ho : w.pc.owing? = some job)
    (hpro : w.pc.Proceeds env s.store.clock ch) (hr : s.store.db.job? job.id = some r)
    (hrule : r.recurrenceRule = some rule) (hne : rule ≠ "") (h : step env s (.run i ch) = some s') :
    s'.Owes i job.id ∨
    (∃ k r', s.successor? env (.run i ch) = some (job.id, k) ∧ s'.store.db.job? k = some r' ∧ r.Repeats r') ∨
    ∃ r', s'.store.db.job? job.id = some r' ∧ r'.status ≠ .success := by
  obtain ⟨htype, hpayload, hpriority, hmax, hjobrule⟩ := hC.recurs hp ho hr
  obtain ⟨w', op, hends, hg, hp', hcall⟩ := worker_of_step hp h
  rcases Worker.owing_of_goes hg ho hpro (hjobrule.trans hrule) hne with hkept | ⟨hf, hleft⟩
  · exact .inl ⟨_, hp', job, hkept, rfl⟩
  have hc := hcall hf
  have hrun := hends.run_of_ne_raised hf
  have hrow := decide_eq_true (Database.id_of_job? hr)
  rcases hleft with ⟨rule', t, hpc, hinsert⟩ | ⟨e, t, hretry⟩ | ⟨e, n, hbury⟩
  · rw [hinsert] at hrun hc
    obtain ⟨row, hrun⟩ := hrun
    obtain ⟨hnew, rfl⟩ := Call.row_of_inserted hrun
    have hrule' : job.recurrenceRule = some rule' := by
      rw [hpc] at hR
      exact hR
    refine .inr (.inl ⟨_, _, ?_, hnew, ⟨htype, hpayload, hpriority, hmax, hrule'.symm.trans hjobrule⟩⟩)
    unfold State.successor?
    dsimp only
    rw [hc, hp, Option.bind_some, Proc.ofPc, scheduling?_eq_some hpc]
    rfl
  · rw [hretry] at hrun
    obtain ⟨_, hrun⟩ := hrun
    exact .inr (.inr ⟨_, Call.run_job?_of_update hrun hr rfl hrow, fun h => by cases h⟩)
  · rw [hbury] at hrun
    obtain ⟨_, hrun⟩ := hrun
    exact .inr (.inr ⟨_, Call.run_job?_of_update hrun hr rfl hrow, fun h => by cases h⟩)

theorem owes_of_succeeded {pid : Nat} {v : Json} (h : step env s a = some s')
    (hc : s.call? env a = some (pid, .markJobSuccess j v)) : s'.Owes pid j := by
  obtain ⟨ch, p, op, hp, ⟨rfl, hop⟩ | ⟨rfl, hop⟩, hcall⟩ := call?_eq_some hc
  · obtain ⟨_, p', op', hp₁, hop₁, he, _, hp'⟩ := ran_of_step h
    cases hp.symm.trans hp₁
    cases hop.symm.trans hop₁
    have hmakes := Proc.makes_of_next hop
    rw [hcall] at hmakes
    obtain ⟨_, hattempt, _⟩ := hmakes.attempt rfl
    cases hcall ▸ Proc.goes_of_next hop he with
    | worker hnext hcall' hends =>
      obtain ⟨job, hjob, hid⟩ := Worker.owing_of_markSuccess (hcall' ▸ Worker.goes_of_next hnext hends)
      exact ⟨_, hp', job, hjob, hid⟩
    | _ => cases hattempt
  · obtain ⟨n, rfl⟩ := heartbeat_eq_some hop
    cases hcall

/-- What `SuccessorsExist` says, of the workers that may yet insert a successor. -/
def Continued (env : Env) (tr : List (State × Action)) (s : State) : Prop :=
  ∀ j r, s.store.db.job? j = some r → r.status = .success → (∃ rule ∈ r.recurrenceRule, rule ≠ "") →
    (∃ i, s.Owes i j) ∨ ∃ k r', Successor env tr j k ∧ s.store.db.job? k = some r' ∧ r.Repeats r'

theorem Job.recurrenceRule_of_origin (h : r'.origin = r.origin) : r'.recurrenceRule = r.recurrenceRule :=
  congrArg NewJob.recurrenceRule h

theorem continued_step {tr : List (State × Action)} (hC : Carried s)
    (hR : ∀ (i : Nat) (w : Worker), s.procs[i]? = some (.worker w) → w.pc.Ruled) (hI : Continued env tr s)
    (hok : LastProceeds env s a) (h : step env s a = some s') : Continued env (tr ++ [(s, a)]) s' := by
  intro j r' hr' hs ⟨rule, hrule, hne⟩
  rcases success_of_step h hr' hs with ⟨r, hr, hsr, horigin⟩ | ⟨pid, v, hc⟩
  swap
  · exact .inl ⟨pid, owes_of_succeeded h hc⟩
  have hrule' : r.recurrenceRule = some rule := (Job.recurrenceRule_of_origin horigin).symm.trans hrule
  rcases hI j r hr hsr ⟨rule, hrule', hne⟩ with ⟨i, ho⟩ | ⟨k, rk, ⟨x, hx, hk⟩, hrk, hrep⟩
  · by_cases hlast : ∀ i', s.Owes i' j → i' = i
    · obtain ⟨hcrash, hpro⟩ := hok i j ⟨r, hr, hsr, rule, hrule', hne⟩ ho hlast
      by_cases hruns : ∃ ch, a = .run i ch
      · obtain ⟨ch, rfl⟩ := hruns
        obtain ⟨p, hp, job, hjob, rfl⟩ := ho
        cases p with
        | worker w =>
          rcases owes_of_run hC (hR i w hp) hp hjob (hpro ch rfl w hp) hr hrule' hne h with
            howes | ⟨k, rk, hk, hrk, hrep⟩ | ⟨r₁, hr₁, hne₁⟩
          · exact .inl ⟨i, howes⟩
          · exact .inr ⟨k, rk, ⟨_, List.mem_append_right _ List.mem_cons_self, hk⟩, hrk,
              hrep.of_origin horigin rfl⟩
          · cases hr'.symm.trans hr₁
            exact absurd hs hne₁
        | _ => cases hjob
      · exact .inl ⟨i, owes_of_idle ho h (not_exists.mp hruns) hcrash⟩
    · -- a step moves one worker, and two have the job
      push Not at hlast
      obtain ⟨i', ho', hne'⟩ := hlast
      by_cases hi : (∃ ch, a = .run i ch) ∨ a = .crash i
      · refine .inl ⟨i', owes_of_idle ho' h ?_ ?_⟩
        · rintro ch rfl
          rcases hi with ⟨_, hi⟩ | hi <;> cases hi
          exact hne' rfl
        · rintro rfl
          rcases hi with ⟨_, hi⟩ | hi <;> cases hi
          exact hne' rfl
      · rw [not_or, not_exists] at hi
        exact .inl ⟨i, owes_of_idle ho h hi.1 hi.2⟩
  · obtain ⟨rk', hrk', hkept⟩ := step_origin h hrk
    exact .inr ⟨k, rk', ⟨x, List.mem_append_left _ hx, hk⟩, hrk', hrep.of_origin horigin hkept⟩

theorem successorsExist_of_last (env : Env) : SuccessorsExist env (LastProceeds env) := by
  intro t tr s j r rule h hr hs hrule hne
  have hI : Continued env tr s := by
    refine h.invariant_trace (I := fun tr s => Continued env tr s) (by intro j r hr; cases hr) ?_
    intro tr s a s' hrun hI hok hstep
    exact continued_step (carried_of_reachable hrun.reachable)
      (pcs_of_reachable trivial (fun _ _ _ _ _ _ _ => Worker.ruled_of_goes) hrun.reachable) hI hok hstep
  refine (hI j r hr hs ⟨rule, hrule, hne⟩).imp_left ?_
  rintro ⟨i, p, hp, job, hjob, hid⟩
  cases p with
  | worker w => exact ⟨_, List.mem_of_getElem? hp, job, Worker.Pc.job?_of_owing? hjob, hid⟩
  | _ => cases hjob

/-- Job 7 recurs and has succeeded, and worker 1 is about to insert the next occurrence. -/
def succeeded : List Action := taken { report with recurrenceRule := some "* * * * *" } ++ calls 1 4

/-- Where nothing fails and no attempt is made at a job in `SUCCESS`, every worker goes on to the insert. -/
theorem lastProceeds_of_no_fault (hplan : ∀ rule now, (env.computeNextRun rule now).isSome = true) (hf : NoFault a)
    (hlives : NoCrash a) (hstays : NoExit a)
    (hattempts : ∀ p ∈ s.procs, ∀ job ∈ p.attempt?, s.store.db.status? job.id ≠ some .success) :
    LastProceeds env s a := by
  rintro i j ⟨r, hr, hs, _⟩ ⟨p, hp, job, hjob, rfl⟩ _
  constructor
  · rintro rfl
    cases hlives
  · rintro ch rfl w hw
    obtain rfl : p = .worker w := Option.some.inj (hp.symm.trans hw)
    obtain ⟨pc, running, n⟩ := w
    cases pc with
    | handler => exact hstays
    | computeNextRun => exact hplan _ _
    | computeRetry job' e =>
      cases hjob
      exact absurd ((Database.status?_of_job? hr).trans (congrArg some hs))
        (hattempts _ (List.mem_of_getElem? hp) _ rfl)
    | scheduleNext | markRetrying | moveToDeadLetter =>
      intro e he
      cases (show ch.fault = .none from hf).symm.trans he
    | _ => trivial

/-- The worker of job 7 inserts its next occurrence, 8, and leaves `process_job`. -/
theorem successorsExist_of_last_inserted : ∃ tr s, Run (LastProceeds minutely) (step minutely) (.init 0) tr s ∧
    ∃ k r, Successor minutely tr 7 k ∧ s.store.db.job? k = some r ∧ r.recurrenceRule = some "* * * * *" := by
  obtain ⟨tr, s, h, hs⟩ : ∃ tr s, Run (fun s a => (NoFault a ∧ NoCrash a ∧ NoExit a) ∧
      ∀ p ∈ s.procs, ∀ job ∈ p.attempt?, s.store.db.status? job.id ≠ some .success)
      (step minutely) (.init 0) tr s ∧ _ :=
    exists_run_of_exec (succeeded ++ [.run 1 { freshId := 8 }] ++ calls 1 2) (fun _ s =>
      (∃ r ∈ s.store.db.job? 7, r.status = .success ∧ r.recurrenceRule = some "* * * * *") ∧
      ∀ p ∈ s.procs, p.job?.isNone = true) (by decide)
  obtain ⟨⟨r, hr, hs, hrule⟩, hidle⟩ := of_decide_eq_true hs
  have hlast : Run (LastProceeds minutely) (step minutely) (.init 0) tr s :=
    h.mono fun _ _ hok =>
      lastProceeds_of_no_fault (fun _ _ => rfl) hok.1.1 hok.1.2.1 hok.1.2.2 hok.2
  refine ⟨tr, s, hlast, ?_⟩
  rcases successorsExist_of_last minutely 0 tr s 7 r _ hlast hr hs hrule (by decide) with
    ⟨p, hp, job, hjob, _⟩ | ⟨k, r', hk, hr', hrepeats⟩
  · have hfree := hidle p hp
    rw [hjob] at hfree
    cases hfree
  · exact ⟨k, r', hk, hr', hrepeats.recurrenceRule.trans hrule⟩

/-- Job 7 has succeeded, no worker is inside `process_job`, and no successor of the job was inserted. -/
def Abandoned (tr : List (State × Action)) (s : State) : Bool :=
  decide ((∃ r ∈ s.store.db.job? 7, r.status = .success ∧ r.recurrenceRule = some "* * * * *") ∧
    (∀ p ∈ s.procs, p.job?.isNone = true) ∧ successors minutely 7 tr = 0)

theorem not_successorsExist_of_run {ok : State → Action → Prop} {tr : List (State × Action)}
    (h : Run ok (step minutely) (.init 0) tr s) (ha : Abandoned tr s = true) :
    ¬ SuccessorsExist minutely ok := by
  intro law
  obtain ⟨⟨r, hr, hs, hrule⟩, hidle, hnone⟩ := of_decide_eq_true ha
  rcases law 0 tr s 7 r _ h hr hs hrule (by decide) with ⟨p, hp, job, hjob, _⟩ | ⟨k, _, hk, _⟩
  · have hfree := hidle p hp
    rw [hjob] at hfree
    cases hfree
  · have hpos := successor_of_mem hk
    omega

/-- The insert raises, or the worker crashes before it. -/
theorem not_successorsExist : (¬ SuccessorsExist minutely fun _ a => NoCrash a ∧ NoCancel a ∧ NoReplay a) ∧
    ¬ SuccessorsExist minutely fun _ a => NoFault a ∧ NoCancel a ∧ NoReplay a := by
  constructor
  · obtain ⟨tr, s, h, ha⟩ : ∃ tr s, Run (fun _ a => NoCrash a ∧ NoCancel a ∧ NoReplay a) (step minutely)
        (.init 0) tr s ∧ Abandoned tr s = true :=
      exists_run_of_exec (succeeded ++ [.run 1 { fault := .raised "down" }, .run 1 {}]) Abandoned (by decide)
    exact not_successorsExist_of_run h ha
  · obtain ⟨tr, s, h, ha⟩ : ∃ tr s, Run (fun _ a => NoFault a ∧ NoCancel a ∧ NoReplay a) (step minutely)
        (.init 0) tr s ∧ Abandoned tr s = true :=
      exists_run_of_exec (succeeded ++ [.crash 1]) Abandoned (by decide)
    exact not_successorsExist_of_run h ha

end DistribuQ
