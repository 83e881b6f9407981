import DistribuQ.Proofs.Carried

/-! Where the results and the errors in the tables come from. -/

namespace DistribuQ
open Transition
variable {env : Env} {s s' : State} {a : Action} {tr : List (State × Action)} {job : LockedJob} {r r' : Job}

/-- Some attempt of `process_job` at `job` has executed its handler, with this outcome. -/
def HandlerEnded (tr : List (State × Action)) (job : LockedJob) (outcome : Except Raised Json) : Prop :=
  ∃ x ∈ tr, ∃ pid ch p, x.2 = .run pid ch ∧ x.1.procs[pid]? = some (.worker p) ∧ p.pc = .handler job ∧
    ch.outcome = outcome

/-- The handler has returned, and `mark_job_success` has raised. -/
def SuccessRaised (tr : List (State × Action)) (job : LockedJob) (e : String) : Prop :=
  ∃ x ∈ tr, ∃ pid ch p v, x.2 = .run pid ch ∧ x.1.procs[pid]? = some (.worker p) ∧ p.pc = .markSuccess job v ∧
    (ch.fault = .raised e ∨ ch.fault = .lost e)

/-- An attempt at `job` has failed with this error. -/
def AttemptFailed (tr : List (State × Action)) (job : LockedJob) (e : String) : Prop :=
  HandlerEnded tr job (.error (.exception e)) ∨ SuccessRaised tr job e

/-- A `cancel_job` has found `j` pending. -/
def CancelWrote (env : Env) (tr : List (State × Action)) (j : Uuid) : Prop :=
  ∃ x ∈ tr, ∃ pid, x.1.call? env x.2 = some (pid, .cancelUpdate j) ∧ x.1.store.db.status? j = some .pending

/-- `job` is what a lock of this row returns, but for the number of the attempt. -/
def LockedJob.Of (job : LockedJob) (r : Job) : Prop := job = { r.toLocked with attempts := job.attempts }

/-- The result and the error of a row come from attempts at its job. -/
structure Job.Sourced (env : Env) (tr : List (State × Action)) (r : Job) : Prop where
  result : ∀ v, r.result = some v → ∃ job, job.Of r ∧ HandlerEnded tr job (.ok v)
  success : r.status = .success → ∃ job v, job.Of r ∧ HandlerEnded tr job (.ok v) ∧ r.result = v.column
  error : ∀ e, r.error = some e → (∃ job, job.Of r ∧ AttemptFailed tr job e) ∨
    e = "Job cancelled by user" ∧ CancelWrote env tr r.id
  failed : r.status = .retrying ∨ r.status = .deadLetter → ∃ job e, job.Of r ∧ AttemptFailed tr job e ∧
    r.error = some e

/-- A dead letter tells of an attempt that had failed, the last one its job was allowed. -/
def DeadLetter.Sourced (tr : List (State × Action)) (db : Database) (l : DeadLetter) : Prop :=
  ∃ r job, db.job? l.jobId = some r ∧ job.Of r ∧ AttemptFailed tr job l.finalError ∧
    l.attemptsMade = job.attempts ∧ r.maxAttempts ≤ l.attemptsMade

/-- What a worker is about to write comes from its own attempt. -/
def Worker.Pc.Sourced (tr : List (State × Action)) : Worker.Pc → Prop
  | markSuccess job v => HandlerEnded tr job (.ok v)
  | computeRetry job e | markRetrying job e _ | moveToDeadLetter job e => AttemptFailed tr job e
  | _ => True

theorem HandlerEnded.mono {o : Except Raised Json} (h : HandlerEnded tr job o) (x : State × Action) :
    HandlerEnded (tr ++ [x]) job o := by
  obtain ⟨y, hy, h⟩ := h
  exact ⟨y, List.mem_append_left _ hy, h⟩

theorem AttemptFailed.mono {e : String} (h : AttemptFailed tr job e) (x : State × Action) :
    AttemptFailed (tr ++ [x]) job e := by
  rcases h with h | ⟨y, hy, h⟩
  · exact .inl (h.mono x)
  · exact .inr ⟨y, List.mem_append_left _ hy, h⟩

theorem LockedJob.Of.congr (h : job.Of r) (hid : r'.id = r.id) (horigin : r'.origin = r.origin) :
    job.Of r' := by
  rw [Of, toLocked_congr hid horigin]
  exact h

/-- A row keeps its sources through a step that changes neither its status, its result nor its error. -/
theorem Job.Sourced.keep (h : r.Sourced env tr) (x : State × Action) (hid : r'.id = r.id)
    (horigin : r'.origin = r.origin) (hresult : r'.result = r.result) (herror : r'.error = r.error)
    (hstatus : r'.status ≠ r.status → r'.status = .running ∨ r'.status = .pending) :
    r'.Sourced env (tr ++ [x]) := by
  refine ⟨fun v hv => ?_, fun hs => ?_, fun e he => ?_, fun hs => ?_⟩
  · obtain ⟨job, hjob, hended⟩ := h.result v (hresult ▸ hv)
    exact ⟨job, hjob.congr hid horigin, hended.mono x⟩
  · have hsame : r'.status = r.status := by
      by_contra hne
      rcases hstatus hne with h | h <;> rw [h] at hs <;> cases hs
    obtain ⟨job, v, hjob, hended, hv⟩ := h.success (hsame ▸ hs)
    exact ⟨job, v, hjob.congr hid horigin, hended.mono x, hresult.trans hv⟩
  · rcases h.error e (herror ▸ he) with ⟨job, hjob, hfailed⟩ | ⟨rfl, y, hy, hcancel⟩
    · exact .inl ⟨job, hjob.congr hid horigin, hfailed.mono x⟩
    · exact .inr ⟨rfl, y, List.mem_append_left _ hy, hid ▸ hcancel⟩
  · have hsame : r'.status = r.status := by
      by_contra hne
      rcases hstatus hne with h | h <;> rw [h] at hs <;> rcases hs with hs | hs <;> cases hs
    obtain ⟨job, e, hjob, hfailed, he⟩ := h.failed (hsame ▸ hs)
    exact ⟨job, e, hjob.congr hid horigin, hfailed.mono x, herror.trans he⟩

/-- A row whose attempt has failed. -/
theorem Job.Sourced.fail {e : String} {x : State × Action} (h : r.Sourced env tr) (hof : job.Of r')
    (hfailed : AttemptFailed (tr ++ [x]) job e) (hid : r'.id = r.id) (hresult : r'.result = r.result)
    (horigin : r'.origin = r.origin) (hstatus : r'.status ≠ .success) (herror : r'.error = some e) :
    r'.Sourced env (tr ++ [x]) := by
  refine ⟨fun v hv => ?_, fun hs => absurd hs hstatus, fun e' he => ?_, fun _ => ⟨job, e, hof, hfailed, herror⟩⟩
  · obtain ⟨job, hof, hended⟩ := h.result v (hresult ▸ hv)
    exact ⟨job, hof.congr hid horigin, hended.mono _⟩
  · cases herror.symm.trans he
    exact .inl ⟨job, hof, hfailed⟩

theorem Json.column_eq_some {v v' : Json} (h : v.column = some v') : v' = v := by
  cases v <;> cases h <;> rfl

namespace Worker
variable {w : WorkerId} {ch : Choice} {st st' : Store}

theorem sourced_onFailure {e : String} (h : AttemptFailed tr job e) : (onFailure job e).Sourced tr :=
  onFailure_cases (P := Pc.Sourced tr) e (fun _ => h) fun _ => h

theorem sourced_afterSuccess : (afterSuccess job).Sourced tr :=
  afterSuccess_cases (P := Pc.Sourced tr) (fun _ => trivial) trivial

theorem Pc.Sourced.mono {pc : Pc} (h : pc.Sourced tr) (x : State × Action) : pc.Sourced (tr ++ [x]) := by
  cases pc with
  | markSuccess => exact HandlerEnded.mono h x
  | computeRetry | markRetrying | moveToDeadLetter => exact AttemptFailed.mono h x
  | _ => trivial

/-- The step of a worker makes the source of what it goes on to write. -/
theorem sourced_of_next {p p' : Worker} {op : Op Worker} {pid : Nat} (hp : s.procs[pid]? = some (.worker p))
    (hop : p.next w = some op) (he : op.Ends env ch st st' p') (h : p.pc.Sourced tr) :
    p'.pc.Sourced (tr ++ [(s, .run pid ch)]) := by
  have hlast : (s, Action.run pid ch) ∈ tr ++ [(s, .run pid ch)] :=
      List.mem_append_right _ (List.mem_singleton_self _)
  by_cases hcommit : ∃ job v, p.pc = .markSuccess job v
  · obtain ⟨job, v, hpc⟩ := hcommit
    rw [next, hpc] at hop
    cases hop
    cases he with
    | returned => trivial
    | raised hf => exact sourced_onFailure (.inr ⟨_, hlast, pid, ch, p, v, rfl, hp, hpc, .inl hf⟩)
    | lost hf => exact sourced_onFailure (.inr ⟨_, hlast, pid, ch, p, v, rfl, hp, hpc, .inr hf⟩)
  · have hgoes := goes_of_next hop he
    generalize hpc : p.pc = pc, p'.pc = pc', op.call = c at hgoes h hcommit
    cases hgoes with
    | returned hv => exact ⟨_, hlast, pid, ch, p, rfl, hp, hpc, hv⟩
    | raised hv => exact sourced_onFailure (.inl ⟨_, hlast, pid, ch, p, rfl, hp, hpc, hv⟩)
    | succeeded | successFault => exact absurd ⟨_, _, rfl⟩ hcommit
    | emitSuccess => exact sourced_afterSuccess
    | delayed => exact h.mono _
    | _ => trivial

end Worker

/-- Everything a run has written, or is about to write, of results and errors has its source in the run. -/
structure Sourced (env : Env) (tr : List (State × Action)) (s : State) : Prop where
  pcs : ∀ (i : Nat) (p : Worker), s.procs[i]? = some (.worker p) → p.pc.Sourced tr
  rows : ∀ j r, s.store.db.job? j = some r → r.Sourced env tr
  letters : ∀ l ∈ s.store.db.deadLetters.rows, l.Sourced tr s.store.db

theorem sourced_pcs (hI : Sourced env tr s) (h : step env s a = some s') (i : Nat) (p' : Worker)
    (hp' : s'.procs[i]? = some (.worker p')) : p'.pc.Sourced (tr ++ [(s, a)]) := by
  cases became_of_step h hp' with
  | kept hp => exact (hI.pcs i p' hp).mono _
  | spawned r hr =>
    cases r <;> cases hr
    trivial
  | signalled p hp hr =>
    cases p <;> cases hr
    exact (hI.pcs i _ hp).mono _
  | crashed hr => cases hr
  | ran hp hop he =>
    cases Proc.goes_of_next hop he with
    | worker hnext _ hends => exact Worker.sourced_of_next hp hnext hends (hI.pcs i _ hp)

/-- What a call writes of an outcome is that of an attempt at the job whose row it writes. -/
def Call.Sourced (tr : List (State × Action)) (db : Database) : Call → Prop
  | markJobSuccess j v => ∃ r job, db.job? j = some r ∧ job.Of r ∧ HandlerEnded tr job (.ok v)
  | markJobRetrying j e _ => ∃ r job, db.job? j = some r ∧ job.Of r ∧ AttemptFailed tr job e
  | moveToDeadLetter j e n => ∃ r job, db.job? j = some r ∧ job.Of r ∧ AttemptFailed tr job e ∧
    n = job.attempts ∧
      r.maxAttempts ≤ n
  | _ => True

theorem sourced_of_call? {pid : Nat} {c : Call} (hC : Carried s) (hJ : Judged s) (hI : Sourced env tr s)
    (hc : s.call? env a = some (pid, c)) : c.Sourced tr s.store.db := by
  rcases makes_of_call? hc with ⟨ch, p, rfl, hp, hm⟩ | ⟨_, _, _, rfl⟩
  · cases hm with
    | @succeed p job v hpc =>
      obtain ⟨r, hr, hof⟩ := hC pid _ job hp (by rw [Proc.job?, Proc.ofPc, hpc]; rfl)
      have hsource := hI.pcs pid p hp
      rw [hpc] at hsource
      exact ⟨r, job, hr, hof, hsource⟩
    | @retry p job e t hpc =>
      obtain ⟨r, hr, hof⟩ := hC pid _ job hp (by rw [Proc.job?, Proc.ofPc, hpc]; rfl)
      have hsource := hI.pcs pid p hp
      rw [hpc] at hsource
      exact ⟨r, job, hr, hof, hsource⟩
    | @bury p job e hpc =>
      obtain ⟨r, hr, hof⟩ := hC pid _ job hp (by rw [Proc.job?, Proc.ofPc, hpc]; rfl)
      have hsource := hI.pcs pid p hp
      have hjudged := hJ pid p hp
      rw [hpc] at hsource hjudged
      have hmax : job.maxAttempts = r.maxAttempts := congrArg LockedJob.maxAttempts hof
      exact ⟨r, job, hr, hof, hsource, rfl, hmax ▸ hjudged⟩
    | @other _ c hplain =>
      have ho := hplain.outcome
      cases c <;> trivial
    | _ => trivial
  · trivial

theorem sourced_rows (hC : Carried s) (hJ : Judged s) (hI : Sourced env tr s)
    (h : step env s a = some s') {j : Uuid}
    (hr' : s'.store.db.job? j = some r') : r'.Sourced env (tr ++ [(s, a)]) := by
  cases hr : s.store.db.job? j with
  | none =>
    -- a row begins without a result and without an error
    obtain ⟨_, ch, c, _, hinsert, _⟩ := step_job?_none h hr hr'
    cases c with
    | createJob | scheduleNextOccurrence =>
      cases hinsert
      exact ⟨nofun, nofun, nofun, nofun⟩
    | _ => cases hinsert
  | some r =>
    have hrow := hI.rows j r hr
    rcases step_job? h hr with hsame | ⟨pid, c, hc, hwritten⟩
    · cases hsame.symm.trans hr'
      exact hrow.keep _ rfl rfl rfl rfl fun hne => absurd rfl hne
    · cases hwritten.symm.trans hr'
      have hsource := sourced_of_call? hC hJ hI hc
      have hid := Database.id_of_job? hr
      have hw : c.Writes s.store r _ := Call.writes_rewrite c
      generalize c.rewrite s.store r = r' at hw
      subst hid
      cases hw with
      | kept => exact hrow.keep _ rfl rfl rfl rfl fun hne => absurd rfl hne
      | lock => exact hrow.keep _ rfl rfl rfl rfl fun _ => .inl rfl
      | release | promote => exact hrow.keep _ rfl rfl rfl rfl fun _ => .inr rfl
      | succeed v =>
        obtain ⟨_, job, hr₀, hof, hended⟩ := hsource
        cases hr.symm.trans hr₀
        refine ⟨fun v' hv => ⟨job, hof.congr rfl rfl, ?_⟩, fun _ =>
          ⟨job, v, hof.congr rfl rfl, hended.mono _, rfl⟩,
          nofun, fun hs => by rcases hs with hs | hs <;> cases hs⟩
        rw [Json.column_eq_some hv]
        exact hended.mono _
      | retry e t =>
        obtain ⟨_, job, hr₀, hof, hfailed⟩ := hsource
        cases hr.symm.trans hr₀
        exact hrow.fail (hof.congr rfl rfl) (hfailed.mono _) rfl rfl rfl nofun rfl
      | bury e n =>
        obtain ⟨_, job, hr₀, hof, hfailed, _⟩ := hsource
        cases hr.symm.trans hr₀
        exact hrow.fail (hof.congr rfl rfl) (hfailed.mono _) rfl rfl rfl nofun rfl
      | cancel hpending =>
        have hwrote : CancelWrote env (tr ++ [(s, a)]) r.id :=
          ⟨(s, a), List.mem_append_right _ (List.mem_singleton_self _), pid, hc,
            (Database.status?_of_job? hr).trans (congrArg some hpending)⟩
        refine ⟨fun v hv => ?_, nofun, fun e he => ?_, fun hs => by rcases hs with hs | hs <;> cases hs⟩
        · obtain ⟨job, hof, hended⟩ := hrow.result v hv
          exact ⟨job, hof.congr rfl rfl, hended.mono _⟩
        · exact .inr ⟨(Option.some.inj he).symm, hwrote⟩
      | reset => exact ⟨nofun, nofun, nofun, fun hs => by rcases hs with hs | hs <;> cases hs⟩

theorem sourced_letters (hC : Carried s) (hJ : Judged s) (hI : Sourced env tr s) (h : step env s a = some s')
    (l : DeadLetter) (hl : l ∈ s'.store.db.deadLetters.rows) : l.Sourced (tr ++ [(s, a)]) s'.store.db := by
  have old (hl : l ∈ s.store.db.deadLetters.rows) : l.Sourced (tr ++ [(s, a)]) s'.store.db := by
    obtain ⟨r, job, hr, hof, hfailed, hmade, hmax⟩ := hI.letters l hl
    obtain ⟨r', hr', horigin⟩ := step_origin h hr
    have hid : r'.id = r.id := (Database.id_of_job? hr').trans (Database.id_of_job? hr).symm
    have hsame : r'.maxAttempts = r.maxAttempts := congrArg NewJob.maxAttempts horigin
    exact ⟨r', job, hr', hof.congr hid horigin, hfailed.mono _, hmade, hsame ▸ hmax⟩
  rcases store_of_step h with ⟨pid, ch, c, x, hc, hx⟩ | ⟨_, hdb, _⟩
  · rw [Call.run_letters hx] at hl
    have hsource := sourced_of_call? hC hJ hI hc
    cases c with
    | moveToDeadLetter j e n =>
      rcases List.mem_append.mp hl with hl | hl
      · exact old hl
      · obtain rfl := List.mem_singleton.mp hl
        obtain ⟨r, job, hr, hof, hfailed, hmade, hmax⟩ := hsource
        obtain ⟨r', hr', horigin⟩ := step_origin h hr
        have hid : r'.id = r.id := (Database.id_of_job? hr').trans (Database.id_of_job? hr).symm
        have hsame : r'.maxAttempts = r.maxAttempts := congrArg NewJob.maxAttempts horigin
        exact ⟨r', job, hr', hof.congr hid horigin, hfailed.mono _, hmade, hsame ▸ hmax⟩
    | replayWrite => exact old (List.mem_filter.mp hl).1
    | _ => exact old hl
  · exact old (hdb ▸ hl)

theorem sourced_init (t : Nat) : Sourced env [] (.init t) := by
  refine ⟨fun i p hp => ?_, fun j r hr => ?_, fun l hl => ?_⟩
  · cases hp
  · cases hr
  · cases hl

theorem sourced_of_run {ok : State → Action → Prop} {t : Nat} (h : Run ok (step env) (.init t) tr s) :
    Sourced env tr s := by
  refine h.invariant_trace (I := Sourced env) (sourced_init t) ?_
  intro tr s a s' hrun hI _ hs
  have hC := carried_of_reachable hrun.reachable
  have hJ := judged_of_reachable hrun.reachable
  exact ⟨sourced_pcs hI hs, fun j r hr => sourced_rows hC hJ hI hs hr, sourced_letters hC hJ hI hs⟩

/-- What any run leaves in the tables: no result is made up, and every error is one that an attempt at the same
job has ended with. -/
structure ProvenanceLaw (env : Env) : Prop where
  rows {t : Nat} {s : State} {tr : List (State × Action)} {j : Uuid} {r : Job} :
    Run (fun _ _ => True) (step env) (.init t) tr s → s.store.db.job? j = some r → r.Sourced env tr
  letters {t : Nat} {s : State} {tr : List (State × Action)} {l : DeadLetter} :
    Run (fun _ _ => True) (step env) (.init t) tr s → l ∈ s.store.db.deadLetters.rows → l.Sourced tr s.store.db

theorem provenanceLaw : ProvenanceLaw env where
  rows h hr := (sourced_of_run h).rows _ _ hr
  letters h hl := (sourced_of_run h).letters _ hl

/-- Job 7 has failed in its only attempt; its row and its dead letter have the error of that attempt. -/
theorem provenanceLaw_failed : ∃ tr s, Run (fun _ _ => True) (step minutely) (.init 0) tr s ∧
    (∃ l ∈ s.store.db.deadLetters.rows, ∃ job, AttemptFailed tr job "down" ∧ l.attemptsMade = job.attempts) ∧
    ∃ r ∈ s.store.db.job? 7, ∃ job e, job.Of r ∧ AttemptFailed tr job e ∧ r.error = some e := by
  obtain ⟨tr, s, h, hs⟩ : ∃ tr s, Run (fun _ _ => True) (step minutely) (.init 0) tr s ∧ _ :=
    exists_run_of_exec (taken (limited 1) ++ [.run 1 { outcome := .error (.exception "down") },
        .run 1 { freshId := 8 }]) (fun _ s =>
      (∃ l ∈ s.store.db.deadLetters.rows, l.finalError = "down") ∧
        ∃ r ∈ s.store.db.job? 7, r.status = .deadLetter) (by decide)
  obtain ⟨⟨l, hl, herror⟩, r, hr, hs⟩ := of_decide_eq_true hs
  obtain ⟨_, job, _, _, hfailed, hmade, _⟩ := provenanceLaw.letters h hl
  rw [herror] at hfailed
  exact ⟨tr, s, h, ⟨l, hl, job, hfailed, hmade⟩, r, hr, (provenanceLaw.rows h hr).failed (.inr hs)⟩

end DistribuQ
