import DistribuQ.Proofs.Successors
import DistribuQ.Proofs.Delay
import DistribuQ.Proofs.Dispatch

/-! How far apart the occurrences of a recurring job are. -/

namespace DistribuQ
open Transition
variable {env : Env} {s s' : State} {a : Action} {tr : List (State × Action)} {i j k : Uuid} {r : Job} {n : Nat}
  {d : Time}

/-- At time `t` a worker has written the success of `j`. -/
def SucceededAt (tr : List (State × Action)) (j : Uuid) (t : Time) : Prop :=
  ∃ x ∈ tr, ∃ pid ch p job v, x.2 = .run pid ch ∧ x.1.procs[pid]? = some (.worker p) ∧
      p.pc = .markSuccess job v ∧
    job.id = j ∧ ch.fault = .none ∧ x.1.store.clock = t

/-- `k` is `n` occurrences later than `j`. -/
inductive Descends (env : Env) (tr : List (State × Action)) (j : Uuid) : Nat → Uuid → Prop
  | self : Descends env tr j 0 j
  | next {n : Nat} {k l : Uuid} : Descends env tr j n k → Successor env tr k l → Descends env tr j (n + 1) l

/-- A success of `j`, and after it the time from which the due time `t` was computed. -/
def Computed (env : Env) (tr : List (State × Action)) (j : Uuid) (rule : String) (t : Time) : Prop :=
  ∃ t₀ t₁, SucceededAt tr j t₀ ∧ t₀ ≤ t₁ ∧ env.computeNextRun rule t₁ = some t

theorem SucceededAt.mono {t : Time} (h : SucceededAt tr j t) (x : State × Action) :
    SucceededAt (tr ++ [x]) j t := by
  obtain ⟨y, hy, h⟩ := h
  exact ⟨y, List.mem_append_left _ hy, h⟩

theorem Computed.mono {rule : String} {t : Time} (h : Computed env tr j rule t) (x : State × Action) :
    Computed env (tr ++ [x]) j rule t := by
  obtain ⟨t₀, t₁, h₀, hle, ht⟩ := h
  exact ⟨t₀, t₁, h₀.mono x, hle, ht⟩

/-- What a worker that has written a success knows of its time. -/
def Worker.Pc.Spaced (env : Env) (tr : List (State × Action)) (now : Time) : Worker.Pc → Prop
  | emitSuccess job | computeNextRun job _ => ∃ t₀ ≤ now, SucceededAt tr job.id t₀
  | scheduleNext job rule t => Computed env tr job.id rule t
  | _ => True

theorem Worker.Pc.Spaced.mono {now now' : Time} {pc : Worker.Pc} (h : pc.Spaced env tr now) (hle : now ≤ now')
    (x : State × Action) : pc.Spaced env (tr ++ [x]) now' := by
  cases pc with
  | emitSuccess | computeNextRun =>
    obtain ⟨t₀, ht, h₀⟩ := h
    exact ⟨t₀, ht.trans hle, h₀.mono x⟩
  | scheduleNext => exact Computed.mono h x
  | _ => trivial

theorem Worker.spaced_of_goes {ch : Choice} {p p' : Worker} {c : Call} {pid : Nat} {st' : Store}
    (hp : s.procs[pid]? = some (.worker p)) (hg : p.pc.Goes env pid ch s.store st' c p'.pc)
    (hle : s.store.clock ≤ st'.clock) (h : p.pc.Spaced env tr s.store.clock) :
    p'.pc.Spaced env (tr ++ [(s, .run pid ch)]) st'.clock := by
  generalize hpc : p.pc = pc, p'.pc = pc' at hg h
  cases hg with
  | @succeeded job v hf =>
    refine ⟨s.store.clock, hle, _, List.mem_append_right _ (List.mem_singleton_self _), pid, ch, p,
      job, v, rfl, hp,
      hpc, rfl, hf, rfl⟩
  | raised | successFault =>
    exact onFailure_cases (P := Pc.Spaced env _ _) _ (fun _ => trivial) fun _ => trivial
  | @emitSuccess job =>
    obtain ⟨t₀, ht, h₀⟩ := h
    exact afterSuccess_cases (P := Pc.Spaced env _ _) (fun _ => ⟨t₀, ht.trans hle, h₀.mono _⟩) trivial
  | recurs ht =>
    obtain ⟨t₀, hle₀, h₀⟩ := h
    exact ⟨t₀, _, h₀.mono _, hle₀, ht⟩
  | _ => trivial

/-- The row of `k` is due at a time computed after a success of `j`, by the rule of both. -/
def Follows (env : Env) (tr : List (State × Action)) (db : Database) (j k : Uuid) : Prop :=
  ∃ r r' rule t, db.job? j = some r ∧ db.job? k = some r' ∧ r.recurrenceRule = some rule ∧
    r'.recurrenceRule = some rule ∧ r'.scheduledFor = some t ∧ Computed env tr j rule t

theorem Follows.step (h : Follows env tr s.store.db j k) (hs : step env s a = some s') :
    Follows env (tr ++ [(s, a)]) s'.store.db j k := by
  obtain ⟨r, r', rule, t, hr, hr', hrule, hrule', ht, hc⟩ := h
  obtain ⟨r₁, hr₁, horigin⟩ := step_origin hs hr
  obtain ⟨r₁', hr₁', horigin'⟩ := step_origin hs hr'
  exact ⟨r₁, r₁', rule, t, hr₁, hr₁', (Job.recurrenceRule_of_origin horigin).trans hrule,
    (Job.recurrenceRule_of_origin horigin').trans hrule', (congrArg NewJob.scheduledFor horigin').trans ht,
    hc.mono _⟩

structure Spaced (env : Env) (tr : List (State × Action)) (s : State) : Prop where
  pcs : ∀ (i : Nat) (p : Worker), s.procs[i]? = some (.worker p) → p.pc.Spaced env tr s.store.clock
  follows : ∀ j k, Successor env tr j k → Follows env tr s.store.db j k

theorem spaced_pcs (hI : Spaced env tr s) (h : step env s a = some s') (i : Nat) (p' : Worker)
    (hp' : s'.procs[i]? = some (.worker p')) : p'.pc.Spaced env (tr ++ [(s, a)]) s'.store.clock := by
  have hle := clock_le_of_step h
  cases became_of_step h hp' with
  | kept hp => exact (hI.pcs i p' hp).mono hle _
  | spawned r hr =>
    cases r <;> cases hr
    trivial
  | signalled p hp hr =>
    cases p <;> cases hr
    exact (hI.pcs i _ hp).mono hle _
  | crashed hr => cases hr
  | ran hp hop he =>
    cases Proc.goes_of_next hop he with
    | worker hnext _ hends =>
      exact Worker.spaced_of_goes hp (Worker.goes_of_next hnext hends) hle (hI.pcs i _ hp)

theorem scheduleNext_of_scheduling? {pc : Worker.Pc} {job : LockedJob} (h : pc.scheduling? = some job) :
    ∃ rule t, pc = .scheduleNext job rule t := by
  cases pc with
  | scheduleNext =>
    cases h
    exact ⟨_, _, rfl⟩
  | _ => cases h

/-- The row of a successor that is inserted. -/
theorem follows_of_successor? (hC : Carried s)
    (hR : ∀ (i : Nat) (w : Worker), s.procs[i]? = some (.worker w) → w.pc.Ruled) (hI : Spaced env tr s)
    (h : step env s a = some s') (hk : s.successor? env a = some (j, k)) :
    Follows env (tr ++ [(s, a)]) s'.store.db j k := by
  obtain ⟨pid, ch, p, job, new, rfl, hp, hjob, rfl, rfl, hc⟩ := successor?_eq_some hk
  cases p with
  | worker w =>
    obtain ⟨rule, t, hpc⟩ := scheduleNext_of_scheduling? hjob
    obtain ⟨r, hr, hrow⟩ := hC pid _ job hp (by rw [Proc.job?, Proc.ofPc, hpc]; rfl)
    obtain ⟨r₁, hr₁, horigin⟩ := step_origin h hr
    have hrule : job.recurrenceRule = some rule := by
      have hruled := hR pid w hp
      rw [hpc] at hruled
      exact hruled
    have hr_rule : job.recurrenceRule = r.recurrenceRule := congrArg LockedJob.recurrenceRule hrow
    have hcomputed := hI.pcs pid w hp
    rw [hpc] at hcomputed
    obtain ⟨p₁, p', op, hp₁, hop, he, _, _⟩ := ran_of_step h
    cases hp.symm.trans hp₁
    have hf (e : String) : ch.fault ≠ .raised e := by
      intro hraised
      obtain ⟨op', hnext, rfl⟩ := Option.map_eq_some_iff.mp hop
      rw [Worker.next, hpc] at hnext
      cases hnext
      cases (call?_eq_none hp (.inl ⟨rfl, hop⟩) hraised rfl).symm.trans hc
    obtain ⟨row, hrun⟩ := he.run_of_ne_raised hf
    obtain ⟨op', hnext, rfl⟩ := Option.map_eq_some_iff.mp hop
    rw [Worker.next, hpc] at hnext
    cases hnext
    obtain ⟨hnew, rfl⟩ := Call.row_of_inserted hrun
    have hrule₁ := (Job.recurrenceRule_of_origin horigin).trans (hr_rule.symm.trans hrule)
    exact ⟨r₁, _, rule, t, hr₁, hnew, hrule₁, rfl, rfl, Computed.mono hcomputed _⟩
  | _ => cases hjob

theorem spaced_of_run {ok : State → Action → Prop} {t : Nat} (h : Run ok (step env) (.init t) tr s) :
    Spaced env tr s := by
  refine h.invariant_trace (I := Spaced env) ⟨?_, ?_⟩ ?_
  · intro i p hp
    cases hp
  · rintro j k ⟨x, hx, _⟩
    cases hx
  · intro tr s a s' hrun hI _ hs
    have hC := carried_of_reachable hrun.reachable
    have hR := pcs_of_reachable trivial (fun _ _ _ _ _ _ _ => Worker.ruled_of_goes) hrun.reachable
    refine ⟨spaced_pcs hI hs, fun j k hk => ?_⟩
    obtain ⟨x, hx, hk⟩ := hk
    rcases List.mem_append.mp hx with hx | hx
    · exact (hI.follows j k ⟨x, hx, hk⟩).step hs
    · obtain rfl := List.mem_singleton.mp hx
      exact follows_of_successor? hC hR hI hs hk

/-- A job succeeds at its due time or later. -/
theorem le_of_succeededAt {t : Nat} {t₀ due : Time} (h : Run Unrestricted (step env) (.init t) tr s)
    (h₀ : SucceededAt tr j t₀) (hr : s.store.db.job? j = some r)
    (hdue : r.scheduledFor = some due) : due ≤ t₀ := by
  obtain ⟨x, hx, pid, ch, p, job, v, _, hp, hpc, rfl, _, rfl⟩ := h₀
  obtain ⟨hbefore, hafter⟩ := h.through hx
  obtain ⟨r₀, hr₀, hle⟩ := (timely_of_reachable hbefore).attempt pid _ job hp
      (by rw [Proc.attempt?, Proc.ofPc, hpc]; rfl)
  have hkept : ∃ r', s.store.db.job? job.id = some r' ∧ r'.origin = r₀.origin := by
    refine hafter.invariant (I := fun s => ∃ r', s.store.db.job? job.id = some r' ∧ r'.origin = r₀.origin)
      ⟨r₀, hr₀, rfl⟩ ?_
    rintro s a s' ⟨r', hr', horigin⟩ _ hs
    obtain ⟨r'', hr'', horigin'⟩ := step_origin hs hr'
    exact ⟨r'', hr'', horigin'.trans horigin⟩
  obtain ⟨r', hr', horigin⟩ := hkept
  cases hr.symm.trans hr'
  exact hle due ((congrArg NewJob.scheduledFor horigin).symm.trans hdue)

/-- The times that a rule computes are at least `d` later than the time it is given. -/
def Gap (env : Env) (rule : String) (d : Time) : Prop :=
  ∀ t t', env.computeNextRun rule t = some t' → t + d ≤ t'

/-- The due time of the `n`th occurrence after `j` is `n` gaps after a success of `j`. -/
theorem due_of_descends {t : Nat} {rule : String} (h : Run Unrestricted (step env) (.init t) tr s)
    (hgap : Gap env rule d) (hr : s.store.db.job? j = some r) (hrule : r.recurrenceRule = some rule)
    (hk : Descends env tr j (n + 1) k) :
    ∃ r' t₀ due, s.store.db.job? k = some r' ∧ r'.recurrenceRule = some rule ∧ r'.scheduledFor = some due ∧
      SucceededAt tr j t₀ ∧ t₀ + (n + 1) * d ≤ due := by
  have hI := spaced_of_run h
  generalize hm : n + 1 = m at hk
  induction hk generalizing n with
  | self => cases hm
  | @next m k l hk hl ih =>
    obtain ⟨r₁, r₂, rule', due, hr₁, hr₂, hrule₁, hrule₂, hdue, t₁, t₂, h₁, hle, hcomputed⟩ := hI.follows k l hl
    cases n with
    | zero =>
      obtain rfl : m = 0 := by omega
      cases hk
      cases hr.symm.trans hr₁
      cases hrule.symm.trans hrule₁
      have hfar := hgap _ _ hcomputed
      exact ⟨r₂, t₁, due, hr₂, hrule₂, hdue, h₁, by push_cast; linarith⟩
    | succ n =>
      obtain ⟨r', t₀, due', hr', hrule', hdue', h₀, hbefore⟩ := @ih n (by omega)
      cases hr'.symm.trans hr₁
      cases hrule'.symm.trans hrule₁
      -- the occurrence before has not succeeded before its own due time
      have hown := le_of_succeededAt h h₁ hr₁ hdue'
      have hfar := hgap _ _ hcomputed
      exact ⟨r₂, t₀, due, hr₂, hrule₂, hdue, h₀, by push_cast; linarith⟩

theorem Env.gap_ofCroniter {cron : Croniter} {rule : String}
    (hevery : Recurrence.every <+: Text.strip rule.toList)
    (hd : Recurrence.parseInterval rule = .ok (some d)) : Gap (Env.ofCroniter cron) rule d := by
  intro t t' h
  unfold Env.ofCroniter at h
  dsimp only at h
  split at h
  · rename_i next hnext
    cases h
    obtain ⟨d', hd', hadd⟩ := (Recurrence.computeNextRun_of_every hevery).mp hnext
    cases hd.symm.trans hd'
    obtain ⟨_, rfl⟩ := Recurrence.add_eq_ok.mp hadd
    simp [DateTime.instant]
  · cases h

/-- `get_next` returns a later time. -/
def Croniter.Later (cron : Croniter) : Prop :=
  ∀ rule start next, cron.getNext rule start = some next → start < next

theorem Croniter.Later.gap {cron : Croniter} (h : cron.Later) {rule : String}
    (hcron : ¬ Recurrence.every <+: Text.strip rule.toList) : Gap (Env.ofCroniter cron) rule 1 := by
  intro t t' ht
  unfold Env.ofCroniter at ht
  dsimp only at ht
  split at ht
  · rename_i next hnext
    cases ht
    unfold Recurrence.computeNextRun at hnext
    dsimp only at hnext
    split_ifs at hnext
    unfold Recurrence.nextRunFromCron at hnext
    split at hnext
    · rename_i t' ht'
      cases hnext
      have hlt : t < t' := h _ _ _ ht'
      simp only [DateTime.instant, Option.getD_some, sub_zero]
      exact Int.add_one_le_iff.mpr hlt
    · cases hnext
  · cases ht

/-- When the later occurrences of a job start, by whichever worker and after whatever retries. -/
structure SpacingLaw (cron : Croniter) : Prop where
  /-- With an interval rule the `n`th occurrence after a job starts `n` intervals after a success of the job. -/
  interval {t : Nat} {s : State} {a : Action} {tr : List (State × Action)} {j k : Uuid} {r : Job} {n : Nat}
    {rule : String} {d : Time} : Run Unrestricted (step (Env.ofCroniter cron)) (.init t) tr s →
    s.store.db.job? j = some r → r.recurrenceRule = some rule → Recurrence.every <+: Text.strip rule.toList →
    Recurrence.parseInterval rule = .ok (some d) → Descends (Env.ofCroniter cron) tr j (n + 1) k →
      s.Starts a k →
    ∃ t₀, SucceededAt tr j t₀ ∧ t₀ + (n + 1) * d ≤ s.store.clock
  /-- With any other rule each occurrence is due after a success of the one before. -/
  cron {t : Nat} {s : State} {a : Action} {tr : List (State × Action)} {j k : Uuid} {r : Job} {n : Nat}
    {rule : String} : cron.Later → Run Unrestricted (step (Env.ofCroniter cron)) (.init t) tr s →
    s.store.db.job? j = some r → r.recurrenceRule = some rule → ¬ Recurrence.every <+: Text.strip rule.toList →
    Descends (Env.ofCroniter cron) tr j (n + 1) k → s.Starts a k →
    ∃ t₀, SucceededAt tr j t₀ ∧ t₀ + (n + 1) ≤ s.store.clock

theorem spaced_of_gap {t : Nat} {rule : String} (h : Run Unrestricted (step env) (.init t) tr s)
    (hgap : Gap env rule d) (hr : s.store.db.job? j = some r) (hrule : r.recurrenceRule = some rule)
    (hk : Descends env tr j (n + 1) k) (hs : s.Starts a k) :
    ∃ t₀, SucceededAt tr j t₀ ∧ t₀ + (n + 1) * d ≤ s.store.clock := by
  obtain ⟨r', t₀, due, hr', _, hdue, h₀, hle⟩ := due_of_descends h hgap hr hrule hk
  obtain ⟨pid, _, p, hp, hj⟩ := hs
  obtain ⟨job, hjob, rfl⟩ := Option.map_eq_some_iff.mp hj
  obtain ⟨r₁, hr₁, hripe⟩ :=
    (timely_of_reachable h.reachable).attempt pid p job hp (Proc.attempt?_of_starting? hjob)
  cases hr'.symm.trans hr₁
  exact ⟨t₀, h₀, hle.trans (hripe due hdue)⟩

theorem spacingLaw (cron : Croniter) : SpacingLaw cron where
  interval h hr hrule hevery hd hk hs := spaced_of_gap h (Env.gap_ofCroniter hevery hd) hr hrule hk hs
  cron {t s a tr j k r n rule} hlater h hr hrule hcron hk hs := by
    obtain ⟨t₀, h₀, hle⟩ := spaced_of_gap h (hlater.gap hcron) hr hrule hk hs
    exact ⟨t₀, h₀, by rwa [mul_one] at hle⟩

/-- Job 7 succeeds, and a minute later worker 1 is about to start its next occurrence, 8. -/
def recurredInTime : List Action :=
  succeeded ++ [.run 1 { freshId := 8 }] ++ calls 1 2 ++ [.tick 61000000, .spawn .scheduler] ++ calls 2 6 ++ calls 1 4

theorem everyMinute_later : Recurrence.everyMinute.Later := by
  intro rule start next h
  unfold Recurrence.everyMinute at h
  dsimp only at h
  split_ifs at h
  obtain rfl : (start / 60000000 + 1) * 60000000 = next := Option.some.inj h
  have hlt : (start : ℤ) < (start / 60000000 + 1) * 60000000 := Int.lt_ediv_add_one_mul_self _ (by norm_num)
  exact hlt

theorem spacingLaw_everyMinute : ∃ tr s,
    Run Unrestricted (step (Env.ofCroniter Recurrence.everyMinute)) (.init 0) tr s ∧ s.Starts (.run 1 {}) 8 ∧
      ∃ t₀, SucceededAt tr 7 t₀ ∧ t₀ + 1 ≤ s.store.clock := by
  obtain ⟨tr, s, h, hs⟩ : ∃ tr s,
      Run Unrestricted (step (Env.ofCroniter Recurrence.everyMinute)) (.init 0) tr s ∧ _ :=
    exists_run_of_exec recurredInTime (fun tr s =>
      (∃ r ∈ s.store.db.job? 7, r.recurrenceRule = some "* * * * *") ∧ s.Starts (.run 1 {}) 8 ∧
      ∃ x ∈ tr, x.1.successor? (Env.ofCroniter Recurrence.everyMinute) x.2 = some (7, 8)) (by decide +kernel)
  obtain ⟨⟨r, hr, hrule⟩, hstarts, hsuccessor⟩ := of_decide_eq_true hs
  have hcron : ¬ Recurrence.every <+: Text.strip "* * * * *".toList := by decide
  obtain ⟨t₀, h₀, hle⟩ := (spacingLaw Recurrence.everyMinute).cron everyMinute_later h hr hrule hcron
    (.next .self hsuccessor) hstarts
  exact ⟨tr, s, h, hstarts, t₀, h₀, by simpa using hle⟩

end DistribuQ
