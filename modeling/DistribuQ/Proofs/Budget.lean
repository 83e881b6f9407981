import DistribuQ.Proofs.Executions
import DistribuQ.Proofs.Holders

/-! The attempt budget of a job: the column `attempts`, and the executions it counts. -/

namespace DistribuQ
open Transition
variable {env : Env} {s s' : State} {a : Action} {pid : Nat} {j k : Uuid} {r r' : Job}

structure Job.WithinBudget (r : Job) : Prop where
  pos : 1 ≤ r.maxAttempts
  le : r.attempts ≤ r.maxAttempts
  open_of_claimable : r.claimable = true → r.attempts < r.maxAttempts
  spent_of_deadLetter : r.status = .deadLetter → r.attempts = r.maxAttempts

namespace Job.WithinBudget

theorem of_waiting (hpos : 1 ≤ r.maxAttempts) (hlt : r.attempts < r.maxAttempts)
    (hs : decide (r.status = .deadLetter) = false) : r.WithinBudget :=
  ⟨hpos, hlt.le, fun _ => hlt, fun h => absurd h (of_decide_eq_false hs)⟩

theorem of_closed (hpos : 1 ≤ r.maxAttempts) (hle : r.attempts ≤ r.maxAttempts) (hc : r.claimable = false)
    (hs : decide (r.status = .deadLetter) = false) : r.WithinBudget :=
  ⟨hpos, hle, fun h => absurd (hc.symm.trans h) Bool.false_ne_true,
    fun h => absurd h (of_decide_eq_false hs)⟩

theorem of_spent (hpos : 1 ≤ r.maxAttempts) (heq : r.attempts = r.maxAttempts) (hc : r.claimable = false) :
    r.WithinBudget :=
  ⟨hpos, heq.le, fun h => absurd (hc.symm.trans h) Bool.false_ne_true, fun _ => heq⟩

end Job.WithinBudget

/-- Every job keeps to its budget. -/
def WithinBudget (s : State) : Prop := ∀ (j : Uuid) (r : Job), s.store.db.job? j = some r → r.WithinBudget

theorem attempts_of_held {p : Proc} {job : LockedJob} (hA : AttemptsAgree s) (hC : Carried s)
    (hp : s.procs[pid]? = some p) (ha : p.attempt? = some job) (hr : s.store.db.job? job.id = some r)
    (hs : r.status = .running) (hl : r.lockedBy = some pid) :
    job.attempts = r.attempts ∧ job.maxAttempts = r.maxAttempts := by
  refine ⟨(hA pid p job r hp ha hr hs hl).symm, ?_⟩
  have hjob : p.job? = some job := by
    cases p with
    | worker p => exact Worker.Pc.job?_of_attempt? ha
    | _ => cases ha
  obtain ⟨r₀, hr₀, hrow⟩ := hC pid p job hp hjob
  cases hr.symm.trans hr₀
  exact congrArg LockedJob.maxAttempts hrow

theorem judged_of_held {c : Call} (hA : AttemptsAgree s) (hC : Carried s) (hJ : Judged s)
    (hc : s.call? env a = some (pid, c)) (hr : s.store.db.job? k = some r) (hs : r.status = .running)
    (hl : r.lockedBy = some pid) :
    (∀ e t, c = .markJobRetrying k e t → r.attempts < r.maxAttempts) ∧
      ∀ e n, c = .moveToDeadLetter k e n → r.maxAttempts ≤ r.attempts := by
  have agree {p : Worker} {job : LockedJob} (hp : s.procs[pid]? = some (.worker p))
      (ha : p.pc.attempt? = some job) (hid : job.id = k) :
      job.attempts = r.attempts ∧ job.maxAttempts = r.maxAttempts :=
    attempts_of_held hA hC hp ha (hid ▸ hr) hs hl
  rcases makes_of_call? hc with ⟨_, p, _, hp, hm⟩ | ⟨_, _, _, rfl⟩
  · constructor
    · rintro e t rfl
      cases hm with
      | retry hpc =>
        obtain ⟨hn, hmax⟩ := agree hp (by rw [hpc]; rfl) rfl
        have hj := hJ pid _ hp
        rw [hpc] at hj
        rwa [← hn, ← hmax]
      | other hp => cases hp.outcome
    · rintro e n rfl
      cases hm with
      | bury hpc =>
        obtain ⟨hn, hmax⟩ := agree hp (by rw [hpc]; rfl) rfl
        have hj := hJ pid _ hp
        rw [hpc] at hj
        rwa [← hn, ← hmax]
      | other hp => cases hp.outcome
  · exact ⟨nofun, nofun⟩

theorem withinBudget_of_guarded {c : Call} (hA : AttemptsAgree s) (hC : Carried s) (hJ : Judged s)
    (hb : ReclaimsWithinBudget env s a) (hc : s.call? env a = some (pid, c))
    (hr : s.store.db.job? k = some r) (hg : c.GuardedWrite s.store pid r r') (h : r.WithinBudget) :
    r'.WithinBudget := by
  obtain ⟨hpos, hle, hopen, hspent⟩ := h
  have hid := Database.id_of_job? hr
  subst hid
  cases hg with
  | kept => exact ⟨hpos, hle, hopen, hspent⟩
  | lock hp => exact .of_closed hpos (hopen hp) rfl rfl
  | succeed => exact .of_closed hpos hle rfl rfl
  | retry e t hs hl => exact .of_waiting hpos ((judged_of_held hA hC hJ hc hr hs hl).1 e t rfl) rfl
  | bury e n hs hl =>
    have hge := (judged_of_held hA hC hJ hc hr hs hl).2 e n rfl
    exact .of_spent hpos (le_antisymm hle hge) rfl
  | release n hs hstale =>
    exact .of_waiting hpos (hb _ hc n rfl r (Database.mem_of_job? hr) hstale) rfl
  | promote hs => exact .of_waiting hpos (hopen (by simp [Job.claimable, hs])) rfl
  | cancel => exact .of_closed hpos hle rfl rfl
  | reset => exact .of_waiting hpos hpos rfl

theorem withinBudget_of_inserted {c : Call} {ch : Choice} (hC : Carried s) (hI : WithinBudget s)
    (hc : s.call? env a = some (pid, c)) (hi : c.inserted? ch s.store = some r) : r.WithinBudget := by
  have fresh {new : NewJob} {t : Time} {id : Uuid} (hpos : 1 ≤ new.maxAttempts) :
      (new.toJob t id).WithinBudget := .of_waiting hpos hpos rfl
  rcases makes_of_call? hc with ⟨_, p, _, hp, hm⟩ | ⟨_, _, _, rfl⟩
  · cases hm with
    | create req =>
      cases hi
      exact fresh req.one_le_maxAttempts
    | @schedule _ job _ _ hpc =>
      cases hi
      obtain ⟨r₀, hr₀, hrow⟩ := hC pid _ job hp (by rw [Proc.job?, Proc.ofPc, hpc]; rfl)
      have hmax : job.maxAttempts = r₀.maxAttempts := congrArg LockedJob.maxAttempts hrow
      refine fresh (show 1 ≤ job.maxAttempts from ?_)
      rw [hmax]
      exact (hI _ r₀ hr₀).pos
    | other hplain => cases (hplain.inserted _ _).symm.trans hi
    | _ => cases hi
  · cases hi

theorem withinBudget_step (hL : s.store.db.LettersAgree) (hA : AttemptsAgree s) (hC : Carried s)
    (hJ : Judged s) (hI : WithinBudget s) (hf : Fenced env s a) (hb : ReclaimsWithinBudget env s a)
    (h : step env s a = some s') : WithinBudget s' := by
  intro j r' hr'
  cases hr : s.store.db.job? j with
  | none =>
    obtain ⟨pid, ch, c, hc, hi, _⟩ := step_job?_none h hr hr'
    exact withinBudget_of_inserted hC hI hc hi
  | some r =>
    rcases guarded_step hL hf h hr with hk | ⟨pid, c, r₁, hc, hr₁, hg⟩
    · cases hk.symm.trans hr'
      exact hI j _ hr
    · cases hr₁.symm.trans hr'
      exact withinBudget_of_guarded hA hC hJ hb hc hr hg (hI j r hr)

theorem withinBudget_of_reachable {t : Nat} (h : Reachable (fun s a => Fenced env s a ∧
    ReclaimsWithinBudget env s a) (step env) (.init t) s) : WithinBudget s := by
  have hknown (s : State) (h : Reachable (fun s a => Fenced env s a ∧ ReclaimsWithinBudget env s a)
      (step env) (.init t) s) : s.store.db.LettersAgree ∧ AttemptsAgree s ∧ Carried s ∧ Judged s := by
    have hf := h.mono fun _ _ h => h.1
    exact ⟨lettersAgree_of_reachable hf, attemptsAgree_of_reachable hf, carried_of_reachable h,
      judged_of_reachable h⟩
  apply h.invariant_with hknown
  · intro j r hr
    cases hr
  · rintro s a s' ⟨hL, hA, hC, hJ⟩ hI ⟨hf, hb⟩ h
    exact withinBudget_step hL hA hC hJ hI hf hb h

/-- Until its next replay a job has the attempts it had and one for each lock. -/
theorem attempts_of_run {ok : State → Action → Prop} {tr : List (State × Action)}
    (h : Run ok (step env) s tr s') (hok : ∀ s a, ok s a → ¬ s.Replays env a j)
    (hr : s.store.db.job? j = some r) :
    ∃ r', s'.store.db.job? j = some r' ∧ r'.maxAttempts = r.maxAttempts ∧
      r'.attempts = r.attempts + total (fun s a => indicator (s.Locks env a j)) tr := by
  refine h.invariant_trace (I := fun tr s' => ∃ r', s'.store.db.job? j = some r' ∧
    r'.maxAttempts = r.maxAttempts ∧
    r'.attempts = r.attempts + total (fun s a => indicator (s.Locks env a j)) tr) ⟨r, hr, rfl, rfl⟩ ?_
  rintro tr s a s' _ ⟨r₁, hr₁, hmax, hn⟩ ha hstep
  obtain ⟨r₂, hr₂, horigin, hn₂⟩ := attempts_of_step hstep (hok s a ha) hr₁
  refine ⟨r₂, hr₂, (congrArg NewJob.maxAttempts horigin).trans hmax, ?_⟩
  simp only [total, tally_append, tally_cons, tally_nil] at hn ⊢
  omega

/-- What starts and comes to nothing in a run is what was locked, but for the workers just before a
handler. -/
theorem starting_of_run {ok : State → Action → Prop} {tr : List (State × Action)}
    (h : Run ok (step env) s tr s') :
    s'.starting j + (executions j tr + total (fun s a => indicator (s.Wastes env a j)) tr) =
      s.starting j + total (fun s a => indicator (s.Locks env a j)) tr := by
  have hadd : executions j tr + total (fun s a => indicator (s.Wastes env a j)) tr =
      total (fun s a => indicator (s.Starts a j) + indicator (s.Wastes env a j)) tr := (tally_add _).symm
  rw [hadd]
  exact h.balance fun _ _ _ _ => starting_of_step

/-- No job is executed more often than its budget allows. -/
structure BudgetLaw (env : Env) (ok : State → Action → Prop) : Prop where
  bounded {t : Nat} {s : State} {j : Uuid} {r : Job} :
    Reachable ok (step env) (.init t) s → s.store.db.job? j = some r → r.attempts ≤ r.maxAttempts
  spent {t : Nat} {s : State} {j : Uuid} {r : Job} :
    Reachable ok (step env) (.init t) s → s.store.db.job? j = some r → r.status = .deadLetter →
    r.attempts = r.maxAttempts
  /-- From its submission or a replay on, a job has had as many executions as `attempts` says, if no lock
  has come to nothing. -/
  executed {t : Nat} {s s' : State} {tr : List (State × Action)} {j : Uuid} {r r' : Job} :
    Reachable ok (step env) (.init t) s → s.store.db.job? j = some r → r.attempts = 0 → s.starting j = 0 →
    Run (fun s a => ok s a ∧ ¬ s.Replays env a j ∧ ¬ s.Wastes env a j) (step env) s tr s' →
    s'.store.db.job? j = some r' → s'.starting j = 0 → executions j tr = r'.attempts
  /-- Once they are used up it has no other before it is replayed. -/
  finished {t : Nat} {s s' : State} {tr : List (State × Action)} {j : Uuid} {r : Job} :
    Reachable ok (step env) (.init t) s → s.store.db.job? j = some r → r.attempts = r.maxAttempts →
    s.starting j = 0 → Run (fun s a => ok s a ∧ ¬ s.Replays env a j) (step env) s tr s' →
    executions j tr = 0

theorem budgetLaw_of_fenced (env : Env) :
    BudgetLaw env fun s a => Fenced env s a ∧ ReclaimsWithinBudget env s a where
  bounded h hr := (withinBudget_of_reachable h _ _ hr).le
  spent h hr hs := (withinBudget_of_reachable h _ _ hr).spent_of_deadLetter hs
  executed {t s s' tr j r r'} h hr hn hstart hrun hr' hstart' := by
    obtain ⟨r₁, hr₁, _, hattempts⟩ := attempts_of_run hrun (fun _ _ hok => hok.2.1) hr
    cases hr₁.symm.trans hr'
    have hbalance := starting_of_run (j := j) hrun
    have hwastes := hrun.total_eq_zero (g := fun s a => indicator (s.Wastes env a j)) fun _ _ hok =>
      indicator_neg hok.2.2
    omega
  finished {t s s' tr j r} h hr hn hstart hrun := by
    obtain ⟨r₁, hr₁, hmax, hattempts⟩ := attempts_of_run hrun (fun _ _ hok => hok.2) hr
    obtain ⟨tr₀, hreach⟩ := h
    have hreach' := (hreach.append (hrun.mono fun _ _ hok => hok.1)).reachable
    have hle := (withinBudget_of_reachable hreach' _ _ hr₁).le
    have hbalance := starting_of_run (j := j) hrun
    omega

def lastFails : List Action :=
  overrun (limited 2) ++ [.run 3 { outcome := .error (.exception "down") }, .run 3 { freshId := 8 }]

/-- Two attempts: the first is reclaimed, the second fails and is the last. -/
theorem budgetLaw_twice : ∃ s s' tr, Reachable (fun s a => Fenced minutely s a ∧
      ReclaimsWithinBudget minutely s a) (step minutely) (.init 0) s ∧
    Run (fun s a => (Fenced minutely s a ∧ ReclaimsWithinBudget minutely s a) ∧ ¬ s.Replays minutely a 7 ∧
      ¬ s.Wastes minutely a 7) (step minutely) s tr s' ∧
    s'.store.db.status? 7 = some .deadLetter ∧ executions 7 tr = 2 := by
  obtain ⟨s, h, hs⟩ : ∃ s, Reachable (fun s a => Fenced minutely s a ∧ ReclaimsWithinBudget minutely s a)
      (step minutely) (.init 0) s ∧ _ :=
    exists_reachable_of_exec (lastFails.take 3) (fun s => (∃ r ∈ s.store.db.job? 7, r.attempts = 0) ∧
      s.starting 7 = 0 ∧ ∃ s' ∈ exec (fun s a => (Fenced minutely s a ∧ ReclaimsWithinBudget minutely s a) ∧
        ¬ s.Replays minutely a 7 ∧ ¬ s.Wastes minutely a 7) (step minutely) s (lastFails.drop 3),
        (∃ r ∈ s'.store.db.job? 7, r.attempts = 2 ∧ r.status = .deadLetter) ∧ s'.starting 7 = 0) (by decide)
  obtain ⟨⟨r, hr, hn⟩, hstart, s', hs', ⟨r', hr', hn', hstatus⟩, hstart'⟩ := of_decide_eq_true hs
  obtain ⟨tr, hrun⟩ := reachable_exec hs'
  have hexec := (budgetLaw_of_fenced minutely).executed h hr hn hstart hrun hr' hstart'
  refine ⟨s, s', tr, h, hrun, ?_, hexec.trans hn'⟩
  rw [Database.status?_of_job? hr', hstatus]

/-- The only attempt of a job kills its worker; the reclaim gives it another. -/
theorem not_budgetLaw : ¬ BudgetLaw minutely Unrestricted := by
  intro law
  obtain ⟨s, h, hs⟩ : ∃ s, Reachable Unrestricted (step minutely) (.init 0) s ∧ _ :=
    exists_reachable_of_exec (taken (limited 1) ++
      [.crash 1, .tick 61000000, .spawn (.reaper 60 10)] ++ calls 2 5 ++ [.spawn .worker] ++ calls 3 4)
      (fun s => ∃ r ∈ s.store.db.job? 7, r.attempts = 2 ∧ r.maxAttempts = 1) (by decide)
  obtain ⟨r, hr, hn, hmax⟩ := of_decide_eq_true hs
  have hle := law.bounded h hr
  omega

end DistribuQ
