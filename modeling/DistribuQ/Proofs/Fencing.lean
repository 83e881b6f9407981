import DistribuQ.Proofs.Exclusion

/-! The lock as a fence: what a worker can still do to a job after a stale reclaim has taken it. -/

namespace DistribuQ
open Transition
variable {env : Env} {s s' : State} {a : Action} {j : Uuid}

/-- A lock that a stale reclaim has broken fences off its holder. -/
structure FencingLaw (env : Env) (ok : State → Action → Prop) : Prop where
  /-- Worker `A` is executing `j` in attempt `n`, a stale reclaim takes `j`, and `A` stays in the attempt:
  whatever it does then leaves the row of `j` as it is. -/
  late {t : Nat} {s s₁ s₂ s₃ : State} {a : Action} {ch : Choice} {A : WorkerId} {j : Uuid} {n : Nat} :
    Reachable ok (step env) (.init t) s → s.Executes A j n → ok s a → s.Reclaims env a j →
    step env s a = some s₁ →
    Reachable (fun s a => ok s a ∧ s.InAttempt A j n) (step env) s₁ s₂ → s₂.InAttempt A j n →
    ok s₂ (.run A ch) → step env s₂ (.run A ch) = some s₃ →
    s₃.store.db.job? j = s₂.store.db.job? j
  /-- While `j` is running and locked by `B`, its row is changed by the outcome that `B` writes for the
  attempt in the row, or by a stale reclaim. -/
  owned {t : Nat} {s s' : State} {a : Action} {j : Uuid} {r : Job} {B : WorkerId} :
    Reachable ok (step env) (.init t) s → ok s a → step env s a = some s' →
    s.store.db.job? j = some r → r.status = .running → r.lockedBy = some B →
    s'.store.db.job? j = some r ∨ s.Reclaims env a j ∨
      ∃ c, s.call? env a = some (B, c) ∧ c.outcome? = some j ∧ s.InAttempt B j r.attempts

namespace Call
variable {c : Call} {st : Store} {r : Job}

/-- The row reads as this outcome write would leave it, down to the time of its last update. -/
def Stands (now : Time) (r : Job) : Call → Prop
  | markJobSuccess _ result => r.status = .success ∧ r.result = result.column ∧ r.error = none ∧
      r.lockedBy = none ∧ r.lockedAt = none ∧ r.updatedAt = now
  | markJobRetrying _ error t => r.status = .retrying ∧ r.error = some error ∧ r.nextRetryAt = some t ∧
      r.lockedBy = none ∧ r.lockedAt = none ∧ r.updatedAt = now
  | moveToDeadLetter _ error _ => r.status = .deadLetter ∧ r.error = some error ∧
      r.lockedBy = none ∧ r.lockedAt = none ∧ r.updatedAt = now
  | _ => False

theorem rewrite_of_outcome {j : Uuid} (st : Store) (ho : c.outcome? = some j) (hid : r.id = j) :
    ∃ p f, c.update? st = some (p, f) ∧ c.rewrite st r = (f r).touch st.clock := by
  have hselects : decide (r.id = j) = true := decide_eq_true hid
  cases c <;> cases ho <;> exact ⟨_, _, rfl, if_pos hselects⟩

theorem rewrite_eq_self_iff {j : Uuid} (st : Store) (ho : c.outcome? = some j) (hid : r.id = j) :
    c.rewrite st r = r ↔ c.Stands st.clock r := by
  obtain ⟨p, f, hc, hrow⟩ := rewrite_of_outcome st ho hid
  rw [hrow]
  cases c <;> cases ho <;> cases hc
  all_goals
    obtain ⟨⟩ := r
    simp only [Job.succeed, Job.retry, Job.bury, Job.touch, Stands, Job.mk.injEq, true_and]
    tauto

/-- No row that waits or is running stands so: the write of a worker that has lost its lock changes it. -/
theorem Stands.status (h : c.Stands st.clock r) : r.status ≠ .pending ∧ r.status ≠ .running := by
  cases c
  case markJobSuccess | markJobRetrying | moveToDeadLetter =>
    rw [h.1]
    exact ⟨nofun, nofun⟩
  all_goals exact h.elim

end Call

/-- What the lock is worth: once it is broken, nothing. -/
structure FencingLimits (env : Env) : Prop where
  /-- In every run: worker `A` is executing `j` in attempt `n`, a stale reclaim takes `j`, `A` stays in the
  attempt and makes an outcome write. The row of `j` stays as it is where the write raises and has no
  effect, and where it already stands as the write leaves it, and in no other case. -/
  late {t : Nat} {s s₁ s₂ s₃ : State} {a : Action} {ch ch' : Choice} {A pid : Nat} {j : Uuid} {n : Nat}
      {op : Op Proc} :
    Reachable Unrestricted (step env) (.init t) s → s.Executes A j n → s.Reclaims env a j →
    step env s a = some s₁ → Reachable (fun s _ => s.InAttempt A j n) (step env) s₁ s₂ →
    s₂.InAttempt A j n → s₂.op? env (.run A ch) = some (pid, ch', op) → op.call.outcome? = some j →
    step env s₂ (.run A ch) = some s₃ →
    (s₃.store.db.job? j = s₂.store.db.job? j ↔
      s₂.call? env (.run A ch) = none ∨ ∃ r ∈ s₂.store.db.job? j, op.call.Stands s₂.store.clock r)
  /-- Where stale reclaims take abandoned jobs only, replays do not overlap and no answer from Postgres is
  lost: while `j` is running and locked by `B`, its row is changed by the outcome that `B` writes for the
  attempt in the row, or by a stale reclaim. -/
  owned {t : Nat} {s s' : State} {a : Action} {j : Uuid} {r : Job} {B : WorkerId} :
    Reachable (Orderly env) (step env) (.init t) s → Orderly env s a → step env s a = some s' →
    s.store.db.job? j = some r → r.status = .running → r.lockedBy = some B →
    s'.store.db.job? j = some r ∨ s.Reclaims env a j ∨
      ∃ c, s.call? env a = some (B, c) ∧ c.outcome? = some j ∧ s.InAttempt B j r.attempts

theorem exists_job?_of_reachable {ok : State → Action → Prop} (h : Reachable ok (step env) s s')
    (hj : ∃ r, s.store.db.job? j = some r) : ∃ r, s'.store.db.job? j = some r := by
  refine h.invariant (I := fun s => ∃ r, s.store.db.job? j = some r) hj fun s a s' ⟨r, hr⟩ _ h => ?_
  obtain ⟨r', hr', _⟩ := step_origin h hr
  exact ⟨r', hr'⟩

theorem job?_eq_iff_of_outcome {pid : Nat} {ch : Choice} {op : Op Proc} {r : Job}
    (hop : s.op? env a = some (pid, ch, op)) (ho : op.call.outcome? = some j) (h : step env s a = some s')
    (hr : s.store.db.job? j = some r) :
    s'.store.db.job? j = s.store.db.job? j ↔ s.call? env a = none ∨ op.call.Stands s.store.clock r := by
  have hstands := Call.rewrite_eq_self_iff s.store ho (Database.id_of_job? hr)
  rcases store_of_step h with ⟨pid', ch', c, x, hc, hx⟩ | ⟨hnone, hdb, _⟩
  · obtain rfl : op.call = c := by
      obtain ⟨_, p, op', hp, hmakes, rfl⟩ := call?_eq_some hc
      cases hop.symm.trans (op?_of_makes hp hmakes)
      rfl
    rw [Call.run_job? hx hr, hr, Option.some.injEq, hstands, hc]
    simp
  · rw [hdb]
    exact ⟨fun _ => .inl hnone, fun _ => rfl⟩

theorem owned_of_fenced {t : Nat} {r : Job} {B : WorkerId} (h : Reachable (Fenced env) (step env) (.init t) s)
    (hok : Fenced env s a) (hstep : step env s a = some s') (hr : s.store.db.job? j = some r)
    (hs : r.status = .running) (hl : r.lockedBy = some B) :
    s'.store.db.job? j = some r ∨ s.Reclaims env a j ∨
      ∃ c, s.call? env a = some (B, c) ∧ c.outcome? = some j ∧ s.InAttempt B j r.attempts := by
  have hL := lettersAgree_of_reachable h
  have hid := Database.id_of_job? hr
  subst hid
  have houtcome {c : Call} (hc : s.call? env a = some (B, c)) (ho : c.outcome? = some r.id) :
      s.InAttempt B r.id r.attempts := by
    rcases makes_of_call? hc with ⟨_, p, _, hp, hm⟩ | ⟨_, _, _, rfl⟩
    · obtain ⟨job, hattempt, hjob⟩ := hm.attempt ho
      have hn := attemptsAgree_of_reachable h B p job r hp hattempt (hjob ▸ hr) hs hl
      exact ⟨p, hp, job, hattempt, hjob, hn.symm⟩
    · cases ho
  rcases guarded_step hL hok hstep hr with hr' | ⟨pid, c, r', hc, hr', hg⟩
  · exact .inl hr'
  · cases hg with
    | kept => exact .inl hr'
    | succeed _ _ hl' | retry _ _ _ hl' | bury _ _ _ hl' =>
      cases hl.symm.trans hl'
      exact .inr (.inr ⟨_, hc, rfl, houtcome hc rfl⟩)
    | release m _ hstale => exact .inr (.inl ⟨_, hc, m, rfl, r, hr, hstale⟩)
    | lock hp => simp [Job.claimable, hs] at hp
    | promote hs' | cancel hs' | reset _ hs' => cases hs.symm.trans hs'

theorem fencingLimits (env : Env) : FencingLimits env where
  late {t s s₁ s₂ s₃ a ch ch' A pid j n op} _ _ hreclaim hstep hrun _ hop ho hstep₂ := by
    obtain ⟨_, _, _, _, r, hr, _⟩ := hreclaim
    obtain ⟨r₁, hr₁, _⟩ := step_origin hstep hr
    obtain ⟨r₂, hr₂⟩ := exists_job?_of_reachable hrun ⟨r₁, hr₁⟩
    rw [job?_eq_iff_of_outcome hop ho hstep₂ hr₂, hr₂]
    simp
  owned h hok := by
    have hI := exclusive_of_reachable h
    exact owned_of_fenced (fenced_of_orderly (exclusive_init _) h) hI.fenced

/-- Worker 1 overruns its visibility timeout and reaper 2 is about to reclaim job 7. -/
def overdue : List Action :=
  taken report ++ [.tick 61000000, .spawn (.reaper 60 10)] ++ calls 2 2

/-- Job 7 waits to be run again, so the late write of worker 1 changes its row; and where no reclaim gets in
the way, worker 1 changes it as the owner. -/
theorem fencingLimits_overdue :
    (∃ s₂ s₃, s₂.InAttempt 1 7 1 ∧ step minutely s₂ (.run 1 {}) = some s₃ ∧
      s₃.store.db.job? 7 ≠ s₂.store.db.job? 7) ∧
    ∃ s c, Orderly minutely s (.run 1 {}) ∧ s.call? minutely (.run 1 {}) = some (1, c) ∧ c.outcome? = some 7 ∧
      s.InAttempt 1 7 1 := by
  constructor
  · obtain ⟨s, h, hs⟩ : ∃ s, Reachable Unrestricted (step minutely) (.init 0) s ∧ _ :=
      exists_reachable_of_exec overdue (fun s => s.Executes 1 7 1 ∧ s.Reclaims minutely (.run 2 {}) 7 ∧
        ∃ s₁ ∈ step minutely s (.run 2 {}),
        ∃ s₂ ∈ exec (fun s _ => s.InAttempt 1 7 1) (step minutely) s₁ [.run 1 {}], s₂.InAttempt 1 7 1 ∧
        (∃ x ∈ s₂.op? minutely (.run 1 {}), x.2.2.call.outcome? = some 7) ∧
        s₂.call? minutely (.run 1 {}) ≠ none ∧ s₂.store.db.status? 7 = some .pending ∧
        (step minutely s₂ (.run 1 {})).isSome) (by decide)
    obtain ⟨hex, hreclaim, s₁, hs₁, s₂, hs₂, hattempt, ⟨x, hop, ho⟩, hcall, hpending, hsome⟩ :=
      of_decide_eq_true hs
    obtain ⟨s₃, hs₃⟩ := Option.isSome_iff_exists.mp hsome
    refine ⟨s₂, s₃, hattempt, hs₃, fun heq => ?_⟩
    rcases ((fencingLimits minutely).late h hex hreclaim hs₁ (reachable_exec hs₂) hattempt hop ho hs₃).mp heq
      with hnone | ⟨r, hr, hstands⟩
    · exact hcall hnone
    · rw [Database.status?_of_job? hr, Option.some.injEq] at hpending
      exact hstands.status.1 hpending
  · obtain ⟨s, h, hs⟩ : ∃ s, Reachable (Orderly minutely) (step minutely) (.init 0) s ∧ _ :=
      exists_reachable_of_exec (taken report ++ calls 1 1) (fun s => Orderly minutely s (.run 1 {}) ∧
        (∃ r ∈ s.store.db.job? 7, r.status = .running ∧ r.lockedBy = some 1 ∧ r.attempts = 1) ∧
        ¬ s.Reclaims minutely (.run 1 {}) 7 ∧
        ∃ s' ∈ step minutely s (.run 1 {}), s'.store.db.status? 7 ≠ s.store.db.status? 7) (by decide)
    obtain ⟨hok, ⟨r, hr, hs, hl, hn⟩, hreclaim, s', hs', hne⟩ := of_decide_eq_true hs
    rcases (fencingLimits minutely).owned h hok hs' hr hs hl with hkept | hreclaims | ⟨c, hc, ho, hattempt⟩
    · exact absurd (congrArg (Option.map Job.status) (hkept.trans hr.symm)) hne
    · exact absurd hreclaims hreclaim
    · exact ⟨s, c, hok, hc, ho, hn ▸ hattempt⟩

/-- The late write goes through: job 7 is a success although the worker has lost it. -/
theorem not_fencingLaw : ¬ FencingLaw minutely fun _ a => NoReplay a ∧ NoCancel a := by
  intro law
  obtain ⟨s, h, hs⟩ : ∃ s, Reachable (fun _ a => NoReplay a ∧ NoCancel a) (step minutely) (.init 0) s ∧ _ :=
    exists_reachable_of_exec overdue (fun s => s.Executes 1 7 1 ∧ s.Reclaims minutely (.run 2 {}) 7 ∧
      ∃ s₁ ∈ step minutely s (.run 2 {}),
      ∃ s₂ ∈ exec (fun s a => (NoReplay a ∧ NoCancel a) ∧ s.InAttempt 1 7 1) (step minutely) s₁ [.run 1 {}],
      s₂.InAttempt 1 7 1 ∧ ∃ s₃ ∈ step minutely s₂ (.run 1 {}),
      s₃.store.db.status? 7 ≠ s₂.store.db.status? 7) (by decide)
  obtain ⟨hex, hreclaim, s₁, hs₁, s₂, hs₂, hattempt, s₃, hs₃, hne⟩ := of_decide_eq_true hs
  have hok (pid : Nat) (ch : Choice) : NoReplay (.run pid ch) ∧ NoCancel (.run pid ch) := ⟨trivial, trivial⟩
  have hrow := law.late h hex (hok _ _) hreclaim hs₁ (reachable_exec hs₂) hattempt (hok _ _) hs₃
  exact hne (congrArg (Option.map Job.status) hrow)

end DistribuQ
