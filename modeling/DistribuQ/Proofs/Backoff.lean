import DistribuQ.Proofs.Duplicates

/-! A failed attempt is not followed by another before its `next_retry_at`. -/

namespace DistribuQ
open Transition
variable {env : Env} {s s' : State} {a : Action} {pid : Nat} {j : Uuid} {t : Time}

def Call.retried? : Call → Option (Uuid × Time)
  | markJobRetrying j _ t => some (j, t)
  | _ => none

/-- A worker writes that `j` is to be retried at `t`. -/
def State.Retries (env : Env) (s : State) (a : Action) (j : Uuid) (t : Time) : Prop :=
  ∃ x ∈ s.call? env a, x.2.retried? = some (j, t)

instance : Decidable (s.Retries env a j t) := inferInstanceAs (Decidable (∃ x ∈ s.call? env a, _))

/-- A worker starts a handler only while it holds the lock. -/
def StartsHeld (s : State) (a : Action) : Prop :=
  ∀ pid ∈ a.runs?, ∀ p ∈ s.procs[pid]?, ∀ job ∈ p.starting?, s.Holds pid job.id

instance : Decidable (StartsHeld s a) := inferInstanceAs (Decidable (∀ pid ∈ a.runs?, _))

/-- The job `j` is to be retried at `t`, if that time has not come yet. -/
def Store.Backs (st : Store) (j : Uuid) (t : Time) : Prop :=
  t ≤ st.clock ∨ ∃ r, st.db.job? j = some r ∧ r.status = .retrying ∧ r.nextRetryAt = some t

theorem State.live_pos {p : Proc} {x : Token} (hp : s.procs[pid]? = some p) (hsync : p.syncing = false)
    (hx : x ∈ p.hand) : 0 < s.live x.job := by
  have hholds : 0 < p.owes x.job := by
    rw [Proc.owes_of_not_syncing hsync]
    exact Proc.holds_pos.mpr ⟨x, hx, rfl⟩
  have hle := le_tally (f := Proc.owes x.job) hp
  unfold live
  omega

theorem live_pos_of_lock {w : WorkerId} (hc : s.call? env a = some (pid, .fetchAndLockJob j w)) :
    0 < s.live j := by
  obtain ⟨p, hp, hx⟩ := mem_hand_of_call? hc rfl
  rcases makes_of_call? hc with ⟨_, q, _, hq, hm⟩ | ⟨_, _, _, hm⟩
  · cases hp.symm.trans hq
    obtain ⟨v, rfl, _⟩ := hm.locker rfl
    exact State.live_pos hp rfl hx
  · cases hm

/-- Until then the row stays as it is: there is no copy of the id that a worker could lock it by. -/
theorem backs_step (hU : Unduplicated s) (hf : Fenced env s a) (hI : s.store.Backs j t)
    (h : step env s a = some s') : s'.store.Backs j t := by
  have hclock := clock_le_of_step h
  rcases hI with ht | ⟨r, hr, hs, ht⟩
  · exact .inl (ht.trans hclock)
  have hwaits : ¬ s.store.db.Waits j := by
    rw [Database.waits_iff hr, hs]
    nofun
  have hnone : s.live j = 0 := by
    have hle := hU.live j
    rw [indicator_neg hwaits] at hle
    exact Nat.le_zero.mp hle
  rcases guarded_step hU.letters hf h hr with hr' | ⟨pid, c, r', hc, hr', hg⟩
  · exact .inr ⟨r, hr', hs, ht⟩
  · have hid := Database.id_of_job? hr
    subst hid
    cases hg with
    | kept => exact .inr ⟨r, hr', hs, ht⟩
    | lock => exact absurd (live_pos_of_lock hc) (by omega)
    | promote _ hdue =>
      refine .inl (le_trans ?_ hclock)
      simpa [Job.dueRetry, hs, ht] using hdue
    | succeed _ hs' | retry _ _ hs' | bury _ _ hs' | release _ hs' | cancel hs' | reset _ hs' =>
      cases hs.symm.trans hs'

theorem backs_of_retries (hf : Fenced env s a) (hr : s.Retries env a j t) (h : step env s a = some s') :
    s'.store.Backs j t := by
  obtain ⟨⟨pid, c⟩, hc, hret⟩ := hr
  obtain ⟨ch, x, hx⟩ := run_of_call? h hc
  cases c <;> cases hret
  obtain ⟨r, hrow, _⟩ := (hf _ hc).1 j rfl
  have hrow' := Call.run_job?_of_update hx hrow rfl (decide_eq_true (Database.id_of_job? hrow))
  exact .inr ⟨_, hrow', rfl, rfl⟩

/-- Once it is written that `j` is to be retried at `r`, no handler of `j` is started before `r`. -/
def BackoffLaw (env : Env) (ok : State → Action → Prop) : Prop :=
  ∀ t s s₁ s₂ a b j r, Reachable ok (step env) (.init t) s → ok s a → s.Retries env a j r →
    step env s a = some s₁ → Reachable ok (step env) s₁ s₂ → ok s₂ b → s₂.Starts b j →
    r ≤ s₂.store.clock

/-- Outcomes and handler starts under the lock only, and a `sync_from_db` that adds only what is missing. -/
structure Punctual (env : Env) (s : State) (a : Action) : Prop where
  fenced : Fenced env s a
  missing : SyncsMissing env s a
  held : StartsHeld s a

instance : Decidable (Punctual env s a) :=
  decidable_of_iff (Fenced env s a ∧ SyncsMissing env s a ∧ StartsHeld s a)
    ⟨fun ⟨h₁, h₂, h₃⟩ => ⟨h₁, h₂, h₃⟩, fun ⟨h₁, h₂, h₃⟩ => ⟨h₁, h₂, h₃⟩⟩

theorem backoffLaw_of_punctual (env : Env) : BackoffLaw env (Punctual env) := by
  intro t s s₁ s₂ a b j r h hok hretries hstep hrun hokb hstart
  have hunduplicated (s : State) (hs : Reachable (Punctual env) (step env) s₁ s) : Unduplicated s := by
    apply ((h.next hok hstep).trans hs).invariant (unduplicated_init t)
    intro s a s' hI hok h
    exact unduplicated_step hI hok.fenced hok.missing h
  have hbacks : s₂.store.Backs j r := by
    apply hrun.invariant_with hunduplicated (backs_of_retries hok.fenced hretries hstep)
    intro s a s' hU hI hok h
    exact backs_step hU hok.fenced hI h
  rcases hbacks with hr | ⟨row, hrow, hs, _⟩
  · exact hr
  · -- a worker that starts the handler holds the lock, so the row would be `RUNNING`
    obtain ⟨pid, hpid, p, hp, hj⟩ := hstart
    obtain ⟨job, hjob, rfl⟩ := Option.map_eq_some_iff.mp hj
    obtain ⟨row', hrow', hs', _⟩ := hokb.held pid hpid p hp job hjob
    cases hrow.symm.trans hrow'
    cases hs.symm.trans hs'

/-- The first attempt at job 7 fails at 0 s; the retry that scheduler 2 promotes a minute later starts. -/
theorem backoffLaw_waited : ∃ s₂ : State, s₂.Starts (.run 1 {}) 7 ∧ 1000000 ≤ s₂.store.clock := by
  obtain ⟨s, h, hs⟩ : ∃ s, Reachable (Punctual minutely) (step minutely) (.init 0) s ∧ _ :=
    exists_reachable_of_exec (taken report ++ [.run 1 { outcome := .error (.exception "down") }] ++ calls 1 1)
      (fun s => Punctual minutely s (.run 1 {}) ∧ s.Retries minutely (.run 1 {}) 7 1000000 ∧
        ∃ s₁ ∈ step minutely s (.run 1 {}),
        ∃ s₂ ∈ exec (Punctual minutely) (step minutely) s₁ (calls 1 2 ++
          [Action.tick 60000000, .spawn .scheduler] ++ calls 2 6 ++ calls 1 4),
            Punctual minutely s₂ (.run 1 {}) ∧ s₂.Starts (.run 1 {}) 7)
      (by decide +kernel)
  obtain ⟨hok, hretries, s₁, hs₁, s₂, hs₂, hok₂, hstart⟩ := of_decide_eq_true hs
  exact ⟨s₂, hstart, backoffLaw_of_punctual minutely 0 s s₁ s₂ _ _ 7 _ h hok hretries hs₁
    (reachable_exec hs₂) hok₂ hstart⟩

/-- `sync_from_db` has added job 7 a second time; its first attempt fails at 0 s, to be retried after a
second, and the second attempt starts at once. -/
theorem not_backoffLaw : ¬ BackoffLaw minutely Unrestricted := by
  intro law
  obtain ⟨s, h, hs⟩ : ∃ s, Reachable Unrestricted (step minutely) (.init 0) s ∧ _ :=
    exists_reachable_of_exec (promoted ++ [.spawn .scheduler] ++ calls 2 5 ++ [.spawn .worker] ++
      calls 3 5 ++
        [.run 3 { outcome := .error (.exception "down") }] ++ calls 3 1)
      (fun s => s.Retries minutely (.run 3 {}) 7 1000000 ∧ ∃ s₁ ∈ step minutely s (.run 3 {}),
        ∃ s₂ ∈ exec Unrestricted (step minutely) s₁ (calls 3 6), s₂.Starts (.run 3 {}) 7 ∧
          s₂.store.clock < 1000000) (by decide +kernel)
  obtain ⟨hretries, s₁, hs₁, s₂, hs₂, hstart, hlt⟩ := of_decide_eq_true hs
  have hle := law _ _ _ _ _ _ _ _ h trivial hretries hs₁ (reachable_exec hs₂) trivial hstart
  exact absurd hle (not_le.mpr hlt)

end DistribuQ
