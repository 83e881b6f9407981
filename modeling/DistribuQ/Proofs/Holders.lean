import DistribuQ.Proofs.DeadLetters

/-! For which attempt a worker holds its lock. -/

namespace DistribuQ
open Transition
variable {env : Env} {s s' : State} {a : Action} {k : Uuid}

/-- A worker in an attempt that still holds the lock holds it for this attempt. -/
def AttemptsAgree (s : State) : Prop :=
  ∀ i p job r, s.procs[i]? = some p → p.attempt? = some job → s.store.db.job? job.id = some r →
    r.status = .running → r.lockedBy = some i → r.attempts = job.attempts

theorem held_of_step {i : Nat} {r' : Job} (hI : s.store.db.LettersAgree) (hf : Fenced env s a)
    (h : step env s a = some s') (hr' : s'.store.db.job? k = some r') (hs : r'.status = .running)
    (hl : r'.lockedBy = some i)
    (hlock : ∀ c, s.call? env a = some (i, c) → ∀ j w, c ≠ .fetchAndLockJob j w) :
    s.store.db.job? k = some r' := by
  cases hr : s.store.db.job? k with
  | none =>
    obtain ⟨_, _, c, _, hi, _⟩ := step_job?_none h hr hr'
    cases c <;> cases hi <;> cases hs
  | some r =>
    rcases guarded_step hI hf h hr with hk | ⟨pid, c, r₁, hc, hr₁, hg⟩
    · exact hk.symm.trans hr'
    · cases hr₁.symm.trans hr'
      cases hg with
      | kept => rfl
      | lock =>
        cases hl
        exact absurd rfl (hlock _ hc _ _)
      | _ => cases hs

theorem attemptsAgree_step (hL : s.store.db.LettersAgree) (hI : AttemptsAgree s) (hf : Fenced env s a)
    (h : step env s a = some s') : AttemptsAgree s' := by
  intro i p' job r' hp' ha hr' hs hl
  rcases ofPc_of_step Worker.fromLock_attempt? h hp' ha with ⟨p, hp, ha, hlock⟩ | ⟨r, _, _, _, hjob, hrow⟩
  · exact hI i p job r' hp ha (held_of_step hL hf h hr' hs hl hlock) hs hl
  · cases hrow.symm.trans hr'
    rw [hjob]
    rfl

theorem attemptsAgree_of_reachable {t : Nat} (h : Reachable (Fenced env) (step env) (.init t) s) :
    AttemptsAgree s := by
  apply h.invariant_with fun s h => lettersAgree_of_reachable h
  · intro i p _ _ hp
    cases hp
  · intro s a s' hL hA hf h
    exact attemptsAgree_step hL hA hf h

end DistribuQ
