import DistribuQ.Proofs.Holders
import Mathlib.Logic.Relation

/-! The state machine of the job status: which call makes which move. -/

namespace DistribuQ
open Transition
variable {env : Env} {s s' : State} {a : Action} {j : Uuid} {x y : JobStatus}

/-- The moves of the state machine, whoever makes them. -/
inductive JobStatus.Move : JobStatus → JobStatus → Prop
  | start : Move .pending .running
  | restart : Move .retrying .running
  | succeed : Move .running .success
  | retry : Move .running .retrying
  | bury : Move .running .deadLetter
  | reclaim : Move .running .pending
  | due : Move .retrying .pending
  | cancel : Move .pending .failed
  | replay : Move .deadLetter .pending

/-- The same with the call that makes each move. -/
inductive Call.Moves (j : Uuid) : Call → JobStatus → JobStatus → Prop
  | start (w : WorkerId) : Moves j (fetchAndLockJob j w) .pending .running
  | restart (w : WorkerId) : Moves j (fetchAndLockJob j w) .retrying .running
  | succeed (v : Json) : Moves j (markJobSuccess j v) .running .success
  | retry (e : String) (t : Time) : Moves j (markJobRetrying j e t) .running .retrying
  | bury (e : String) (n : Nat) : Moves j (moveToDeadLetter j e n) .running .deadLetter
  | reclaim (n : Nat) : Moves j (reclaimStaleJobs n) .running .pending
  | due : Moves j reclaimDueRetryJobs .retrying .pending
  | cancel : Moves j (cancelUpdate j) .pending .failed
  | replay (d : Uuid) : Moves j (replayWrite d j) .deadLetter .pending

theorem Call.Moves.move {c : Call} (h : c.Moves j x y) : x.Move y := by
  cases h <;> constructor

theorem JobStatus.eq_of_moves (hx : x = .success ∨ x = .failed) (h : Relation.ReflTransGen Move x y) :
    y = x := by
  rcases h.cases_head with heq | ⟨_, h, _⟩
  · exact heq.symm
  · rcases hx with rfl | rfl <;> cases h

theorem status_of_step (hI : s.store.db.LettersAgree) (hf : Fenced env s a) (h : step env s a = some s')
    (hx : s.store.db.status? j = some x) : ∃ y, s'.store.db.status? j = some y ∧
      (y = x ∨ ∃ pid c, s.call? env a = some (pid, c) ∧ c.Moves j x y) := by
  obtain ⟨r, hr, rfl⟩ := Option.map_eq_some_iff.mp hx
  have hid := Database.id_of_job? hr
  subst hid
  rcases guarded_step hI hf h hr with hr' | ⟨pid, c, r', hc, hr', hg⟩
  · exact ⟨r.status, Database.status?_of_job? hr', .inl rfl⟩
  · refine ⟨r'.status, Database.status?_of_job? hr', ?_⟩
    cases hg with
    | kept => exact .inl rfl
    | lock hp =>
      refine .inr ⟨pid, _, hc, ?_⟩
      rcases Bool.or_eq_true_iff.mp hp with hp | hp
      · rw [of_decide_eq_true hp]
        exact .start pid
      · rw [of_decide_eq_true hp]
        exact .restart pid
    | succeed v hs => exact .inr ⟨pid, _, hc, hs ▸ .succeed v⟩
    | retry e t hs => exact .inr ⟨pid, _, hc, hs ▸ .retry e t⟩
    | bury e n hs => exact .inr ⟨pid, _, hc, hs ▸ .bury e n⟩
    | release n hs => exact .inr ⟨pid, _, hc, hs ▸ .reclaim n⟩
    | promote hs => exact .inr ⟨pid, _, hc, hs ▸ .due⟩
    | cancel hs => exact .inr ⟨pid, _, hc, hs ▸ .cancel⟩
    | reset d hs => exact .inr ⟨pid, _, hc, hs ▸ .replay d⟩

theorem moves_of_run {t : Nat} (hs : Reachable (Fenced env) (step env) (.init t) s)
    (h : Reachable (Fenced env) (step env) s s') (hx : s.store.db.status? j = some x) :
    ∃ y, s'.store.db.status? j = some y ∧ Relation.ReflTransGen JobStatus.Move x y := by
  apply h.invariant_with fun s' h => lettersAgree_of_reachable (hs.trans h)
  · exact ⟨x, hx, .refl⟩
  · rintro s₁ a s₂ hL ⟨y, hy, hxy⟩ hok hstep
    obtain ⟨z, hz, rfl | ⟨_, _, _, hm⟩⟩ := status_of_step hL hok hstep hy
    · exact ⟨z, hz, hxy⟩
    · exact ⟨z, hz, hxy.tail hm.move⟩

structure LifecycleLaw (env : Env) (ok : State → Action → Prop) : Prop where
  /-- A step that changes a status makes one of the moves. -/
  moves {t : Nat} {s s' : State} {a : Action} {j : Uuid} {x y : JobStatus} :
    Reachable ok (step env) (.init t) s → ok s a → step env s a = some s' →
    s.store.db.status? j = some x → s'.store.db.status? j = some y → x ≠ y →
    ∃ pid c, s.call? env a = some (pid, c) ∧ c.Moves j x y
  /-- `SUCCESS` and a cancelled `FAILED` are never left. -/
  absorbing {t : Nat} {s s' : State} {j : Uuid} {x : JobStatus} :
    Reachable ok (step env) (.init t) s → Reachable ok (step env) s s' → x = .success ∨ x = .failed →
    s.store.db.status? j = some x → s'.store.db.status? j = some x
  /-- `DEAD_LETTER` is left by a replay only. -/
  replayed {t : Nat} {s s' : State} {a : Action} {j : Uuid} :
    Reachable ok (step env) (.init t) s → ok s a → step env s a = some s' →
    s.store.db.status? j = some .deadLetter → s'.store.db.status? j ≠ some .deadLetter →
    ∃ pid d, s.call? env a = some (pid, .replayWrite d j)

theorem lifecycleLaw_of_fenced (env : Env) : LifecycleLaw env (Fenced env) where
  moves {t s s' a j x y} h hok hstep hx hy hne := by
    obtain ⟨z, hz, rfl | hm⟩ := status_of_step (lettersAgree_of_reachable h) hok hstep hx
    · exact absurd (Option.some.inj (hz.symm.trans hy)) hne
    · cases hz.symm.trans hy
      exact hm
  absorbing {t s s' j x} h hrun hfinal hx := by
    obtain ⟨y, hy, hxy⟩ := moves_of_run h hrun hx
    rw [hy, JobStatus.eq_of_moves hfinal hxy]
  replayed {t s s' a j} h hok hstep hx hne := by
    obtain ⟨y, hy, rfl | ⟨pid, c, hc, hm⟩⟩ := status_of_step (lettersAgree_of_reachable h) hok hstep hx
    · exact absurd hy hne
    · cases hm
      exact ⟨pid, _, hc⟩

def redone : List Action := overrun report ++ calls 3 2

theorem lifecycleLaw_redone : ∃ s, Reachable (Fenced minutely) (step minutely) (.init 0) s ∧
    ∀ s', Reachable (Fenced minutely) (step minutely) s s' → s'.store.db.status? 7 = some .success := by
  obtain ⟨s, h, hs⟩ : ∃ s, Reachable (Fenced minutely) (step minutely) (.init 0) s ∧ _ :=
    exists_reachable_of_exec redone (fun s => s.store.db.status? 7 = some .success) (by decide)
  exact ⟨s, h, fun s' hrun =>
    (lifecycleLaw_of_fenced minutely).absorbing h hrun (.inl rfl) (of_decide_eq_true hs)⟩

/-- Then the handler of the first attempt fails: `SUCCESS` becomes `RETRYING`. -/
theorem not_lifecycleLaw : ¬ LifecycleLaw minutely Unrestricted := by
  intro law
  obtain ⟨s, h, hs⟩ : ∃ s, Reachable Unrestricted (step minutely) (.init 0) s ∧ _ :=
    exists_reachable_of_exec (redone ++ [.run 1 { outcome := .error (.exception "late") }, .run 1 {}])
      (fun s => s.store.db.status? 7 = some .success ∧ ∃ s' ∈ step minutely s (.run 1 {}),
        s'.store.db.status? 7 = some .retrying) (by decide +kernel)
  obtain ⟨hx, s', hs', hy⟩ := of_decide_eq_true hs
  obtain ⟨_, _, _, hm⟩ := law.moves h trivial hs' hx hy nofun
  cases hm

end DistribuQ
