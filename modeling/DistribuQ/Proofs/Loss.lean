import DistribuQ.Proofs.Ledger

/-! No `PENDING` job is out of reach, where no worker crashes with the last copy of its id. -/

namespace DistribuQ
open Transition
variable {env : Env} {s s' : State} {a : Action} {j : Uuid}

/-- The id of `j` is in a ready list or in the scheduled set, or in the hands of a process. -/
def State.Reaches (s : State) (j : Uuid) : Prop :=
  (∃ q, j ∈ s.store.redis.lists q) ∨ j ∈ s.store.redis.scheduled.members ∨
    ∃ p ∈ s.procs, ∃ x ∈ p.hand, x.job = j

theorem State.tokens_pos : 0 < s.tokens j ↔ s.Reaches j := by
  rw [tokens, Nat.add_pos_iff_pos_or_pos, Redis.copies_pos, tally_pos, Reaches, or_assoc]
  simp only [Proc.holds_pos]

/-- Every call returns, no request cancels a job, and only workers crash. -/
def WorkersMayCrash (s : State) (a : Action) : Prop := NoFault a ∧ NoCancel a ∧ CrashesWorkers s a

/-- No process crashes with the last copy of the id of a `PENDING` job in its hands. -/
def CrashesSpare (s : State) : Action → Prop
  | .crash pid => ∀ p ∈ s.procs[pid]?, ∀ x ∈ p.hand, s.store.db.status? x.job = some .pending →
      p.holds x.job < s.tokens x.job
  | _ => True

instance : Decidable (WorkersMayCrash s a) := inferInstanceAs (Decidable (_ ∧ _ ∧ _))

instance : Decidable (CrashesSpare s a) :=
  match a with
  | .crash pid => inferInstanceAs (Decidable (∀ p ∈ s.procs[pid]?, _))
  | .tick _ | .spawn _ | .run _ _ | .heartbeat _ _ | .signal _ => instDecidableTrue

def PendingKept (s : State) : Prop := ∀ j, s.store.db.status? j = some .pending → 0 < s.tokens j

theorem pendingKept_step (hI : PendingKept s) (hn : ∀ x ∈ s.call? env a, x.2.removes = false) (hf : NoFault a)
    (hc : CrashesSpare s a) (h : step env s a = some s') : PendingKept s' := by
  intro j hj
  cases trades_of_step (j := j) hf h with
  | quiet hq htokens =>
    have hstatus : s'.store.db.status? j = s.store.db.status? j := by
      rw [Database.status?, Database.job?, hq.jobs]
      rfl
    rw [htokens]
    exact hI j (hstatus ▸ hj)
  | @crashed pid p hp hst htokens =>
    rw [hst] at hj
    by_cases hheld : 0 < p.holds j
    · obtain ⟨y, hy, rfl⟩ := Proc.holds_pos.mp hheld
      have hspare := hc p hp y hy hj
      omega
    · have hpos := hI j hj
      omega
  | @ran pid ch p op x hp hop hx htokens =>
    have hremoves := hn _ (call?_of_no_fault hp (.inl ⟨rfl, hop⟩) hf)
    have hbalance := htokens hremoves
    have hnl : op.call.locked? ≠ some j := fun hl => Call.not_pending_of_locked hx hl hj
    rw [indicator_neg hnl, Nat.add_zero] at hbalance
    by_cases hz : op.call.zadded? = some j ∧ j ∈ s.store.redis.scheduled.members
    -- the copy that is lost was in hand, the one in the scheduled set stays
    · obtain ⟨hput, hpopped⟩ := Call.put_of_zadded hz.1 x
      have hqueues := Call.copies_of_run (j := j) hx hremoves
      rw [indicator_pos hz, indicator_pos hput, hpopped, List.count_nil] at hqueues
      have hpos := Redis.copies_pos.mpr (.inr hz.2)
      have hle : s'.store.redis.copies j ≤ s'.tokens j := Nat.le_add_right _ _
      omega
    · rw [indicator_neg hz, Nat.add_zero] at hbalance
      rw [hbalance]
      by_cases hs : s.store.db.status? j = some .pending
      · exact Nat.add_pos_left (hI j hs) _
      · exact Nat.add_pos_right _ (List.count_pos_iff.mpr (Call.mem_fresh_of_pending hx hs hj))

/-- A process that does crash with the last copies leaves the job out of reach. -/
theorem lost_of_crash {pid : Nat} {p : Proc} (hp : s.procs[pid]? = some p) (hlast : s.tokens j ≤ p.holds j)
    (hj : s.store.db.status? j = some .pending) (h : step env s (.crash pid) = some s') :
    s'.store.db.status? j = some .pending ∧ ¬ s'.Reaches j := by
  cases trades_of_step (a := .crash pid) (j := j) trivial h with
  | quiet hq => cases hq.crashes
  | crashed hq hst htokens =>
    cases hp.symm.trans hq
    refine ⟨hst ▸ hj, fun hreach => ?_⟩
    have hpos := State.tokens_pos.mpr hreach
    omega

/-- No job is silently lost: whatever is `PENDING` a worker can still come by. -/
def NoneLost (env : Env) (ok : State → Action → Prop) : Prop :=
  ∀ (t : Nat) (s : State) (j : Uuid), Reachable ok (step env) (.init t) s →
    s.store.db.status? j = some .pending → s.Reaches j

theorem noneLost_of_spare (env : Env) : NoneLost env fun s a => WorkersMayCrash s a ∧ CrashesSpare s a := by
  intro t s j h hj
  have hcancels (s : State) (h : Reachable (fun s a => WorkersMayCrash s a ∧ CrashesSpare s a) (step env)
      (.init t) s) : NoCancels s := by
    apply h.invariant
    · intro i pc hp
      cases hp
    · rintro s a s' hn ⟨⟨_, hc, _⟩, _⟩ h
      exact noCancels_step hn hc h
  have hkept : PendingKept s := by
    apply h.invariant_with hcancels
    · intro j hj
      cases hj
    · rintro s a s' hn hI ⟨⟨hf, _, _⟩, hspare⟩ h
      exact pendingKept_step hI hn.removes_call? hf hspare h
  exact State.tokens_pos.mp (hkept j hj)

/-- Worker 1 crashes in the handler of job 7, and the reaper has the job again. -/
theorem noneLost_crashed : ∃ s, Reachable (fun s a => WorkersMayCrash s a ∧ CrashesSpare s a) (step minutely)
    (.init 0) s ∧ s.store.db.status? 7 = some .pending ∧ s.Reaches 7 := by
  obtain ⟨s, h, hs⟩ : ∃ s, Reachable (fun s a => WorkersMayCrash s a ∧ CrashesSpare s a) (step minutely)
      (.init 0) s ∧ _ :=
    exists_reachable_of_exec (taken report ++
      [.crash 1, .tick 61000000, .spawn (.reaper 60 10)] ++ calls 2 3)
      (fun s => s.store.db.status? 7 = some .pending) (by decide)
  have hs := of_decide_eq_true hs
  exact ⟨s, h, hs, noneLost_of_spare minutely 0 s 7 h hs⟩

/-- Worker 1 crashes after `RPOPLPUSH`: job 7 is left in `queue:processing`, which nothing reads. -/
theorem not_noneLost : ¬ NoneLost minutely WorkersMayCrash := by
  intro law
  obtain ⟨s, h, hs⟩ : ∃ s, Reachable WorkersMayCrash (step minutely) (.init 0) s ∧ _ :=
    exists_reachable_of_exec ((taken report).take 9 ++ [.crash 1])
      (fun s => s.store.db.status? 7 = some .pending ∧ s.tokens 7 = 0) (by decide)
  obtain ⟨hpending, hzero⟩ := of_decide_eq_true hs
  have hpos := State.tokens_pos.mpr (law 0 s 7 h hpending)
  omega

end DistribuQ
