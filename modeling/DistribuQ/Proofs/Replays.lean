import DistribuQ.Proofs.DeadLetters
import DistribuQ.Library.Matching

/-! How often a dead letter is replayed, whatever requests name it at the same time. -/

namespace DistribuQ
open Transition
variable {env : Env} {s s' : State} {a : Action} {d j : Uuid}

def Database.letter? (db : Database) (d : Uuid) : Option DeadLetter := db.deadLetters.find? d

/-- The step deletes the dead letter `d` and resets the job that was read with it; without it no replay of `d`
succeeds. -/
def State.UsesUp (env : Env) (s : State) (a : Action) (d : Uuid) : Prop :=
  ∃ x ∈ s.call? env a, ∃ l ∈ x.2.replayed?, l.1 = d

/-- The step inserts a dead letter with the id `d`. -/
def State.Buries (env : Env) (s : State) (a : Action) (d : Uuid) : Prop :=
  s.store.db.letter? d = none ∧ ∃ s' ∈ step env s a, (s'.store.db.letter? d).isSome = true

instance (env : Env) (s : State) (a : Action) (d : Uuid) : Decidable (s.UsesUp env a d) :=
  inferInstanceAs (Decidable (∃ x ∈ s.call? env a, _))

instance (env : Env) (s : State) (a : Action) (d : Uuid) : Decidable (s.Buries env a d) :=
  inferInstanceAs (Decidable (_ ∧ ∃ s' ∈ step env s a, _))

theorem Call.letter?_replayWrite {ch : Choice} {st st' : Store} {x : Unit}
    (h : run env ch st (.replayWrite d j) = some (st', x)) : st'.db.letter? d = none := by
  cases h
  refine (Table.find?_eq_none _).mpr fun l hl => ?_
  simpa using (List.mem_filter.mp hl).2

/-- Where every replay finds its dead letter a replay uses it up. -/
theorem letter_le_of_step (hf : Fenced env s a) (hn : ¬ s.Buries env a d) (h : step env s a = some s') :
    indicator ((s'.store.db.letter? d).isSome = true) + indicator (s.UsesUp env a d) ≤
      indicator ((s.store.db.letter? d).isSome = true) := by
  by_cases hr : s.UsesUp env a d
  · obtain ⟨⟨pid, c⟩, hc, ⟨d', j⟩, hl, rfl⟩ := hr
    obtain ⟨l, hfound, _⟩ := (hf _ hc).2 _ hl
    have hbefore : (s.store.db.letter? d').isSome = true := Option.isSome_iff_exists.mpr ⟨l, hfound⟩
    obtain ⟨ch, x, hx⟩ := run_of_call? h hc
    have hafter : s'.store.db.letter? d' = none := by
      cases c <;> cases hl
      exact Call.letter?_replayWrite hx
    rw [indicator_pos hbefore, hafter]
    exact Nat.add_le_of_le_sub (indicator_le_one) (Nat.zero_le _)
  · rw [indicator_neg hr]
    refine indicator_mono fun hafter => ?_
    cases hbefore : s.store.db.letter? d with
    | some l => rfl
    | none => exact absurd ⟨hbefore, s', h, hafter⟩ hn

/-- While no other dead letter is given its id, each is replayed at most once, and every replay finds its job in
`DEAD_LETTER`. -/
def ReplaysOnce (env : Env) (ok : State → Action → Prop) : Prop :=
  ∀ t s₀, Reachable ok (step env) (.init t) s₀ →
    (∀ d tr s, Run (fun s a => ok s a ∧ ¬ s.Buries env a d) (step env) s₀ tr s →
      total (fun s a => indicator (s.UsesUp env a d)) tr ≤ 1) ∧
    ∀ a, ok s₀ a → ∀ x ∈ s₀.call? env a, ∀ l ∈ x.2.replayed?, s₀.store.db.status? l.2 = some .deadLetter

theorem replaysOnce_of_fenced (env : Env) : ReplaysOnce env (Fenced env) := by
  intro t s₀ h
  refine ⟨fun d tr s hrun => ?_, fun a ha x hx l hl => ?_⟩
  · let held (s : State) : Nat := indicator ((s.store.db.letter? d).isSome = true)
    have hle : held s + total (fun s a => indicator (s.UsesUp env a d)) tr ≤
        held s₀ + total (fun _ _ => 0) tr :=
      hrun.balance_le fun s a s' ha hs => letter_le_of_step ha.1 ha.2 hs
    have hnone : total (fun (_ : State) (_ : Action) => 0) tr = 0 := tally_eq_zero fun _ _ => rfl
    have hone : held s₀ ≤ 1 := indicator_le_one
    omega
  · exact (lettersAgree_of_reachable h).status? ((ha x hx).2 l hl)

/-- Job 7 has failed for good in its only attempt, and two requests have read its dead letter, 8. -/
def readTwice (req : JobCreateRequest) : List Action :=
  taken req ++ [.run 1 { outcome := .error (.exception "down") }, .run 1 { freshId := 8 },
    .spawn (.replay 8), .spawn (.replay 7), .run 2 {}, .run 3 {}]

/-- The dead letter is used up once, where job 7 is `DEAD_LETTER`, and the job is run again. -/
theorem replaysOnce_of_fenced_read : ∃ s₀ tr s, Reachable (Fenced minutely) (step minutely) (.init 0) s₀ ∧
    Run (fun s a => Fenced minutely s a ∧ ¬ s.Buries minutely a 8) (step minutely) s₀ tr s ∧
    total (fun s a => indicator (s.UsesUp minutely a 8)) tr = 1 ∧ s₀.store.db.status? 7 = some .deadLetter ∧
    s.store.db.status? 7 = some .running := by
  obtain ⟨s₀, h, hs⟩ : ∃ s, Reachable (Fenced minutely) (step minutely) (.init 0) s ∧ _ :=
    exists_reachable_of_exec (readTwice (limited 1)) (fun s => Fenced minutely s (.run 2 {}) ∧
      (∃ x ∈ s.call? minutely (.run 2 {}), x.2.replayed? = some (8, 7)) ∧
      (exec (fun s a => Fenced minutely s a ∧ ¬ s.Buries minutely a 8) (step minutely) s (calls 2 2 ++ calls 1 6)).any
        fun s' => s'.store.db.status? 7 = some .running ∧
          1 ≤ total (fun s a => indicator (s.UsesUp minutely a 8)) (trace (step minutely) s (calls 2 2 ++ calls 1 6)))
      (by decide +kernel)
  obtain ⟨hf, ⟨x, hx, hread⟩, hexec⟩ := of_decide_eq_true hs
  obtain ⟨s, hs, hpos⟩ := (Option.any_eq_true _ _).mp hexec
  obtain ⟨hrunning, hpos⟩ := of_decide_eq_true hpos
  obtain ⟨hone, hdead⟩ := replaysOnce_of_fenced minutely 0 s₀ h
  exact ⟨s₀, _, s, h, run_exec hs, (hone 8 _ s (run_exec hs)).antisymm hpos, hdead _ hf x hx _ hread, hrunning⟩

/-- The first request writes, the worker has the job again, and the second request resets it while it runs. -/
theorem not_replaysOnce : ¬ ReplaysOnce minutely fun _ a => NoFault a ∧ NoCancel a ∧ NoCrash a := by
  intro law
  obtain ⟨s, h, hs⟩ : ∃ s, Reachable (fun _ a => NoFault a ∧ NoCancel a ∧ NoCrash a) (step minutely)
      (.init 0) s ∧ _ :=
    exists_reachable_of_exec (readTwice (limited 1) ++ calls 2 2 ++ calls 1 6) (fun s =>
      s.store.db.status? 7 = some .running ∧ (s.call? minutely (.run 3 {})).any fun x =>
        x.2.replayed? = some (8, 7)) (by decide)
  obtain ⟨hrunning, hcall⟩ := of_decide_eq_true hs
  obtain ⟨x, hx, hl⟩ := (Option.any_eq_true _ _).mp hcall
  have hdead := (law 0 s h).2 (.run 3 {}) ⟨rfl, trivial, trivial⟩ x hx (8, 7) (of_decide_eq_true hl)
  cases hrunning.symm.trans hdead

end DistribuQ
