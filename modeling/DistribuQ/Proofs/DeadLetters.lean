import DistribuQ.Proofs.Processes

/-! The agreement of `dead_letters` with `jobs`, and what the calls do to a row in the steps where
outcomes are written under the lock and replays find their dead letter. -/

namespace DistribuQ
open Transition
variable {env : Env} {s s' : State} {a : Action} {pid : Nat} {k : Uuid} {r r' : Job}

namespace Database
variable {db : Database} {d j : Uuid}

theorem deadLetterCount_pos (h : db.HasLetter d j) : 0 < db.deadLetterCount j := by
  obtain ⟨l, hl, rfl⟩ := h
  exact List.count_pos_iff.mpr (List.mem_map_of_mem ((Table.find?_eq_some _).mp hl).1)

/-- A job in `DEAD_LETTER` has one dead letter, any other job none. -/
def LettersAgree (db : Database) : Prop :=
  ∀ j, db.deadLetterCount j = if db.status? j = some .deadLetter then 1 else 0

theorem LettersAgree.status? (h : db.LettersAgree) (hd : db.HasLetter d j) :
    db.status? j = some .deadLetter := by
  have hpos := deadLetterCount_pos hd
  rw [h j] at hpos
  by_contra hne
  rw [if_neg hne] at hpos
  exact absurd hpos (lt_irrefl 0)

end Database

namespace Call
variable {ch : Choice} {st st' : Store} {c : Call} {j : Uuid}

def buried? : Call → Option Uuid
  | moveToDeadLetter j _ _ => some j
  | _ => none

theorem deadLetterCount_run {x : c.Ret} (h : c.run env ch st = some (st', x))
    (hl : ∀ l ∈ c.replayed?, st.db.HasLetter l.1 l.2) (j : Uuid) :
    st'.db.deadLetterCount j + (if c.replayed?.map Prod.snd = some j then 1 else 0) =
      st.db.deadLetterCount j + (if c.buried? = some j then 1 else 0) := by
  unfold Database.deadLetterCount
  rw [run_letters h]
  cases c
  case moveToDeadLetter i e n =>
    simp only [letters, buried?, replayed?, List.map_append, List.count_append, List.map_cons, List.map_nil,
      List.count_singleton, Option.map_none, reduceCtorEq, if_false, Option.some.injEq, beq_iff_eq]
    omega
  case replayWrite d i =>
    obtain ⟨l, hl, rfl⟩ := hl (d, i) rfl
    have hperm := (Table.perm_cons_delete _ hl).map DeadLetter.jobId
    rw [hperm.count_eq, List.map_cons, List.count_cons]
    simp only [letters, Table.delete, buried?, replayed?, Option.map_some, Option.some.injEq, beq_iff_eq,
      reduceCtorEq, if_false]
    omega
  all_goals rfl

/-- What a call does to one row where outcomes are written under the lock and replays find their dead
letter: every clause that rewrites a row then has a guard on its status. -/
inductive GuardedWrite (st : Store) (pid : Nat) (r : Job) : Call → Job → Prop
  | kept {c : Call} : (∀ u ∈ c.update? st, u.1 r = false) → GuardedWrite st pid r c r
  | lock : r.claimable = true →
      GuardedWrite st pid r (fetchAndLockJob r.id pid) ((r.lock pid st.clock).touch st.clock)
  | succeed (v : Json) : r.status = .running → r.lockedBy = some pid →
      GuardedWrite st pid r (markJobSuccess r.id v) ((r.succeed v.column).touch st.clock)
  | retry (e : String) (t : Time) : r.status = .running → r.lockedBy = some pid →
      GuardedWrite st pid r (markJobRetrying r.id e t) ((r.retry e t).touch st.clock)
  | bury (e : String) (n : Nat) : r.status = .running → r.lockedBy = some pid →
      GuardedWrite st pid r (moveToDeadLetter r.id e n) ((r.bury e).touch st.clock)
  | release (n : Nat) : r.status = .running → st.db.stale st.clock n r = true →
      GuardedWrite st pid r (reclaimStaleJobs n) (r.release.touch st.clock)
  | promote : r.status = .retrying → r.dueRetry st.clock = true →
      GuardedWrite st pid r reclaimDueRetryJobs (r.release.touch st.clock)
  | cancel : r.status = .pending → GuardedWrite st pid r (cancelUpdate r.id) (r.cancel.touch st.clock)
  | reset (d : Uuid) : r.status = .deadLetter →
      GuardedWrite st pid r (replayWrite d r.id) (r.reset.touch st.clock)

end Call

theorem guarded_of_fenced {c : Call} (hI : s.store.db.LettersAgree) (hf : Fenced env s a)
    (hc : s.call? env a = some (pid, c)) (hr : s.store.db.job? k = some r) (hw : c.Writes s.store r r') :
    c.GuardedWrite s.store pid r r' := by
  have hid := Database.id_of_job? hr
  subst hid
  have hholds (hj : c.outcome? = some r.id) : r.status = .running ∧ r.lockedBy = some pid := by
    obtain ⟨r₀, hr₀, hs, hl⟩ := (hf _ hc).1 _ hj
    cases hr.symm.trans hr₀
    exact ⟨hs, hl⟩
  cases hw with
  | kept h => exact .kept h
  | lock w h =>
    rcases makes_of_call? hc with ⟨_, _, _, _, hm⟩ | ⟨_, _, _, hm⟩
    · cases hm with
      | lock => exact .lock h
      | other hp => exact absurd rfl (hp.lock _ _)
    · cases hm
  | succeed v => exact .succeed v (hholds rfl).1 (hholds rfl).2
  | retry e t => exact .retry e t (hholds rfl).1 (hholds rfl).2
  | bury e n => exact .bury e n (hholds rfl).1 (hholds rfl).2
  | release n h => exact .release n (Database.running_of_stale h) h
  | promote h => exact .promote (Job.retrying_of_dueRetry h) h
  | cancel h => exact .cancel h
  | reset d =>
    have hs := hI.status? ((hf _ hc).2 _ rfl)
    rw [Database.status?_of_job? hr, Option.some.injEq] at hs
    exact .reset d hs

/-- What a fenced call leaves of a row. -/
theorem exists_guarded {c : Call} {ch : Choice} {x : c.Ret} (hI : s.store.db.LettersAgree) (hf : Fenced env s a)
    (hc : s.call? env a = some (pid, c)) (hx : c.run env ch s.store = some (s'.store, x))
    (hr : s.store.db.job? k = some r) :
    ∃ r', s'.store.db.job? k = some r' ∧ c.GuardedWrite s.store pid r r' :=
  ⟨_, Call.run_job? hx hr, guarded_of_fenced hI hf hc hr (Call.writes_rewrite c)⟩

/-- A replay in hand is of a job that has a row. -/
theorem job?_of_replayed {c : Call} (hI : s.store.db.LettersAgree) (hf : Fenced env s a)
    (hc : s.call? env a = some (pid, c)) : ∀ l ∈ c.replayed?, s.store.db.job? l.2 ≠ none := by
  intro l hl hnone
  have hstatus := hI.status? ((hf _ hc).2 l hl)
  rw [Database.status?_of_job?_none hnone] at hstatus
  cases hstatus

theorem guarded_step (hI : s.store.db.LettersAgree) (hf : Fenced env s a) (h : step env s a = some s')
    (hr : s.store.db.job? k = some r) : s'.store.db.job? k = some r ∨ ∃ pid c r',
      s.call? env a = some (pid, c) ∧ s'.store.db.job? k = some r' ∧ c.GuardedWrite s.store pid r r' := by
  rcases step_job? h hr with hr' | ⟨pid, c, hc, hr'⟩
  · exact .inl hr'
  · exact .inr ⟨pid, c, _, hc, hr', guarded_of_fenced hI hf hc hr (Call.writes_rewrite c)⟩

theorem lettersAgree_step (hI : s.store.db.LettersAgree) (hf : Fenced env s a)
    (h : step env s a = some s') : s'.store.db.LettersAgree := by
  rcases store_of_step h with ⟨pid, ch, c, x, hc, hx⟩ | ⟨_, hdb, _⟩
  swap
  · rwa [hdb]
  intro j
  have hcount := Call.deadLetterCount_run hx (hf _ hc).2 j
  rw [hI j] at hcount
  cases hr : s.store.db.job? j with
  | none =>
    -- no guard lets an outcome or a replay name a job without a row, and an insert leaves it `PENDING`
    have hnone := Database.status?_of_job?_none hr
    have hburied : c.buried? ≠ some j := by
      intro hb
      have hout : c.outcome? = some j := by
        cases c <;> cases hb
        rfl
      obtain ⟨_, hr₀, _⟩ := (hf _ hc).1 _ hout
      cases hr.symm.trans hr₀
    have hreplayed : c.replayed?.map Prod.snd ≠ some j := by
      intro hl
      obtain ⟨l, hmem, rfl⟩ := Option.map_eq_some_iff.mp hl
      cases hnone.symm.trans (hI.status? ((hf _ hc).2 l hmem))
    have hstatus : s'.store.db.status? j ≠ some .deadLetter := by
      intro hd
      obtain ⟨r', hr', hd⟩ := Option.map_eq_some_iff.mp hd
      obtain ⟨hi, _⟩ := Call.run_job?_none hx hr hr'
      cases c <;> cases hi <;> cases hd
    rw [hnone, if_neg hburied, if_neg hreplayed] at hcount
    rw [if_neg hstatus]
    exact hcount
  | some r =>
    obtain ⟨r', hr', hg⟩ := exists_guarded hI hf hc hx hr
    have hid := Database.id_of_job? hr
    rw [Database.status?_of_job? hr] at hcount
    rw [Database.status?_of_job? hr']
    cases hg with
    | kept hk =>
      -- the clauses of `moveToDeadLetter` and `replayWrite` match their job whatever its status
      have hburied : c.buried? ≠ some j := by
        intro hb
        cases c <;> cases hb
        exact absurd (hk _ rfl) (by simp [hid])
      have hreplayed : c.replayed?.map Prod.snd ≠ some j := by
        intro hl
        cases c <;> cases hl
        exact absurd (hk _ rfl) (by simp [hid])
      rwa [if_neg hburied, if_neg hreplayed] at hcount
    | lock hp =>
      have hs : r.status ≠ .deadLetter := by
        intro hs
        simp [Job.claimable, hs] at hp
      simpa [Call.replayed?, Call.buried?, Job.touch, Job.lock, hs] using hcount
    | succeed _ hs => simpa [Call.replayed?, Call.buried?, Job.touch, Job.succeed, hs] using hcount
    | retry _ _ hs => simpa [Call.replayed?, Call.buried?, Job.touch, Job.retry, hs] using hcount
    | bury _ _ hs => simpa [Call.replayed?, Call.buried?, Job.touch, Job.bury, hs, hid] using hcount
    | release _ hs | promote hs =>
      simpa [Call.replayed?, Call.buried?, Job.touch, Job.release, hs] using hcount
    | cancel hs => simpa [Call.replayed?, Call.buried?, Job.touch, Job.cancel, hs] using hcount
    | reset _ hs => simpa [Call.replayed?, Call.buried?, Job.touch, Job.reset, hs, hid] using hcount

theorem lettersAgree_of_reachable {t : Nat} (h : Reachable (Fenced env) (step env) (.init t) s) :
    s.store.db.LettersAgree :=
  h.invariant (fun _ => rfl) fun _ _ _ => lettersAgree_step

/-- In every state of every run a job is in `DEAD_LETTER` if and only if `dead_letters` holds a row for
it, and never more than one. -/
def LettersLaw (env : Env) (ok : State → Action → Prop) : Prop :=
  ∀ t s, Reachable ok (step env) (.init t) s → ∀ j,
    (s.store.db.status? j = some .deadLetter ↔ 0 < s.store.db.deadLetterCount j) ∧
      s.store.db.deadLetterCount j ≤ 1

theorem lettersLaw_of_fenced (env : Env) : LettersLaw env (Fenced env) := by
  intro t s h j
  rw [lettersAgree_of_reachable h j]
  split_ifs with hs
  · exact ⟨iff_of_true hs one_pos, le_rfl⟩
  · exact ⟨iff_of_false hs (lt_irrefl 0), zero_le_one⟩

/-- The first attempt is reclaimed, the second is the last one and fails. -/
def buried : List Action :=
  overrun (limited 1) ++ [.run 3 { outcome := .error (.exception "down") }, .run 3 { freshId := 8 }]

theorem lettersLaw_buried : ∃ s, Reachable (Fenced minutely) (step minutely) (.init 0) s ∧
    s.store.db.status? 7 = some .deadLetter ∧ s.store.db.deadLetterCount 7 = 1 := by
  obtain ⟨s, h, hs⟩ : ∃ s, Reachable (Fenced minutely) (step minutely) (.init 0) s ∧ _ :=
    exists_reachable_of_exec buried (fun s => s.store.db.status? 7 = some .deadLetter) (by decide)
  have hs := of_decide_eq_true hs
  obtain ⟨hiff, hle⟩ := lettersLaw_of_fenced minutely 0 s h 7
  exact ⟨s, h, hs, by have := hiff.mp hs; omega⟩

/-- The worker that lost the job then reports success. -/
theorem not_lettersLaw : ¬ LettersLaw minutely fun _ a => NoCancel a := by
  intro law
  obtain ⟨s, h, hs⟩ : ∃ s, Reachable (fun _ a => NoCancel a) (step minutely) (.init 0) s ∧ _ :=
    exists_reachable_of_exec (buried ++ calls 1 2)
      (fun s => s.store.db.status? 7 = some .success ∧ 0 < s.store.db.deadLetterCount 7) (by decide)
  obtain ⟨hstatus, hcount⟩ := of_decide_eq_true hs
  have hdead := (law 0 s h 7).1.mpr hcount
  rw [hstatus] at hdead
  cases hdead

end DistribuQ
