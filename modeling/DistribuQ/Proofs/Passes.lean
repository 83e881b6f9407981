import DistribuQ.Proofs.Solo
import DistribuQ.Proofs.Reclaims

/-! What a pass leaves behind when its Redis calls raise. -/

namespace DistribuQ
open Transition
variable {env : Env} {pid : Nat} {ch : Choice} {st st' st₀ : Store} {p p' : Proc} {op : Op Proc}
  {m : Turn} {j : Uuid}
  {tr : List ((Store × Proc) × Turn)}

/-- `Scheduler.promote_retries`, `Scheduler.run_reaper` and `Reaper.run_once`. -/
inductive Pass
  | promoteRetries (p : Scheduler)
  | runReaper (p : Scheduler)
  | runOnce (p : Reaper)

def Pass.start : Pass → Proc
  | promoteRetries p => .scheduler (p.at' .retries)
  | runReaper p => .scheduler (p.at' .expire)
  | runOnce p => .reaper (p.at' .expire)

namespace Proc

/-- In the middle of a pass. -/
def recovering : Proc → Bool
  | scheduler p =>
    match p.pc with
    | .retries | .pushRetries .. | .expire | .stale | .pushStale .. => true
    | _ => false
  | reaper p =>
    match p.pc with
    | .loop | .stopped => false
    | _ => true
  | _ => false

/-- What an exception makes a pass give up: a pass of the scheduler ends with the rest of its batch, the reaper
goes on with the next job. -/
def forgoes : Proc → List Uuid
  | scheduler p =>
    match p.pc with
    | .pushRetries j js => (j :: js).map DueRetry.id
    | .pushStale j js => (j :: js).map StaleJob.id
    | _ => []
  | reaper p =>
    match p.pc with
    | .requeueRem j _ | .requeuePush j _ => [j.id]
    | .pushRetries j _ => [j.id]
    | _ => []
  | _ => []

/-- The queries that a pass has still to make, and the calls its loop has still to make. -/
def rank : Proc → Nat × Nat
  | scheduler p =>
    match p.pc with
    | .expire => (2, 0)
    | .stale | .retries => (1, 0)
    | .pushStale _ js => (0, js.length + 1)
    | .pushRetries _ js => (0, js.length + 1)
    | _ => (0, 0)
  | reaper p =>
    match p.pc with
    | .expire => (3, 0)
    | .stale => (2, 0)
    | .requeueRem _ js => (1, 2 * js.length + 2)
    | .requeuePush _ js => (1, 2 * js.length + 1)
    | .retries => (1, 0)
    | .pushRetries _ js => (0, js.length + 1)
    | _ => (0, 0)
  | _ => (0, 0)

end Proc

namespace Scheduler

theorem rank_staleLoop (p : Scheduler) (js : List StaleJob) :
    (Proc.scheduler (p.at' (staleLoop js))).rank = (0, js.length) := by
  cases js <;> rfl

theorem rank_retryLoop (p : Scheduler) (js : List DueRetry) :
    (Proc.scheduler (p.at' (retryLoop js))).rank = (0, js.length) := by
  cases js <;> rfl

end Scheduler

namespace Reaper

theorem rank_staleLoop (p : Reaper) (js : List StaleJob) :
    (Proc.reaper (p.at' (staleLoop js))).rank = (1, 2 * js.length) := by
  cases js <;> rfl

theorem rank_retryLoop (p : Reaper) (js : List DueRetry) :
    (Proc.reaper (p.at' (retryLoop js))).rank = (0, js.length) := by
  cases js <;> rfl

end Reaper

theorem count_head_add (j : Uuid) {α : Type} {f : α → Uuid} {x : α} {xs : List α} {ids : List Uuid}
    (h : ids = (x :: xs).map f) : [f x].count j + (xs.map f).count j = ids.count j := by
  rw [h, List.map_cons, ← List.count_append, List.singleton_append]

/-- The calls of the passes. -/
def Call.recovers : Call → Bool
  | markExpiredWorkersDead _ | reclaimStaleJobs _ | reclaimDueRetryJobs | lpush .. | rpush ..
  | lremProcessing _ => true
  | _ => false

theorem Proc.lex_of_rank {k n : Nat} {b : Nat × Nat} (h : p.rank = (k, n))
    (hlt : Prod.Lex (· < ·) (· < ·) (k, n) b) : Prod.Lex (· < ·) (· < ·) p.rank b :=
  h ▸ hlt

/-- A pass comes nearer to its end by every call, however it ends. -/
theorem Proc.recovers_of_next (hop : p.next env pid = some op) (hp : p.recovering = true) :
    op.call.recovers = true ∧ ∀ x, Prod.Lex (· < ·) (· < ·) (op.resume x).rank p.rank := by
  cases p with
  | scheduler p =>
    obtain ⟨pc, running, last⟩ := p
    cases pc with
    | retries =>
      cases hop
      refine ⟨rfl, fun x => ?_⟩
      rcases x with e | js
      · exact .left _ _ Nat.zero_lt_one
      · exact lex_of_rank (Scheduler.rank_retryLoop _ js) (.left _ _ Nat.zero_lt_one)
    | stale =>
      cases hop
      refine ⟨rfl, fun x => ?_⟩
      rcases x with e | js
      · exact .left _ _ Nat.zero_lt_one
      · exact lex_of_rank (Scheduler.rank_staleLoop _ js) (.left _ _ Nat.zero_lt_one)
    | pushRetries y ys =>
      cases hop
      refine ⟨rfl, fun x => ?_⟩
      rcases x with e | _
      · exact .right _ (Nat.succ_pos _)
      · exact lex_of_rank (Scheduler.rank_retryLoop _ ys) (.right _ (Nat.lt_succ_self _))
    | pushStale y ys =>
      cases hop
      refine ⟨rfl, fun x => ?_⟩
      rcases x with e | _
      · exact .right _ (Nat.succ_pos _)
      · exact lex_of_rank (Scheduler.rank_staleLoop _ ys) (.right _ (Nat.lt_succ_self _))
    | expire =>
      cases hop
      refine ⟨rfl, fun x => ?_⟩
      rcases x with e | _ <;> exact .left _ _ (by decide)
    | _ => cases hp
  | reaper p =>
    obtain ⟨v, b, pc, running⟩ := p
    cases pc with
    | expire =>
      cases hop
      refine ⟨rfl, fun x => ?_⟩
      rcases x with e | _ <;> exact .left _ _ (by decide)
    | stale =>
      cases hop
      refine ⟨rfl, fun x => ?_⟩
      rcases x with e | js
      · exact .left _ _ (by decide)
      · exact lex_of_rank (Reaper.rank_staleLoop _ js) (.left _ _ (by decide))
    | retries =>
      cases hop
      refine ⟨rfl, fun x => ?_⟩
      rcases x with e | js
      · exact .left _ _ (by decide)
      · exact lex_of_rank (Reaper.rank_retryLoop _ js) (.left _ _ (by decide))
    | requeueRem y ys =>
      cases hop
      refine ⟨rfl, fun x => ?_⟩
      rcases x with e | _
      · exact lex_of_rank (Reaper.rank_staleLoop _ ys) (.right _ (by omega))
      · exact .right _ (Nat.lt_succ_self _)
    | requeuePush y ys =>
      cases hop
      exact ⟨rfl, fun x => lex_of_rank (Reaper.rank_staleLoop _ ys) (.right _ (Nat.lt_succ_self _))⟩
    | pushRetries y ys =>
      cases hop
      exact ⟨rfl, fun x => lex_of_rank (Reaper.rank_retryLoop _ ys) (.right _ (Nat.lt_succ_self _))⟩
    | _ => cases hp
  | _ => cases hp

namespace Proc

/-- A pass whose call raises keeps of its batch what it does not give up. -/
theorem batch_of_error (hop : p.next env pid = some op) (hp : p.recovering = true) (e : String) :
    p.forgoes.count j + (op.resume (.error e)).batch.count j = p.batch.count j := by
  cases p with
  | scheduler p =>
    obtain ⟨pc, running, last⟩ := p
    cases pc with
    | pushRetries y ys =>
      cases hop
      exact congrArg (List.count j) (Scheduler.map_job_retryLoop (y :: ys)).symm
    | pushStale y ys =>
      cases hop
      exact congrArg (List.count j) (Scheduler.map_job_staleLoop (y :: ys)).symm
    | retries | expire | stale =>
      cases hop
      rfl
    | _ => cases hp
  | reaper p =>
    obtain ⟨v, b, pc, running⟩ := p
    cases pc with
    | requeueRem y ys | requeuePush y ys =>
      cases hop
      simp only [Op.map, Reaper.batch_staleLoop]
      exact count_head_add j (Reaper.map_job_staleLoop (y :: ys))
    | pushRetries y ys =>
      cases hop
      simp only [Op.map, Reaper.batch_retryLoop]
      exact count_head_add j (Reaper.map_job_retryLoop (y :: ys))
    | expire | stale | retries =>
      cases hop
      rfl
    | _ => cases hp
  | _ => cases hp

theorem batch_of_not_recovering (hp : p.recovering = false) : p.batch = [] := by
  cases p with
  | scheduler p =>
    obtain ⟨pc, _, _⟩ := p
    cases pc <;> first | rfl | cases hp
  | reaper p =>
    obtain ⟨_, _, pc, _⟩ := p
    cases pc <;> first | rfl | cases hp
  | _ => rfl

theorem exists_next (env : Env) (pid : Nat) (hp : p.recovering = true) :
    ∃ op, p.next env pid = some op := by
  cases p with
  | scheduler p =>
    obtain ⟨pc, _, _⟩ := p
    cases pc <;> first | exact ⟨_, rfl⟩ | cases hp
  | reaper p =>
    obtain ⟨_, _, pc, _⟩ := p
    cases pc <;> first | exact ⟨_, rfl⟩ | cases hp
  | _ => cases hp

end Proc

/-- Some ready list has the id. -/
def Redis.Lists (r : Redis) (j : Uuid) : Prop := ∃ q, j ∈ r.lists q

namespace Call
variable {c : Call}

theorem lists_of_run {x : c.Ret} (h : c.run env ch st = some (st', x)) (hc : c.recovers = true) :
    st'.redis.Lists j ↔ st.redis.Lists j ∨ c.pushed? = some j := by
  have hset {q : Queue} {i : Uuid} {l : List Uuid} (hl : ∀ k, k ∈ l ↔ k ∈ st.redis.lists q ∨ k = i) :
      (st.redis.setList q l).Lists j ↔ st.redis.Lists j ∨ some i = some j := by
    unfold Redis.Lists
    rw [Redis.lists_setList, Option.some.injEq]
    constructor
    · rintro ⟨q', hj⟩
      by_cases hq : q' = q
      · subst hq
        rw [Function.update_self, hl] at hj
        rcases hj with hj | rfl
        · exact .inl ⟨_, hj⟩
        · exact .inr rfl
      · rw [Function.update_of_ne hq] at hj
        exact .inl ⟨q', hj⟩
    · rintro (⟨q', hj⟩ | rfl)
      · refine ⟨q', ?_⟩
        by_cases hq : q' = q
        · subst hq
          rw [Function.update_self, hl]
          exact .inl hj
        · rwa [Function.update_of_ne hq]
      · refine ⟨q, ?_⟩
        rw [Function.update_self, hl]
        exact .inr rfl
  cases c with
  | lpush q i =>
    cases h
    exact hset fun k => List.mem_cons.trans or_comm
  | rpush q i =>
    cases h
    exact hset fun k => by rw [List.mem_append, List.mem_singleton]
  | markExpiredWorkersDead | reclaimStaleJobs | reclaimDueRetryJobs | lremProcessing =>
    cases h
    exact (or_iff_left nofun).symm
  | _ => cases hc

theorem status_of_run {x : c.Ret} (h : c.run env ch st = some (st', x)) (hc : c.recovers = true)
    (j : Uuid) :
    st'.db.status? j = st.db.status? j ∨ st.db.Taken j ∧ st'.db.status? j = some .pending := by
  cases hr : st.db.job? j with
  | none =>
    left
    cases hr' : st'.db.job? j with
    | none => rw [Database.status?_of_job?_none hr, Database.status?_of_job?_none hr']
    | some r' =>
      obtain ⟨hinsert, _⟩ := run_job?_none h hr hr'
      cases c with
      | createJob | scheduleNextOccurrence => cases hc
      | _ => cases hinsert
  | some r =>
    have hr' := run_job? h hr
    have hw : c.Writes st r _ := writes_rewrite c
    generalize c.rewrite st r = r' at hr' hw
    obtain rfl := Database.id_of_job? hr
    rw [Database.status?_of_job? hr', Database.Taken, Database.status?_of_job? hr]
    cases hw with
    | kept => exact .inl rfl
    | release n hstale => exact .inr ⟨.inl (congrArg some (Database.running_of_stale hstale)), rfl⟩
    | promote hdue => exact .inr ⟨.inr (congrArg some (Job.retrying_of_dueRetry hdue)), rfl⟩
    | lock | succeed | retry | bury | cancel | reset => cases hc

end Call

/-- What a call that raises makes a pass give up. -/
def Solo.dropped (env : Env) (pid : Nat) (x : Store × Proc) (m : Turn) : List Uuid :=
  match raised? env pid x m with
  | some _ => x.2.forgoes
  | none => []

def Solo.droppedIn (env : Env) (pid : Nat) (tr : List ((Store × Proc) × Turn)) : List Uuid :=
  tr.flatMap fun y => dropped env pid y.1 y.2

/-- Queries return, and Redis calls return or raise without an effect. -/
structure RedisRaises (env : Env) (pid : Nat) (x : Store × Proc) (m : Turn) : Prop where
  noLoss : NoLoss x m
  sql : ∀ op ∈ x.2.next env pid, op.call.sql = true → m.choice.fault = .none

instance (x : Store × Proc) (m : Turn) : Decidable (RedisRaises env pid x m) :=
  decidable_of_iff (NoLoss x m ∧ ∀ op ∈ x.2.next env pid, op.call.sql = true → m.choice.fault = .none)
    ⟨fun ⟨h₁, h₂⟩ => ⟨h₁, h₂⟩, fun ⟨h₁, h₂⟩ => ⟨h₁, h₂⟩⟩

/-- Every job that a pass was to take is left for a later pass, or is in a ready list. -/
def Recovered (st st' : Store) : Prop := ∀ j, st.db.Taken j → st'.db.Taken j ∨ st'.redis.Lists j

theorem Database.not_taken_of_pending {db : Database} (h : db.status? j = some .pending) :
    ¬ db.Taken j := by
  rintro (ht | ht) <;> cases h.symm.trans ht

/-- A pass under way: what it has moved, it has in hand or has pushed, or has given up. -/
structure Passing (env : Env) (pid : Nat) (st₀ : Store) (tr : List ((Store × Proc) × Turn)) (st : Store)
    (p : Proc) : Prop where
  reclaimer : p.reclaimer = true
  status : ∀ j, st.db.status? j = st₀.db.status? j ∨ st₀.db.Taken j ∧ st.db.status? j = some .pending
  moved : ∀ j, (Solo.droppedIn env pid tr).count j + p.batch.count j ≤
    indicator (st₀.db.Taken j ∧ st.db.status? j = some .pending)
  lists : ∀ j, st.redis.Lists j ↔ st₀.redis.Lists j ∨
    (Solo.droppedIn env pid tr).count j + p.batch.count j <
    indicator (st₀.db.Taken j ∧ st.db.status? j = some .pending)

theorem passing_start (hp : p.reclaimer = true) (hb : p.batch = []) : Passing env pid st [] st p := by
  have hmoved (j : Uuid) : indicator (st.db.Taken j ∧ st.db.status? j = some .pending) = 0 :=
    indicator_neg fun h => Database.not_taken_of_pending h.2 h.1
  refine ⟨hp, fun j => .inl rfl, fun j => ?_, fun j => ?_⟩
  · rw [hb]
    exact Nat.zero_le _
  · rw [hmoved]
    exact (or_iff_left (Nat.not_lt_zero _)).symm

theorem droppedIn_append {x : Store × Proc} : Solo.droppedIn env pid (tr ++ [(x, m)]) =
    Solo.droppedIn env pid tr ++ Solo.dropped env pid x m := by
  simp [Solo.droppedIn, List.flatMap_append]

theorem Call.replayed?_of_recovers {c : Call} (hc : c.recovers = true) : c.replayed? = none := by
  cases c <;> first | rfl | cases hc

/-- A reclaim moves what it reports. -/
theorem Passing.moved_of_run {c : Call} {x : c.Ret} (h : Passing env pid st₀ tr st p)
    (hrun : c.run env ch (st.wait m.elapsed) = some (st', x)) (hc : c.recovers = true) (j : Uuid) :
    (st'.db.status? j = st₀.db.status? j ∨ st₀.db.Taken j ∧ st'.db.status? j = some .pending) ∧
      indicator (st₀.db.Taken j ∧ st'.db.status? j = some .pending) =
        indicator (st₀.db.Taken j ∧ st.db.status? j = some .pending) + (c.reclaimed x).count j := by
  have hreclaimed := Call.reclaimed_of_run (j := j) hrun fun l hl => by
    rw [Call.replayed?_of_recovers hc] at hl
    cases hl
  rw [hreclaimed]
  rcases Call.status_of_run hrun hc j with hsame | ⟨ht, hpending⟩
  · have hsame : st'.db.status? j = st.db.status? j := hsame
    have hnot : ¬ ((st.wait m.elapsed).db.Taken j ∧ st'.db.status? j = some .pending) := by
      rintro ⟨ht, hpending⟩
      exact Database.not_taken_of_pending (hsame.symm.trans hpending) ht
    rw [indicator_neg hnot, hsame]
    exact ⟨h.status j, rfl⟩
  · have hst : ¬ (st₀.db.Taken j ∧ st.db.status? j = some .pending) :=
      fun h => Database.not_taken_of_pending h.2 ht
    have hsame := (h.status j).resolve_right hst
    have ht₀ : st₀.db.Taken j := by
      unfold Database.Taken
      rw [← hsame]
      exact ht
    rw [indicator_pos ⟨ht₀, hpending⟩, indicator_neg hst, indicator_pos ⟨ht, hpending⟩]
    exact ⟨.inr ⟨ht₀, hpending⟩, rfl⟩

theorem Passing.step (h : Passing env pid st₀ tr st p) (hp : p.recovering = true)
    (hm : RedisRaises env pid (st, p) m) (hop : p.next env pid = some op)
    (he : op.Ends env m.choice (st.wait m.elapsed) st' p') :
    Passing env pid st₀ (tr ++ [((st, p), m)]) st' p' := by
  have hreclaimer : p'.reclaimer = true := (Proc.reclaimer_of_next hop he).trans h.reclaimer
  obtain ⟨hc, _⟩ := Proc.recovers_of_next hop hp
  have hlocal : op.call.isLocal = false := by
    generalize op.call = c at hc
    cases c <;> first | rfl | cases hc
  cases he with
  | @returned _ x hf hrun =>
    have hf := hf.resolve_right (by rw [hlocal]; exact Bool.false_ne_true)
    have hdropped : Solo.dropped env pid (st, p) m = [] := by
      unfold Solo.dropped Solo.raised?
      dsimp only
      rw [hop, hf]
    have hbatch (j : Uuid) := Proc.batch_of_next (j := j) hop h.reclaimer x
    have hmoved (j : Uuid) := h.moved_of_run hrun hc j
    refine ⟨hreclaimer, fun j => (hmoved j).1, fun j => ?_, fun j => ?_⟩
    · have hle := h.moved j
      have hb := hbatch j
      rw [droppedIn_append, hdropped, List.append_nil, (hmoved j).2]
      omega
    · have hle := h.moved j
      have hb := hbatch j
      have hlists := Call.lists_of_run (j := j) hrun hc
      have hst : (st.wait m.elapsed).redis.Lists j ↔ _ := h.lists j
      rw [droppedIn_append, hdropped, List.append_nil, (hmoved j).2, hlists, hst, or_assoc]
      apply or_congr_right
      by_cases hpush : op.call.pushed? = some j
      · rw [indicator_pos hpush] at hb
        exact iff_of_true (.inr hpush) (by omega)
      · rw [indicator_neg hpush] at hb
        rw [or_iff_left hpush]
        omega
  | @raised e hf _ =>
    have hdropped : Solo.dropped env pid (st, p) m = p.forgoes := by
      unfold Solo.dropped
      rw [(Solo.raised?_eq_some hop).mpr ⟨rfl, hlocal, e, hf⟩]
    have hbatch (j : Uuid) : (Solo.droppedIn env pid (tr ++ [((st, p), m)])).count j +
        (op.resume (.error e)).batch.count j = (Solo.droppedIn env pid tr).count j + p.batch.count j := by
      rw [droppedIn_append, hdropped, List.count_append, Nat.add_assoc, Proc.batch_of_error hop hp e]
    refine ⟨hreclaimer, h.status, fun j => ?_, fun j => ?_⟩
    · rw [hbatch]
      exact h.moved j
    · rw [hbatch]
      exact h.lists j
  | lost hf => exact absurd hm.noLoss (not_noLoss hf _)

theorem Pass.reclaimer_start (a : Pass) : a.start.reclaimer = true := by
  cases a <;> rfl

theorem Pass.batch_start (a : Pass) : a.start.batch = [] := by
  cases a <;> rfl

/-- Every pass comes to its end, whichever of its Redis calls raise. -/
theorem Pass.passing (env : Env) (pid : Nat) (st : Store) (a : Pass) :
    Eventually (fun x => x.2.recovering = false) (RedisRaises env pid) (Solo.step env pid)
      (st, a.start) fun tr x => x.2.recovering = false ∧ Passing env pid st tr x.1 x.2 := by
  refine Eventually.of_variant (Prod.lex Nat.lt_wfRel Nat.lt_wfRel).wf (fun x => x.2.rank)
    (passing_start a.reclaimer_start a.batch_start) ?_ ?_
  · rintro tr ⟨st', p⟩ h hp
    have hp := Bool.eq_true_of_not_eq_false hp
    obtain ⟨op, hop⟩ := Proc.exists_next env pid hp
    obtain ⟨m, x, _, hf, _, _, hs⟩ := Solo.exists_step hop (.ok .null) default st'
    exact ⟨m, x, ⟨noLoss_of_none hf _, fun _ _ _ => hf⟩, hs⟩
  · rintro tr ⟨st', p⟩ m ⟨st'', p'⟩ h hp hm hs
    have hp := Bool.eq_true_of_not_eq_false hp
    obtain ⟨op, hop, he⟩ := Solo.ends_of_step hs
    refine ⟨h.step hp hm hop he, ?_⟩
    obtain ⟨_, hrank⟩ := Proc.recovers_of_next hop hp
    cases he <;> exact hrank _

/-- At its end a pass has nothing in hand: what it has moved it has pushed or given up. -/
theorem Passing.recovered_iff_lists (h : Passing env pid st₀ tr st p) (hp : p.recovering = false) :
    Recovered st₀ st ↔ ∀ j ∈ Solo.droppedIn env pid tr, st₀.redis.Lists j := by
  have hb := Proc.batch_of_not_recovering hp
  constructor
  · intro hrec j hj
    have hmoved := h.moved j
    have hpos := List.count_pos_iff.mpr hj
    have hboth : st₀.db.Taken j ∧ st.db.status? j = some .pending := by
      by_contra hnot
      rw [indicator_neg hnot] at hmoved
      omega
    rw [indicator_pos hboth] at hmoved
    have hlists := (hrec j hboth.1).resolve_left (Database.not_taken_of_pending hboth.2)
    apply ((h.lists j).mp hlists).resolve_right
    rw [indicator_pos hboth]
    omega
  · intro hdropped j ht
    rcases h.status j with hsame | hboth
    · left
      unfold Database.Taken
      rw [hsame]
      exact ht
    · right
      rw [h.lists j, indicator_pos hboth, hb, List.count_nil]
      by_cases hj : j ∈ Solo.droppedIn env pid tr
      · exact .inl (hdropped j hj)
      · exact .inr (by rw [List.count_eq_zero_of_not_mem hj]; decide)

/-- A pass comes to its end, whichever of its Redis calls raise, and recovers what it takes if and only
if all that it gives up was in a ready list before. -/
theorem recovered_iff (env : Env) (pid : Nat) (st : Store) (a : Pass) :
    Eventually (fun x => x.2.recovering = false) (RedisRaises env pid) (Solo.step env pid)
      (st, a.start) fun tr x =>
      Recovered st x.1 ↔ ∀ j ∈ Solo.droppedIn env pid tr, st.redis.Lists j := by
  have hpass := a.passing env pid st
  refine hpass.mono fun tr x h => ?_
  obtain ⟨hstop, hpassing⟩ := h
  exact hpassing.recovered_iff_lists hstop

/-- Job 7 is due to be retried. -/
def retriable (req : JobCreateRequest) : Store where
  db := { Database.empty with jobs := .single ((req.toNewJob.toJob 0 7).retry "timeout" 0) }
  redis := Redis.empty
  clock := 0

/-- The push of job 7 raises. -/
theorem not_recovered : ¬ Eventually (fun x => x.2.recovering = false) (RedisRaises minutely 0)
    (Solo.step minutely 0)
    (retriable report, (Pass.promoteRetries {}).start) fun _ x => Recovered (retriable report) x.1 := by
  intro hall
  obtain ⟨tr, x, h, hx⟩ : ∃ tr x, Run (Going (fun x => x.2.recovering = false) (RedisRaises minutely 0))
      (Solo.step minutely 0) (retriable report, (Pass.promoteRetries {}).start) tr x ∧ _ :=
    exists_run_of_exec [{}, { choice := { fault := .raised "connection refused" } }]
      (fun _ x => x.1.db.status? 7 = some .pending ∧ (∀ q ∈ Queue.ordered, x.1.redis.lists q = []) ∧
        x.2.recovering = false) (by decide)
  obtain ⟨hstatus, hlists, hstop⟩ := of_decide_eq_true hx
  rcases hall.of_run h hstop 7 (by decide) with ht | ⟨q, hq⟩
  · exact Database.not_taken_of_pending hstatus ht
  · rw [hlists q (by cases q <;> decide)] at hq
    cases hq

end DistribuQ
