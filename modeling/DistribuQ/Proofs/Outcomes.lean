import DistribuQ.Proofs.Attempts
import DistribuQ.Proofs.RetryDelays

/-! What outcome `process_job` writes when its calls return. -/

namespace DistribuQ
namespace Retry
variable {q b : ℚ} {u : Draw} {n : Nat} {now t : Time} {v : Json}

theorem floor_le_roundHalfEven : ⌊q⌋ ≤ roundHalfEven q := by
  unfold roundHalfEven
  dsimp only
  split_ifs <;> omega

theorem roundHalfEven_le_succ : roundHalfEven q ≤ ⌊q⌋ + 1 := by
  unfold roundHalfEven
  dsimp only
  split_ifs <;> omega

theorem roundHalfEven_nonneg_iff : 0 ≤ roundHalfEven q ↔ -1 / 2 ≤ q := by
  have hle := Int.floor_le q
  have hlt := Int.lt_floor_add_one q
  obtain h | h | h : ⌊q⌋ ≤ -2 ∨ ⌊q⌋ = -1 ∨ 0 ≤ ⌊q⌋ := by omega
  · have hround : roundHalfEven q ≤ ⌊q⌋ + 1 := roundHalfEven_le_succ
    have hcast : (⌊q⌋ : ℚ) ≤ -2 := by exact_mod_cast h
    apply iff_of_false (by omega)
    linarith
  · have hcast : (⌊q⌋ : ℚ) = -1 := by exact_mod_cast h
    unfold roundHalfEven
    dsimp only
    rw [hcast, h]
    -- at -1/2 itself the even neighbour is 0
    split_ifs with h₁ h₂ h₃
    · exact iff_of_false (by decide) (by linarith)
    · exact iff_of_true (by decide) (by linarith)
    · exact absurd h₃ (by decide)
    · exact iff_of_true (by decide) (by linarith)
  · have hround : ⌊q⌋ ≤ roundHalfEven q := floor_le_roundHalfEven
    have hcast : (0 : ℚ) ≤ ⌊q⌋ := by exact_mod_cast h
    exact iff_of_true (by omega) (by linarith)

theorem roundHalfEven_le {m : Int} (h : q ≤ m) : roundHalfEven q ≤ m := by
  have hfloor : ⌊q⌋ ≤ m := Int.floor_le_iff.mpr (h.trans_lt (lt_add_one _))
  rcases hfloor.lt_or_eq with hlt | heq
  · exact roundHalfEven_le_succ.trans (by omega)
  · have hle := Int.floor_le q
    unfold roundHalfEven
    dsimp only
    rw [if_pos (by rw [heq]; linarith)]
    exact hfloor

/-- The base delay is a number, and a delay of it points forward; half a microsecond back rounds to none. -/
def Forward (n : Nat) (baseDelay : Json) (u : Draw) : Prop :=
  ∃ b, number? baseDelay = some b ∧ -1 / 2 ≤ b * 2 ^ n * (1 + u.val / 2) * 1000000

theorem computeBackoffDelay_nonneg_iff :
    -1 / 2 ≤ computeBackoffDelay (n + 1 : Nat) b 300 true u * 1000000 ↔
    -1 / 2 ≤ b * 2 ^ n * (1 + u.val / 2) * 1000000 := by
  have hu := u.nonneg
  rcases le_or_gt 0 b with hb | hb
  · have hdelay : 0 ≤ computeBackoffDelay (n + 1 : Nat) b 300 true u :=
      computeBackoffDelay_nonneg hb (by norm_num)
    have hraw : 0 ≤ b * 2 ^ n * (1 + u.val / 2) * 1000000 := by positivity
    exact iff_of_true (by linarith) (by linarith)
  · have hneg : b * 2 ^ n < 0 := mul_neg_of_neg_of_pos hb (by positivity)
    have hle : b * 2 ^ n * (1 + u.val / 2) ≤ 0 := mul_nonpos_of_nonpos_of_nonneg hneg.le (by linarith)
    have huncapped : uncapped b (n + 1 : Nat) = b * 2 ^ n := by
      rw [uncapped, show (max ((n + 1 : Nat) : Int) 1 - 1).toNat = n by omega]
    have hdelay : computeBackoffDelay (n + 1 : Nat) b 300 true u = b * 2 ^ n * (1 + u.val / 2) := by
      rw [computeBackoffDelay_eq, huncapped, factor, if_pos rfl, min_eq_right (by linarith : b * 2 ^ n ≤ 300)]
      exact min_eq_right (by linarith)
    rw [hdelay]

theorem bounds_of_computeNextRetryAt (h : computeNextRetryAt now (n + 1 : Nat) v u = some t) :
    t ≤ now + seconds 300 ∧
      (now ≤ t ↔ Forward n v u) := by
  obtain ⟨b, hb, -, rfl⟩ := computeNextRetryAt_eq_some.mp h
  have hround : roundHalfEven (computeBackoffDelay (n + 1 : Nat) b 300 true u * 1000000) ≤
      seconds 300 := by
    apply roundHalfEven_le
    have hle : computeBackoffDelay (n + 1 : Nat) b 300 true u ≤ 300 := computeBackoffDelay_le
    have hsec : ((seconds 300 : Int) : ℚ) = 300 * 1000000 := by norm_num [seconds]
    rw [hsec]
    linarith
  refine ⟨Int.add_le_add_left hround now, ?_⟩
  rw [Forward, le_add_iff_nonneg_right, roundHalfEven_nonneg_iff, computeBackoffDelay_nonneg_iff, hb]
  simp

theorem not_forward_of_computeNextRetryAt (h : computeNextRetryAt now (n + 1 : Nat) v u = none)
    (hnow : datetimeMin ≤ now) :
    ¬ Forward n v u := by
  rintro ⟨b, hb, hdelay⟩
  rw [← computeBackoffDelay_nonneg_iff, ← roundHalfEven_nonneg_iff] at hdelay
  have hmin := hnow.trans (le_add_of_nonneg_right hdelay)
  rw [computeNextRetryAt_eq_some.mpr ⟨b, hb, hmin, rfl⟩] at h
  cases h
end Retry

open Transition
variable {env : Env} {w : WorkerId} {ch : Choice} {st st' st₀ : Store} {j k : Uuid} {r r' : Job}
  {job : LockedJob}
  {o : Except Raised Json} {u : Draw}

/-- The calls that queue the next occurrence of a job. -/
def Call.recurs : Call → Bool
  | scheduleNextOccurrence _ | zadd .. => true
  | _ => false

/-- All calls return but those that queue the next occurrence, the handler does `o`, and `u` is drawn. -/
def Succeeding (env : Env) (w : WorkerId) (o : Except Raised Json) (u : Draw) (x : Store × Proc)
    (m : Turn) : Prop :=
  (m.choice.fault ≠ .none → ∃ op ∈ x.2.next env w, op.call.recurs = true) ∧
    m.choice.outcome = o ∧ m.choice.draw = u

/-- The calls made, each with its time. -/
def Solo.calls (env : Env) (pid : Nat) (tr : List ((Store × Proc) × Turn)) : List (Time × Call) :=
  tr.filterMap fun y => (y.1.2.next env pid).map fun op => (y.1.1.clock + y.2.elapsed, op.call)

def Call.delays : Call → Bool
  | computeNextRetryAt .. => true
  | _ => false

def outcomes (j : Uuid) (cs : List (Time × Call)) : Nat := cs.countP fun e => e.2.outcome? = some j

/-- The times from which a retry was put off. -/
def delayedFrom (cs : List (Time × Call)) : List Time := (cs.filter fun e => e.2.delays).map Prod.fst

/-- The outcome that a job locked as `r` in `st` is to have in `st'`. -/
def Job.Outcome (r : Job) (o : Except Raised Json) (nows : List Time) (st st' : Store) : Prop :=
  ∃ r' ∈ st'.db.job? r.id,
    match o with
    | .ok v => r'.status = .success ∧ r'.result = v.column
    | .error _ =>
      if r.attempts + 1 < r.maxAttempts then
        r'.status = .retrying ∧ ∃ now ∈ nows, ∃ t ∈ r'.nextRetryAt, now ≤ t ∧ t ≤ now + seconds 300
      else r'.status = .deadLetter ∧
        ∃ l : DeadLetter, l.jobId = r.id ∧ st'.db.deadLetters.rows = st.db.deadLetters.rows ++ [l]

/-- The attempt ended in one outcome, was counted and was acknowledged. -/
structure Settles (env : Env) (w : WorkerId) (o : Except Raised Json) (r : Job) (st : Store)
    (p : Worker) (tr : List ((Store × Proc) × Turn)) (x : Store × Proc) : Prop where
  once : outcomes r.id (Solo.calls env w tr) = 1
  outcome : r.Outcome o (delayedFrom (Solo.calls env w tr)) st x.1
  counted : ∃ p', x.2 = .worker p' ∧ p'.jobsProcessed = p.jobsProcessed + 1
  acked : x.1.redis.processing = st.redis.processing.erase r.id

/-- The handler returns; or it raises an `Exception`, and no attempt is left or the next one can be put off. -/
def Settleable (o : Except Raised Json) (u : Draw) (r : Job) : Prop :=
  (∃ v, o = .ok v) ∨ (∃ e, o = .error (.exception e)) ∧
    (r.maxAttempts ≤ r.attempts + 1 ∨ Retry.Forward r.attempts (Worker.baseDelay r.payload) u)

/-! What calls leave alone. -/

theorem Call.letters_of_update?_none {c : Call} (hc : c.update? st = none) :
    c.letters ch st = st.db.deadLetters.rows := by
  cases c <;> first | rfl | cases hc

theorem Op.Ends.unwritten {α : Type} {op : Op α} {x : α} (he : op.Ends env ch st st' x)
    (hc : op.call.update? st = none) (hr : st.db.job? k = some r) :
    st'.db.job? k = some r ∧ st'.db.deadLetters.rows = st.db.deadLetters.rows := by
  cases he with
  | raised => exact ⟨hr, rfl⟩
  | returned _ hrun | lost _ _ hrun =>
    refine ⟨?_, (Call.run_letters hrun).trans (Call.letters_of_update?_none hc)⟩
    rw [Call.run_job? hrun hr, Call.rewrite, hc]

theorem Op.Ends.untracked {α : Type} {op : Op α} {x : α} (he : op.Ends env ch st st' x)
    (hc : op.call.tracks = false) : st'.redis.processing = st.redis.processing := by
  cases he with
  | raised => rfl
  | returned _ hrun | lost _ _ hrun => exact Call.processing_of_run hrun hc

theorem Op.Ends.clock_eq {α : Type} {op : Op α} {x : α} (he : op.Ends env ch st st' x) :
    st'.clock = st.clock := by
  cases he with
  | raised => rfl
  | returned _ hrun | lost _ _ hrun => exact Call.run_clock hrun

theorem Solo.calls_append (env : Env) (tr : List ((Store × Proc) × Turn)) (st : Store) (m : Turn)
    {p : Worker}
    {op : Op Worker} (hop : p.next w = some op) : calls env w (tr ++ [((st, .worker p), m)]) =
      calls env w tr ++ [(st.clock + m.elapsed, op.call)] := by
  unfold calls
  rw [List.filterMap_append, List.filterMap_cons, Worker.next_proc env hop]
  rfl

theorem outcomes_append {cs : List (Time × Call)} {e : Time × Call} :
    outcomes j (cs ++ [e]) = outcomes j cs + indicator (e.2.outcome? = some j) := by
  unfold outcomes indicator
  rw [List.countP_append, List.countP_singleton]
  simp only [decide_eq_true_eq]

theorem delayedFrom_append {cs : List (Time × Call)} {e : Time × Call} :
    delayedFrom (cs ++ [e]) = delayedFrom cs ++ if e.2.delays then [e.1] else [] := by
  unfold delayedFrom
  rw [List.filter_append, List.map_append]
  cases h : e.2.delays <;> simp [h]

theorem Job.Outcome.congr {nows : List Time} (hjob : st'.db.job? r.id = st₀.db.job? r.id)
    (hletters : st'.db.deadLetters.rows = st₀.db.deadLetters.rows) :
    r.Outcome o nows st st' ↔ r.Outcome o nows st st₀ := by
  unfold Outcome
  rw [hjob, hletters]

namespace Worker

/-- The program points from an outcome to its acknowledgement. -/
def Pc.closing? : Pc → Option LockedJob
  | emitSuccess job | computeNextRun job _ | scheduleNext job .. | zaddNext job .. | emitRetrying job
  | emitDeadLetter job | ack job => some job
  | _ => none

/-- A failure is counted only after its event. -/
def Pc.uncounted : Pc → Nat
  | emitRetrying _ | emitDeadLetter _ => 1
  | _ => 0

theorem closing?_afterSuccess : (afterSuccess job).closing? = some job :=
  afterSuccess_cases (P := fun pc => pc.closing? = some job) (fun _ => rfl) rfl

theorem locked_of_closing {pc : Pc} (h : pc.closing? = some job) : pc.locked = true := by
  cases pc <;> first | rfl | cases h

theorem uncounted_afterSuccess : (afterSuccess job).uncounted = 0 :=
  afterSuccess_cases (P := fun pc => pc.uncounted = 0) (fun _ => rfl) rfl

/-- The row of a job as `fetch_and_lock_job` returns it. -/
def lockedRow (r : Job) : LockedJob := (r.lock 0 0).toLocked

/-- After the outcome a worker writes nothing more about the job. -/
theorem closing_of_next {p p' : Worker} {op : Op Worker} (hop : p.next w = some op)
    (he : op.Ends env ch st st' p') (hpc : p.pc.closing? = some job)
    (hf : ch.fault ≠ .none → op.call.recurs = true) :
    op.call.update? st = none ∧ op.call.outcome? = none ∧ op.call.delays = false ∧
      (p'.pc.closing? = some job ∧ st'.redis.processing = st.redis.processing ∧
          p'.jobsProcessed + p'.pc.uncounted = p.jobsProcessed + p.pc.uncounted ∨
        p'.pc = .loop ∧ st'.redis.processing = st.redis.processing.erase job.id ∧
          p'.jobsProcessed = p.jobsProcessed + p.pc.uncounted) := by
  obtain ⟨pc, running, n⟩ := p
  cases pc with
  | ack job' =>
    cases hop
    cases hpc
    cases he with
    | returned _ hrun =>
      cases hrun
      exact ⟨rfl, rfl, rfl, .inr ⟨rfl, rfl, rfl⟩⟩
    | raised hf' => cases hf (by rw [hf']; nofun)
    | lost hf' => cases hf (by rw [hf']; nofun)
  | emitSuccess job' =>
    have ht := he.untracked (by cases hop; rfl)
    cases hop
    cases hpc
    refine ⟨rfl, rfl, rfl, .inl ⟨?_, ht, ?_⟩⟩
    · cases he <;> exact closing?_afterSuccess
    · cases he <;> exact congrArg (n + ·) uncounted_afterSuccess
  | emitRetrying job' | emitDeadLetter job' | zaddNext job' k t =>
    have ht := he.untracked (by cases hop; rfl)
    cases hop
    cases hpc
    cases he <;> exact ⟨rfl, rfl, rfl, .inl ⟨rfl, ht, rfl⟩⟩
  | computeNextRun job' rule =>
    have ht := he.untracked (by cases hop; rfl)
    cases hop
    cases hpc
    cases he with
    | @returned _ t _ _ => cases t <;> exact ⟨rfl, rfl, rfl, .inl ⟨rfl, ht, rfl⟩⟩
    | raised _ hl => cases hl
    | lost _ hl => cases hl
  | scheduleNext job' rule t =>
    have ht := he.untracked (by cases hop; rfl)
    cases hop
    cases hpc
    cases he <;> exact ⟨rfl, rfl, rfl, .inl ⟨rfl, ht, rfl⟩⟩
  | _ => cases hpc

end Worker

/-- The attempt so far has written nothing. -/
structure Unsettled (env : Env) (w : WorkerId) (r : Job) (st₀ : Store) (n : Nat)
    (tr : List ((Store × Proc) × Turn)) (st : Store) (p : Worker) : Prop where
  clock : st₀.clock ≤ st.clock
  row : ∃ r', st.db.job? r.id = some r'
  letters : st.db.deadLetters.rows = st₀.db.deadLetters.rows
  processing : st.redis.processing = st₀.redis.processing
  count : p.jobsProcessed = n
  outcomes : outcomes r.id (Solo.calls env w tr) = 0

/-- Where an attempt stands. -/
inductive Settling (env : Env) (w : WorkerId) (o : Except Raised Json) (u : Draw) (r : Job)
    (st₀ : Store) (n : Nat) :
    List ((Store × Proc) × Turn) → Store → Worker → Prop
  | reserved {p : Worker} : p.pc = .fetchAndLock r.id → p.jobsProcessed = n →
      Settling env w o u r st₀ n [] st₀ p
  | started {tr : List ((Store × Proc) × Turn)} {st : Store} {p : Worker} :
      Unsettled env w r st₀ n tr st p →
      delayedFrom (Solo.calls env w tr) = [] →
      p.pc = .emitRunning (Worker.lockedRow r) ∨ p.pc = .handler (Worker.lockedRow r) →
      Settling env w o u r st₀ n tr st p
  | returned {tr : List ((Store × Proc) × Turn)} {st : Store} {p : Worker} {v : Json} :
      Unsettled env w r st₀ n tr st p → o = .ok v → p.pc = .markSuccess (Worker.lockedRow r) v →
      Settling env w o u r st₀ n tr st p
  | failed {tr : List ((Store × Proc) × Turn)} {st : Store} {p : Worker} {e : String} :
      Unsettled env w r st₀ n tr st p → delayedFrom (Solo.calls env w tr) = [] → o = .error (.exception e) →
      p.pc = Worker.onFailure (Worker.lockedRow r) e → Settling env w o u r st₀ n tr st p
  | delayed {tr : List ((Store × Proc) × Turn)} {st : Store} {p : Worker} {e : String} {now t : Time} :
      Unsettled env w r st₀ n tr st p → delayedFrom (Solo.calls env w tr) = [now] →
      o = .error (.exception e) → r.attempts + 1 < r.maxAttempts →
      Retry.computeNextRetryAt now (r.attempts + 1 : Nat) (Worker.baseDelay r.payload) u = some t →
      p.pc = .markRetrying (Worker.lockedRow r) e t → Settling env w o u r st₀ n tr st p
  | closing {tr : List ((Store × Proc) × Turn)} {st : Store} {p : Worker} :
      outcomes r.id (Solo.calls env w tr) = 1 →
      (∃ r', st.db.job? r.id = some r') →
      (r.Outcome o (delayedFrom (Solo.calls env w tr)) st₀ st ↔ Settleable o u r) →
      st.redis.processing = st₀.redis.processing → p.jobsProcessed + p.pc.uncounted = n + 1 →
      p.pc.closing? = some (Worker.lockedRow r) → Settling env w o u r st₀ n tr st p
  | stuck {tr : List ((Store × Proc) × Turn)} {st : Store} {p : Worker} :
      outcomes r.id (Solo.calls env w tr) = 0 → ¬ Settleable o u r →
      p.pc = .ack (Worker.lockedRow r) ∨ p.pc = .ackExit (Worker.lockedRow r) ∨ p.pc = .loop →
      Settling env w o u r st₀ n tr st p
  | closed {tr : List ((Store × Proc) × Turn)} {st : Store} {p : Worker} :
      outcomes r.id (Solo.calls env w tr) = 1 →
      (r.Outcome o (delayedFrom (Solo.calls env w tr)) st₀ st ↔ Settleable o u r) →
      st.redis.processing = st₀.redis.processing.erase r.id → p.jobsProcessed = n + 1 → p.pc = .loop →
      Settling env w o u r st₀ n tr st p

section
variable {n : Nat} {tr : List ((Store × Proc) × Turn)} {p p' : Worker} {op : Op Worker} {m : Turn}

/-- An attempt is under way, or the worker is back in its loop: stuck, or with the outcome written. -/
theorem Settling.under_way_or (h : Settling env w o u r st₀ n tr st p) :
    p.pc = .fetchAndLock r.id ∨ p.pc.locked = true ∨ p.pc = .loop ∧
      (outcomes r.id (Solo.calls env w tr) = 0 ∧ ¬ Settleable o u r ∨
        outcomes r.id (Solo.calls env w tr) = 1 ∧
          (r.Outcome o (delayedFrom (Solo.calls env w tr)) st₀ st ↔ Settleable o u r) ∧
          st.redis.processing = st₀.redis.processing.erase r.id ∧ p.jobsProcessed = n + 1) := by
  cases h with
  | reserved hp => exact .inl hp
  | started _ _ hp =>
    rcases hp with hp | hp <;> exact .inr (.inl (by rw [hp]; rfl))
  | returned _ _ hp | delayed _ _ _ _ _ hp => exact .inr (.inl (by rw [hp]; rfl))
  | failed _ _ _ hp => exact .inr (.inl (by rw [hp]; exact Worker.locked_onFailure _))
  | closing _ _ _ _ _ hp => exact .inr (.inl (Worker.locked_of_closing hp))
  | stuck hzero hnot hp =>
    rcases hp with hp | hp | hp
    · exact .inr (.inl (by rw [hp]; rfl))
    · exact .inr (.inl (by rw [hp]; rfl))
    · exact .inr (.inr ⟨hp, .inl ⟨hzero, hnot⟩⟩)
  | closed hone hiff hprocessing hcount hp =>
    exact .inr (.inr ⟨hp, .inr ⟨hone, hiff, hprocessing, hcount⟩⟩)

theorem Succeeding.fault (hm : Succeeding env w o u (st, .worker p) m) (hop : p.next w = some op)
    (hf : m.choice.fault ≠ .none) : op.call.recurs = true := by
  obtain ⟨op', hop', hc⟩ := hm.1 hf
  cases (Worker.next_proc env hop).symm.trans hop'
  exact hc

theorem Succeeding.run (hm : Succeeding env w o u (st, .worker p) m) (hop : p.next w = some op)
    (hc : op.call.recurs = false) (he : op.Ends env m.choice (st.wait m.elapsed) st' p') :
    ∃ x, op.call.run env m.choice (st.wait m.elapsed) = some (st', x) ∧ p' = op.resume (.ok x) := by
  cases he with
  | returned _ hrun => exact ⟨_, hrun, rfl⟩
  | raised hf => cases hc.symm.trans (hm.fault hop (by rw [hf]; nofun))
  | lost hf => cases hc.symm.trans (hm.fault hop (by rw [hf]; nofun))

variable (env) (tr) (st) (m) in
theorem outcomes_step (hop : p.next w = some op) :
    outcomes j (Solo.calls env w (tr ++ [((st, .worker p), m)])) =
    outcomes j (Solo.calls env w tr) + indicator (op.call.outcome? = some j) := by
  rw [Solo.calls_append env tr st m hop, outcomes_append]

variable (env) (tr) (st) (m) in
theorem delayedFrom_step (hop : p.next w = some op) :
    delayedFrom (Solo.calls env w (tr ++ [((st, .worker p), m)])) =
      delayedFrom (Solo.calls env w tr) ++ if op.call.delays then [st.clock + m.elapsed] else [] := by
  rw [Solo.calls_append env tr st m hop, delayedFrom_append]

theorem Unsettled.step (h : Unsettled env w r st₀ n tr st p) (hop : p.next w = some op)
    (he : op.Ends env m.choice (st.wait m.elapsed) st' p')
    (hu : op.call.update? (st.wait m.elapsed) = none)
    (ho : op.call.outcome? = none) (ht : op.call.tracks = false)
    (hp : p'.jobsProcessed = p.jobsProcessed) :
    Unsettled env w r st₀ n (tr ++ [((st, .worker p), m)]) st' p' := by
  obtain ⟨r', hr'⟩ := h.row
  obtain ⟨hrow, hletters⟩ := he.unwritten hu hr'
  refine ⟨?_, ⟨r', hrow⟩, hletters.trans h.letters, (he.untracked ht).trans h.processing,
    hp.trans h.count, ?_⟩
  · rw [he.clock_eq]
    exact h.clock.trans (le_add_of_nonneg_right (Int.natCast_nonneg _))
  · rw [outcomes_step env st tr m hop, h.outcomes, ho, indicator_neg nofun]

/-- The call that writes the outcome of the attempt. -/
theorem Unsettled.close {f : Job → Job} (h : Unsettled env w r st₀ n tr st p)
    (hm : Succeeding env w o u (st, .worker p) m) (hop : p.next w = some op)
    (he : op.Ends env m.choice (st.wait m.elapsed) st' p') (ho : op.call.outcome? = some r.id)
    (hu : op.call.update? (st.wait m.elapsed) = some (fun r' : Job => decide (r'.id = r.id), f))
    (hpc : p'.pc.closing? = some (Worker.lockedRow r))
    (hcount : p'.jobsProcessed + p'.pc.uncounted = p.jobsProcessed + 1)
    (houtcome : ∀ r₁, st'.db.job? r.id = some ((f r₁).touch (st.wait m.elapsed).clock) →
      st'.db.deadLetters.rows = op.call.letters m.choice (st.wait m.elapsed) →
      (r.Outcome o (delayedFrom (Solo.calls env w tr)) st₀ st' ↔ Settleable o u r)) :
    Settling env w o u r st₀ n (tr ++ [((st, .worker p), m)]) st' p' := by
  have hcall : op.call.recurs = false ∧ op.call.delays = false ∧ op.call.tracks = false := by
    generalize op.call = c at ho
    cases c <;> first | exact ⟨rfl, rfl, rfl⟩ | cases ho
  obtain ⟨hrecurs, hdelays, htracks⟩ := hcall
  obtain ⟨r₁, hr₁⟩ := h.row
  obtain ⟨x, hrun, _⟩ := hm.run hop hrecurs he
  have hrow := Call.run_job?_of_update hrun hr₁ hu (decide_eq_true (Database.id_of_job? hr₁))
  refine .closing ?_ ⟨_, hrow⟩ ?_ ((he.untracked htracks).trans h.processing)
    (hcount.trans (congrArg (· + 1) h.count)) hpc
  · rw [outcomes_step env st tr m hop, h.outcomes, ho, indicator_pos rfl]
  · rw [delayedFrom_step env st tr m hop, hdelays]
    simpa using houtcome r₁ hrow (Call.run_letters hrun)

variable (hm : Succeeding env w o u (st, .worker p) m) (hop : p.next w = some op)
  (he : op.Ends env m.choice (st.wait m.elapsed) st' p')
include hm hop he

theorem Settling.lock (hr : st.db.job? r.id = some r) (hclaim : r.claimable = true)
    (hpc : p.pc = .fetchAndLock r.id)
    (hn : p.jobsProcessed = n) : Settling env w o u r st n ([] ++ [((st, .worker p), m)]) st' p' := by
  obtain ⟨pc, running, k⟩ := p
  obtain rfl : pc = .fetchAndLock r.id := hpc
  have hcalls := Solo.calls_append env [] st m hop
  cases hop
  obtain ⟨row, hrun, rfl⟩ := hm.run rfl rfl he
  rcases row with _ | job
  · cases hclaim.symm.trans (Call.run_fetchAndLockJob_none hrun hr)
  · obtain ⟨r₁, hr₁, _, rfl, _, hrow⟩ := Call.run_fetchAndLockJob_some hrun
    cases hr.symm.trans hr₁
    have hletters := Call.run_letters hrun
    have hclock := Call.run_clock hrun
    refine .started ⟨?_, ⟨_, hrow⟩, hletters, he.untracked rfl, hn, ?_⟩ ?_ (.inl rfl)
    · rw [hclock]
      exact le_add_of_nonneg_right (Int.natCast_nonneg _)
    · rw [hcalls]
      rfl
    · rw [hcalls]
      rfl

theorem Unsettled.start (h : Unsettled env w r st₀ n tr st p)
    (hd : delayedFrom (Solo.calls env w tr) = [])
    (hpc : p.pc = .emitRunning (Worker.lockedRow r) ∨ p.pc = .handler (Worker.lockedRow r)) :
    Settling env w o u r st₀ n (tr ++ [((st, .worker p), m)]) st' p' := by
  obtain ⟨pc, running, k⟩ := p
  have hd' := delayedFrom_step env st tr m hop
  have ho' := outcomes_step env st tr m hop (j := r.id)
  rcases hpc with hpc | hpc
  · obtain rfl : pc = .emitRunning (Worker.lockedRow r) := hpc
    have hstep := h.step hop he
    cases hop
    rw [hd, show (Call.publish _).delays = false from rfl] at hd'
    cases he <;> exact .started (hstep rfl rfl rfl rfl) hd' (.inr rfl)
  · obtain rfl : pc = .handler (Worker.lockedRow r) := hpc
    have hstep := h.step hop he
    cases hop
    rw [hd, show (Call.executeHandler _ _).delays = false from rfl] at hd'
    rw [h.outcomes] at ho'
    obtain ⟨x, hrun, rfl⟩ := hm.run rfl rfl he
    obtain rfl : o = x := hm.2.1.symm.trans (congrArg Prod.snd (Option.some.inj hrun))
    rcases o with (e | _) | v
    · exact .failed (hstep rfl rfl rfl rfl) hd' rfl rfl
    · -- nothing but the acknowledgement is left to do
      refine .stuck ho' ?_ (.inr (.inl rfl))
      rintro (⟨v, hv⟩ | ⟨⟨e, he⟩, _⟩)
      · cases hv
      · cases he
    · exact .returned (hstep rfl rfl rfl rfl) rfl rfl

theorem Unsettled.succeed {v : Json} (h : Unsettled env w r st₀ n tr st p) (ho : o = .ok v)
    (hpc : p.pc = .markSuccess (Worker.lockedRow r) v) :
    Settling env w o u r st₀ n (tr ++ [((st, .worker p), m)]) st' p' := by
  obtain ⟨pc, running, k⟩ := p
  obtain rfl : pc = .markSuccess (Worker.lockedRow r) v := hpc
  cases hop
  obtain ⟨_, _, rfl⟩ := hm.run rfl rfl he
  refine h.close hm rfl he rfl rfl rfl rfl fun r₁ hrow _ => iff_of_true ?_ (.inl ⟨v, ho⟩)
  subst ho
  exact ⟨_, hrow, rfl, rfl⟩

theorem Unsettled.fail {e : String} (hclock : Retry.datetimeMin ≤ st₀.clock)
    (h : Unsettled env w r st₀ n tr st p)
    (hd : delayedFrom (Solo.calls env w tr) = []) (ho : o = .error (.exception e))
    (hpc : p.pc = Worker.onFailure (Worker.lockedRow r) e) :
    Settling env w o u r st₀ n (tr ++ [((st, .worker p), m)]) st' p' := by
  obtain ⟨pc, running, k⟩ := p
  have hd' := delayedFrom_step env st tr m hop
  have ho' := outcomes_step env st tr m hop (j := r.id)
  have hstep := h.step hop he
  subst ho
  unfold Worker.onFailure at hpc
  split_ifs at hpc with hlt
  · obtain rfl : pc = .computeRetry (Worker.lockedRow r) e := hpc
    cases hop
    rw [hd] at hd'
    rw [h.outcomes] at ho'
    obtain ⟨x, hrun, rfl⟩ := hm.run rfl rfl he
    have hx := congrArg Prod.snd (Option.some.inj hrun)
    have hu := hm.2.2
    dsimp only at hx
    rw [hu] at hx
    rcases x with _ | t
    · refine .stuck ho' ?_ (.inl rfl)
      rintro (⟨v, hv⟩ | ⟨_, hmax | hforward⟩)
      · cases hv
      · exact absurd hlt (not_lt.mpr hmax)
      · exact Retry.not_forward_of_computeNextRetryAt hx
          (hclock.trans (h.clock.trans (le_add_of_nonneg_right (Int.natCast_nonneg _)))) hforward
    · exact .delayed (hstep rfl rfl rfl rfl) hd' rfl hlt hx rfl
  · obtain rfl : pc = .moveToDeadLetter (Worker.lockedRow r) e := hpc
    cases hop
    obtain ⟨_, _, rfl⟩ := hm.run rfl rfl he
    have hmax : ¬ r.attempts + 1 < r.maxAttempts := hlt
    refine h.close hm rfl he rfl rfl rfl rfl fun r₁ hrow hletters =>
      iff_of_true ?_ (.inr ⟨⟨e, rfl⟩, .inl (not_lt.mp hmax)⟩)
    refine ⟨_, hrow, ?_⟩
    dsimp only
    rw [if_neg hmax]
    refine ⟨rfl, ⟨m.choice.freshId, r.id, e, r.attempts + 1, (st.wait m.elapsed).clock⟩, rfl,
      hletters.trans ?_⟩
    rw [← h.letters]
    rfl

theorem Unsettled.retry {e : String} {now t : Time} (h : Unsettled env w r st₀ n tr st p)
    (hd : delayedFrom (Solo.calls env w tr) = [now]) (ho : o = .error (.exception e))
    (hlt : r.attempts + 1 < r.maxAttempts)
    (ht : Retry.computeNextRetryAt now (r.attempts + 1 : Nat) (Worker.baseDelay r.payload) u = some t)
    (hpc : p.pc = .markRetrying (Worker.lockedRow r) e t) :
    Settling env w o u r st₀ n (tr ++ [((st, .worker p), m)]) st' p' := by
  obtain ⟨pc, running, k⟩ := p
  obtain rfl : pc = .markRetrying (Worker.lockedRow r) e t := hpc
  cases hop
  obtain ⟨_, _, rfl⟩ := hm.run rfl rfl he
  obtain ⟨hle, hforward⟩ := Retry.bounds_of_computeNextRetryAt ht
  subst ho
  refine h.close hm rfl he rfl rfl rfl rfl fun r₁ hrow _ => ?_
  rw [hd]
  constructor
  · rintro ⟨r', hr', houtcome⟩
    cases hrow.symm.trans hr'
    dsimp only at houtcome
    rw [if_pos hlt] at houtcome
    obtain ⟨_, now', hnow, t', ht', hge, _⟩ := houtcome
    cases List.mem_singleton.mp hnow
    cases ht'
    exact .inr ⟨⟨e, rfl⟩, .inr (hforward.mp hge)⟩
  · rintro (⟨v, hv⟩ | ⟨_, hmax | hf⟩)
    · cases hv
    · exact absurd hlt (not_lt.mpr hmax)
    · refine ⟨_, hrow, ?_⟩
      dsimp only
      rw [if_pos hlt]
      exact ⟨rfl, now, List.mem_singleton_self now, t, rfl, hforward.mpr hf, hle⟩

theorem Settling.step (hr : st₀.db.job? r.id = some r) (hclaim : r.claimable = true)
    (hclock : Retry.datetimeMin ≤ st₀.clock) (h : Settling env w o u r st₀ n tr st p)
    (hpc : p.pc ≠ .loop) :
    Settling env w o u r st₀ n (tr ++ [((st, .worker p), m)]) st' p' := by
  cases h with
  | reserved hp hn => exact Settling.lock hm hop he hr hclaim hp hn
  | started h hd hp => exact h.start hm hop he hd hp
  | returned h ho hp => exact h.succeed hm hop he ho hp
  | failed h hd ho hp => exact h.fail hm hop he hclock hd ho hp
  | delayed h hd ho hlt ht hp => exact h.retry hm hop he hd ho hlt ht hp
  | closing hone hrow hiff hprocessing hcount hp =>
    obtain ⟨r', hr'⟩ := hrow
    obtain ⟨hu, ho, hd, hgoes⟩ := Worker.closing_of_next hop he hp (hm.fault hop)
    obtain ⟨hrow', hletters⟩ := he.unwritten hu hr'
    have hone' : outcomes r.id (Solo.calls env w (tr ++ [((st, .worker p), m)])) = 1 := by
      rw [outcomes_step env st tr m hop, hone, ho, indicator_neg nofun]
    have hiff' : r.Outcome o (delayedFrom (Solo.calls env w (tr ++ [((st, .worker p), m)]))) st₀ st' ↔
        Settleable o u r := by
      rw [delayedFrom_step env st tr m hop, hd, if_neg nofun, List.append_nil, ← hiff]
      exact Job.Outcome.congr (hrow'.trans hr'.symm) hletters
    rcases hgoes with ⟨hp', hprocessing', hcount'⟩ | ⟨hp', hprocessing', hcount'⟩
    · exact .closing hone' ⟨r', hrow'⟩ hiff' (hprocessing'.trans hprocessing) (hcount'.trans hcount) hp'
    · refine .closed hone' hiff' (hprocessing'.trans ?_) (hcount'.trans hcount) hp'
      exact congrArg (List.erase · r.id) hprocessing
  | stuck hzero hnot hp =>
    have hzero' := outcomes_step env st tr m hop (j := r.id)
    rw [hzero] at hzero'
    obtain ⟨pc, running, k⟩ := p
    rcases hp with hp | hp | hp
    · obtain rfl : pc = .ack (Worker.lockedRow r) := hp
      cases hop
      cases he <;> exact .stuck hzero' hnot (.inr (.inr rfl))
    · obtain rfl : pc = .ackExit (Worker.lockedRow r) := hp
      cases hop
      cases he <;> exact .stuck hzero' hnot (.inr (.inr rfl))
    · exact absurd hp hpc
  | closed _ _ _ _ hp => exact absurd hp hpc

end

theorem processesJob_settling (env : Env) (w : WorkerId) (o : Except Raised Json) (u : Draw) (p : Worker)
    (hr : st.db.job? r.id = some r) (hclaim : r.claimable = true) (hclock : Retry.datetimeMin ≤ st.clock) :
    ProcessesJob env w (Succeeding env w o u) st p r.id fun tr x =>
      ∃ p', x.2 = .worker p' ∧ p'.pc = .loop ∧ Settling env w o u r st p.jobsProcessed tr x.1 p' := by
  refine processesJob_of_invariant (.reserved rfl rfl) ?_ ?_ ?_
  · intro tr st' p' h hstop
    have hstands := h.under_way_or
    rw [hstop] at hstands
    rcases hstands with hp | hp | ⟨hp, _⟩ <;> cases hp
  · exact fun x => ⟨o, u, fun m hf ho hu => ⟨fun h => absurd hf h, ho, hu⟩⟩
  · exact fun tr st st' p p' m op h hpc hm hop he => h.step hm hop he hr hclaim hclock hpc

theorem settles_of_settling (p : Worker) (hr : st.db.job? j = some r) (hclaim : r.claimable = true)
    (hclock : Retry.datetimeMin ≤ st.clock) :
    ProcessesJob env w (Succeeding env w o u) st p j fun tr x =>
      Settles env w o r st p tr x ↔ Settleable o u r := by
  obtain rfl := Database.id_of_job? hr
  have hsettling := processesJob_settling env w o u p hr hclaim hclock
  refine hsettling.mono fun tr x h => ?_
  obtain ⟨p', hx, hp', h⟩ := h
  have hstands := h.under_way_or
  rw [hp'] at hstands
  rcases hstands with hp | hp | ⟨_, ⟨hzero, hnot⟩ | ⟨hone, hiff, hprocessing, hcount⟩⟩
  · cases hp
  · cases hp
  · refine iff_of_false (fun h => ?_) hnot
    cases hzero.symm.trans h.once
  · rw [← hiff]
    constructor
    · exact fun h => h.outcome
    · exact fun h => ⟨hone, h, ⟨p', hx, hcount⟩, hprocessing⟩

/-- One call of `process_job` settles the attempt if and only if the handler returns, or raises an `Exception` where
no attempt is left or the next one can be put off. -/
theorem settles_iff (env : Env) (w : WorkerId) (o : Except Raised Json) (u : Draw) (p : Worker)
    (hr : st.db.job? j = some r) (hclaim : r.claimable = true) (hclock : Retry.datetimeMin ≤ st.clock) :
    ProcessesJob env w (Succeeding env w o u) st p j (Settles env w o r st p) ↔ Settleable o u r :=
  eventually_iff (settles_of_settling p hr hclaim hclock)

def nullDelay : JobCreateRequest := { report with payload := [("_base_delay", .null)] }

/-- Job 7 has no usable base delay, and its handler returns. -/
theorem settles_iff_nullDelay : ProcessesJob minutely 1 (Succeeding minutely 1 (.ok .null) default)
    (reserved nullDelay) {} 7
    (Settles minutely 1 (.ok .null) (nullDelay.toNewJob.toJob 0 7) (reserved nullDelay) {}) :=
  (settles_iff minutely 1 (.ok .null) default {} rfl rfl (by decide)).mpr (.inl ⟨.null, rfl⟩)

/-- Its handler raises: the delay before the next attempt raises too, and no outcome is written. -/
theorem not_settles : ¬ ProcessesJob minutely 1 (Succeeding minutely 1 (.error (.exception "timeout")) default)
    (reserved nullDelay) {} 7
    (Settles minutely 1 (.error (.exception "timeout")) (nullDelay.toNewJob.toJob 0 7) (reserved nullDelay) {}) := by
  intro h
  have hsettleable := (eventually_iff (settles_of_settling {} rfl rfl (by decide))).mp h
  rcases hsettleable with ⟨v, hv⟩ | ⟨_, hmax | ⟨b, hb, _⟩⟩
  · cases hv
  · exact absurd hmax (by decide)
  · cases hb

end DistribuQ
