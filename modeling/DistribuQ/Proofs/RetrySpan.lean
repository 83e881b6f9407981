import DistribuQ.Proofs.Backoff
import DistribuQ.Proofs.Budget
import DistribuQ.Proofs.RetryDelays
import DistribuQ.Proofs.Timestamps

/-! How long a job takes that fails again and again: its attempts are accounted for by what ended them, and the
delays after them add up. -/

namespace DistribuQ
open Transition
variable {env : Env} {s s' : State} {a : Action} {pid : Nat} {j : Uuid} {r r' : Job} {b : ℚ} {n : Nat}

/-! The account of attempts. -/

/-- A worker writes that `j` is to be retried. -/
def State.Postpones (env : Env) (s : State) (a : Action) (j : Uuid) : Prop :=
  ∃ x ∈ s.call? env a, x.2.retried?.map Prod.fst = some j

instance : Decidable (s.Postpones env a j) := inferInstanceAs (Decidable (∃ x ∈ s.call? env a, _))

/-- How many times a retry of `j` has been recorded. -/
def retries (env : Env) (j : Uuid) (tr : List (State × Action)) : Nat :=
  total (fun s a => indicator (s.Postpones env a j)) tr

/-- How many times a stale reclaim has taken `j`. -/
def staleReclaims (env : Env) (j : Uuid) (tr : List (State × Action)) : Nat :=
  total (fun s a => indicator (s.Reclaims env a j)) tr

/-- The last attempt is under way, or the job has ended with it. -/
def Job.Final (r : Job) : Prop := r.status = .running ∨ r.status = .success ∨ r.status = .deadLetter

instance : Decidable r.Final := inferInstanceAs (Decidable (_ ∨ _))

theorem postpones_iff {c : Call} (hc : s.call? env a = some (pid, c)) :
    s.Postpones env a j ↔ c.retried?.map Prod.fst = some j := by
  simp [State.Postpones, hc]

theorem reclaims_iff {c : Call} (hc : s.call? env a = some (pid, c)) (hr : s.store.db.job? j = some r) :
    s.Reclaims env a j ↔ ∃ m ∈ c.staleTimeout?, s.store.db.stale s.store.clock m r = true := by
  simp [State.Reclaims, hc, hr]

/-- A write that is not a replay ends the last attempt with a retry or a reclaim, or makes another the last. -/
theorem Call.GuardedWrite.account {c : Call} {st : Store} (h : c.GuardedWrite st pid r r')
    (hn : c.replayed?.map Prod.snd ≠ some r.id) :
    r'.attempts + indicator r.Final = r.attempts + indicator r'.Final +
      (indicator (c.retried?.map Prod.fst = some r.id) +
        indicator (∃ m ∈ c.staleTimeout?, st.db.stale st.clock m r = true)) := by
  cases h with
  | kept hkept =>
    have hretried : c.retried?.map Prod.fst ≠ some r.id := by
      intro hc
      cases c <;> cases hc
      exact absurd (hkept _ rfl) (by simp)
    have hstale : ¬ ∃ m ∈ c.staleTimeout?, st.db.stale st.clock m r = true := by
      rintro ⟨m, hm, hst⟩
      cases c <;> cases hm
      exact Bool.false_ne_true ((hkept _ rfl).symm.trans hst)
    rw [indicator_neg hretried, indicator_neg hstale, Nat.add_zero]
  | lock hclaim =>
    have hnot : ¬ r.Final := by
      rintro (hs | hs | hs) <;> simp [Job.claimable, hs] at hclaim
    rw [indicator_neg hnot]
    simp [indicator, Job.Final, retried?, staleTimeout?, Job.lock, Job.touch]
  | succeed v hs | bury _ _ hs =>
    simp [indicator, Job.Final, retried?, staleTimeout?, hs, Job.succeed, Job.bury, Job.touch]
  | retry e t hs =>
    simp [indicator, Job.Final, retried?, staleTimeout?, hs, Job.retry, Job.touch]
  | release m hs hstale =>
    simp [indicator, Job.Final, retried?, staleTimeout?, hs, hstale, Job.release, Job.touch]
  | promote hs | cancel hs =>
    simp [indicator, Job.Final, retried?, staleTimeout?, hs, Job.release, Job.cancel, Job.touch]
  | reset d => exact absurd rfl hn

theorem account_step (hL : s.store.db.LettersAgree) (hf : Fenced env s a) (h : step env s a = some s')
    (hn : ¬ s.Replays env a j) (hr : s.store.db.job? j = some r) :
    ∃ r', s'.store.db.job? j = some r' ∧ r'.attempts + indicator r.Final =
      r.attempts + indicator r'.Final + (indicator (s.Postpones env a j) + indicator (s.Reclaims env a j)) := by
  rcases store_of_step h with ⟨pid, ch, c, x, hc, hx⟩ | ⟨hc, hdb, _⟩
  · obtain ⟨r', hr', hg⟩ := exists_guarded hL hf hc hx hr
    have hid := Database.id_of_job? hr
    subst hid
    refine ⟨r', hr', ?_⟩
    rw [indicator_congr (postpones_iff hc), indicator_congr (reclaims_iff hc hr)]
    exact hg.account fun hreplay => hn ⟨_, hc, hreplay⟩
  · refine ⟨r, by rw [hdb, hr], ?_⟩
    have hpostpones : ¬ s.Postpones env a j := by simp [State.Postpones, hc]
    have hreclaims : ¬ s.Reclaims env a j := by simp [State.Reclaims, hc]
    rw [indicator_neg hpostpones, indicator_neg hreclaims, Nat.add_zero]

/-- No retry or reclaim is counted before the job is there. -/
theorem not_postpones_of_none {j : Uuid} (hf : Fenced env s a) (hr : s.store.db.job? j = none) :
    ¬ s.Postpones env a j := by
  rintro ⟨⟨pid, c⟩, hc, hret⟩
  cases c <;> cases hret
  obtain ⟨r, hr', _⟩ := (hf _ hc).1 _ rfl
  cases hr.symm.trans hr'

theorem not_reclaims_of_none (hr : s.store.db.job? j = none) : ¬ s.Reclaims env a j := by
  rintro ⟨_, _, _, _, r, hr', _⟩
  cases hr.symm.trans hr'

/-- What has become of the attempts at `j`. -/
def CountsAttempts (j : Uuid) (m : Nat) (s : State) : Prop :=
  (s.store.db.job? j = none → m = 0) ∧
    ∀ r, s.store.db.job? j = some r → r.attempts = m + indicator r.Final

theorem countsAttempts_step {m : Nat} (hL : s.store.db.LettersAgree) (hf : Fenced env s a)
    (h : step env s a = some s') (hn : ¬ s.Replays env a j) (hI : CountsAttempts j m s) :
    CountsAttempts j (m + (indicator (s.Postpones env a j) + indicator (s.Reclaims env a j))) s' := by
  cases hr : s.store.db.job? j with
  | none =>
    rw [indicator_neg (not_postpones_of_none hf hr), indicator_neg (not_reclaims_of_none hr), hI.1 hr]
    refine ⟨fun _ => rfl, fun r' hr' => ?_⟩
    obtain ⟨_, _, c, _, hinsert, _⟩ := step_job?_none h hr hr'
    cases c <;> cases hinsert <;> rfl
  | some r =>
    obtain ⟨r', hr', haccount⟩ := account_step hL hf h hn hr
    refine ⟨fun hnone => ?_, fun r'' hr'' => ?_⟩
    · cases hr'.symm.trans hnone
    · cases hr'.symm.trans hr''
      have hattempts := hI.2 r hr
      omega

theorem countsAttempts_of_run {t : Nat} {tr : List (State × Action)}
    (h : Run (fun s a => Fenced env s a ∧ ¬ s.Replays env a j) (step env) (.init t) tr s) :
    CountsAttempts j (retries env j tr + staleReclaims env j tr) s := by
  refine h.invariant_trace (I := fun tr s =>
    CountsAttempts j (retries env j tr + staleReclaims env j tr) s) ?_ ?_
  · refine ⟨fun _ => rfl, fun r hr => ?_⟩
    cases hr
  · intro tr s a s' hrun hI ha hs
    have hstep := countsAttempts_step (lettersAgree_of_reachable
        (hrun.mono fun _ _ h => h.1).reachable) ha.1 hs ha.2 hI
    have hsum : retries env j (tr ++ [(s, a)]) + staleReclaims env j (tr ++ [(s, a)]) =
        retries env j tr + staleReclaims env j tr +
          (indicator (s.Postpones env a j) + indicator (s.Reclaims env a j)) := by
      simp only [retries, staleReclaims, total, tally_append, tally_cons, tally_nil]
      omega
    rwa [hsum]

/-! The delays. -/

namespace Retry

/-- The least delay after attempt `n`, in microseconds. -/
def leastDelay (b : ℚ) (n : Nat) : Int := roundHalfEven (min 300 (uncapped b n) * 1000000)

/-- The least that the delays after `n` failed attempts make together. -/
def leastSpan (b : ℚ) (n : Nat) : Int := ∑ i ∈ Finset.range n, leastDelay b (i + 1)

theorem leastSpan_succ (b : ℚ) (n : Nat) : leastSpan b (n + 1) = leastSpan b n + leastDelay b (n + 1) :=
  Finset.sum_range_succ _ _

theorem uncapped_mono (hb : 0 ≤ b) {m n : Nat} (h : m ≤ n) : uncapped b m ≤ uncapped b n := by
  have hexp : (max (m : Int) 1 - 1).toNat ≤ (max (n : Int) 1 - 1).toNat := by omega
  have hpow : (2 : ℚ) ^ (max (m : Int) 1 - 1).toNat ≤ 2 ^ (max (n : Int) 1 - 1).toNat :=
    pow_le_pow_right₀ one_le_two hexp
  exact mul_le_mul_of_nonneg_left hpow hb

theorem leastDelay_mono (hb : 0 ≤ b) {m n : Nat} (h : m ≤ n) : leastDelay b m ≤ leastDelay b n := by
  have hmin : min 300 (uncapped b m) ≤ min 300 (uncapped b n) := min_le_min_left 300 (uncapped_mono hb h)
  exact roundHalfEven_mono (by linarith)

theorem leastDelay_le {base : Json} {now t : Time} {u : Draw} (hbase : number? base = some b) (hb : 0 ≤ b)
    (h : computeNextRetryAt now n base u = some t) : now + leastDelay b n ≤ t := by
  have hdelay : min 300 (uncapped b n) ≤ computeBackoffDelay n b 300 true u :=
    le_computeBackoffDelay hb (by norm_num)
  have hround : leastDelay b n ≤ roundHalfEven (computeBackoffDelay n b 300 true u * 1000000) :=
    roundHalfEven_mono (by linarith)
  have hsub := sub_of_computeNextRetryAt hbase h
  linarith

theorem roundHalfEven_intCast (z : Int) : roundHalfEven (z : ℚ) = z := by
  simp [roundHalfEven]

theorem leastDelay_natCast {k : Nat} (h : k * 2 ^ n ≤ 300) : leastDelay k (n + 1) = k * 2 ^ n * 1000000 := by
  have hexp : (max ((n + 1 : Nat) : Int) 1 - 1).toNat = n := by omega
  have huncapped : uncapped k (n + 1 : Nat) = ((k * 2 ^ n : Nat) : ℚ) := by
    rw [uncapped, hexp]
    push_cast
    rfl
  have hmin : min 300 (uncapped k (n + 1 : Nat)) = ((k * 2 ^ n : Nat) : ℚ) := by
    rw [huncapped]
    exact min_eq_right (by exact_mod_cast h)
  have hcast : ((k * 2 ^ n : Nat) : ℚ) * 1000000 = ((k * 2 ^ n * 1000000 : Int) : ℚ) := by push_cast; ring
  rw [leastDelay, hmin, hcast, roundHalfEven_intCast]

/-- Below the cap the delays of a whole base delay double, so that together they fall short of the next one by the
base delay. -/
theorem leastSpan_natCast {k : Nat} (h : ∀ i < n, k * 2 ^ i ≤ 300) :
    leastSpan k n = k * (2 ^ n - 1) * 1000000 := by
  induction n with
  | zero => simp [leastSpan]
  | succ n ih =>
    rw [leastSpan_succ, ih fun i hi => h i (by omega), leastDelay_natCast (h n (by omega))]
    ring

end Retry

/-- At least `d` has passed from the creation of the job to its last write, or passes until it is due. -/
def Job.Lasts (r : Job) (d : Int) : Prop :=
  (r.status ≠ .retrying → r.createdAt + d ≤ r.updatedAt) ∧
    ∀ t, r.status = .retrying → r.nextRetryAt = some t → r.createdAt + d ≤ t

/-- The base delay that a job's payload asks for. -/
def Job.Based (r : Job) (b : ℚ) : Prop := Retry.number? (Worker.baseDelay r.payload) = some b

theorem Job.based_congr (h : r'.origin = r.origin) : r'.Based b ↔ r.Based b := by
  have hpayload : r'.payload = r.payload := congrArg NewJob.payload h
  rw [Job.Based, hpayload, Job.Based]

namespace Worker
variable {w : WorkerId} {ch : Choice} {st st' : Store} {pc pc' : Pc} {c : Call} {job : LockedJob} {e : String}
  {t : Time}

theorem computeRetry_of_goes (h : pc.Goes env w ch st st' c pc') (hpc' : pc' = .markRetrying job e t) :
    pc = .computeRetry job e := by
  have hfail (job' : LockedJob) (e' : String) : onFailure job' e' ≠ .markRetrying job e t :=
    onFailure_cases (P := fun pc => pc ≠ .markRetrying job e t) e' (fun _ => nofun) fun _ => nofun
  have hdone (job' : LockedJob) : afterSuccess job' ≠ .markRetrying job e t :=
    afterSuccess_cases (P := fun pc => pc ≠ .markRetrying job e t) (fun _ => nofun) nofun
  cases h with
  | delayed =>
    cases hpc'
    rfl
  | raised | successFault => exact absurd hpc' (hfail _ _)
  | emitSuccess => exact absurd hpc' (hdone _)
  | _ => cases hpc'

/-- The time that a worker is to write is the one it has computed for the attempt it is in. -/
theorem delay_of_next {p p' : Worker} {op : Op Worker} (hop : p.next w = some op)
    (he : op.Ends env ch st st' p') (h : p'.pc = .markRetrying job e t) : p.pc = .computeRetry job e ∧
      ∃ u, Retry.computeNextRetryAt st.clock job.attempts (baseDelay job.payload) u = some t := by
  have hpc := computeRetry_of_goes (goes_of_next hop he) h
  refine ⟨hpc, ch.draw, ?_⟩
  obtain ⟨pc, running, n⟩ := p
  cases hpc
  cases hop
  cases he with
  | @returned st' x _ hrun =>
    have hx : Retry.computeNextRetryAt st.clock job.attempts (baseDelay job.payload) ch.draw = x := by
      have hpair := Option.some.inj hrun
      exact congrArg Prod.snd hpair
    rw [hx]
    cases x with
    | none => cases h
    | some t' =>
      cases h
      rfl
  | raised | lost => cases h

end Worker

/-- A write keeps what has passed; a retry adds the delay that it records. -/
theorem Call.GuardedWrite.lasts {c : Call} {st : Store} {d d' : Int} (h : c.GuardedWrite st pid r r')
    (hd : r.Lasts d) (hclock : r.updatedAt ≤ st.clock) (hlock : c.locked? = some r.id → r.status ≠ .retrying)
    (hretry : ∀ e t, c = .markJobRetrying r.id e t → r.status = .running → r.lockedBy = some pid →
      r.createdAt + d' ≤ t) :
    r'.Lasts (if c.retried?.map Prod.fst = some r.id then d' else d) := by
  have hpassed (hs : r.status ≠ .retrying) : r.createdAt + d ≤ st.clock := (hd.1 hs).trans hclock
  cases h with
  | kept hkept =>
    have hretried : c.retried?.map Prod.fst ≠ some r.id := by
      intro hc
      cases c <;> cases hc
      exact absurd (hkept _ rfl) (by simp)
    rw [if_neg hretried]
    exact hd
  | lock => exact ⟨fun _ => hpassed (hlock rfl), nofun⟩
  | succeed v hs | bury _ _ hs | release _ hs | cancel hs | reset _ hs =>
    have hne : r.status ≠ .retrying := by
      rw [hs]
      nofun
    exact ⟨fun _ => hpassed hne, nofun⟩
  | retry e t hs hl =>
    have hretried : (markJobRetrying r.id e t).retried?.map Prod.fst = some r.id := rfl
    rw [if_pos hretried]
    refine ⟨fun hne => absurd rfl hne, fun t' _ ht' => ?_⟩
    cases ht'
    exact hretry e t rfl hs hl
  | promote hs hdue =>
    refine ⟨fun _ => ?_, nofun⟩
    simp only [Job.dueRetry, Bool.and_eq_true, Option.any_eq_true_iff_get, decide_eq_true_eq] at hdue
    obtain ⟨_, hsome, hle⟩ := hdue
    exact (hd.2 _ hs (Option.some_get hsome).symm).trans hle

/-- What has passed for `j` when `m` retries of it are recorded, and when a worker is to record another. -/
structure Awaited (b : ℚ) (j : Uuid) (m : Nat) (s : State) : Prop where
  row : ∀ r, s.store.db.job? j = some r → r.Based b → r.Lasts (Retry.leastSpan b m)
  due : ∀ (i : Nat) (p : Worker) (job : LockedJob) (e : String) (t : Time) (r : Job),
    s.procs[i]? = some (.worker p) → p.pc = .markRetrying job e t → job.id = j →
    s.store.db.job? j = some r → r.Based b → r.status = .running → r.lockedBy = some i →
    r.createdAt + Retry.leastSpan b (m + 1) ≤ t

theorem retrying_of_postpones (hf : Fenced env s a) (h : step env s a = some s') (hp : s.Postpones env a j)
    (hr' : s'.store.db.job? j = some r') : r'.status = .retrying := by
  obtain ⟨⟨pid, c⟩, hc, hret⟩ := hp
  obtain ⟨ch, x, hx⟩ := run_of_call? h hc
  cases c <;> cases hret
  obtain ⟨r, hr, _⟩ := (hf _ hc).1 _ rfl
  have hrow := Call.run_job?_of_update hx hr rfl (decide_eq_true (Database.id_of_job? hr))
  cases hrow.symm.trans hr'
  rfl

/-- The worker that is to record a retry is at that point. -/
theorem exists_marking {e : String} {t : Time} (hc : s.call? env a = some (pid, .markJobRetrying j e t)) :
    ∃ p job, s.procs[pid]? = some (.worker p) ∧ p.pc = .markRetrying job e t ∧ job.id = j := by
  rcases makes_of_call? hc with ⟨_, _, _, hp, hm⟩ | ⟨_, _, _, hm⟩
  · cases hm with
    | retry hpc => exact ⟨_, _, hp, hpc, rfl⟩
    | other hp => cases hp.outcome
  · cases hm

/-- There is no copy of its id by which a job that backs off could be locked. -/
theorem not_retrying_of_lock {c : Call} (hU : Unduplicated s) (hc : s.call? env a = some (pid, c))
    (hlock : c.locked? = some j) (hr : s.store.db.job? j = some r) : r.status ≠ .retrying := by
  intro hs
  have hwaits : ¬ s.store.db.Waits j := by
    rw [Database.waits_iff hr, hs]
    nofun
  have hlive := hU.live j
  rw [indicator_neg hwaits] at hlive
  cases c <;> cases hlock
  exact absurd (live_pos_of_lock hc) (by omega)

theorem Awaited.row_step {m : Nat} (hI : Awaited b j m s) (hU : Unduplicated s)
    (hD : ∀ r, s.store.db.job? j = some r → r.Dated s.store.clock) (hf : Fenced env s a)
    (h : step env s a = some s') (hnone : s.store.db.job? j = none → m = 0)
    (hr' : s'.store.db.job? j = some r') (hb : r'.Based b) :
    r'.Lasts (Retry.leastSpan b (m + indicator (s.Postpones env a j))) := by
  cases hr : s.store.db.job? j with
  | none =>
    obtain ⟨_, ch, c, _, hinsert, _⟩ := step_job?_none h hr hr'
    rw [indicator_neg (not_postpones_of_none hf hr), hnone hr]
    cases c with
    | createJob new | scheduleNextOccurrence new =>
      cases hinsert
      exact ⟨fun _ => (add_zero s.store.clock).le, nofun⟩
    | _ => cases hinsert
  | some r =>
    obtain ⟨r₁, hr₁, horigin⟩ := step_origin h hr
    cases hr₁.symm.trans hr'
    have hbased := (Job.based_congr horigin).mp hb
    have hlasts := hI.row r hr hbased
    rcases store_of_step h with ⟨pid, ch, c, x, hc, hx⟩ | ⟨hc, hdb, _⟩
    · obtain ⟨r₂, hr₂, hg⟩ := exists_guarded hU.letters hf hc hx hr
      cases hr₂.symm.trans hr'
      have hid := Database.id_of_job? hr
      subst hid
      have hlock (hj : c.locked? = some r.id) : r.status ≠ .retrying := not_retrying_of_lock hU hc hj hr
      have hretry (e : String) (t : Time) (hcall : c = .markJobRetrying r.id e t) (hs : r.status = .running)
          (hl : r.lockedBy = some pid) : r.createdAt + Retry.leastSpan b (m + 1) ≤ t := by
        subst hcall
        obtain ⟨p, job, hp, hpc, hjob⟩ := exists_marking hc
        exact hI.due pid p job e t r hp hpc hjob hr hbased hs hl
      have hlasts' := hg.lasts hlasts (hD r hr).updated hlock hretry
      by_cases hp : s.Postpones env a r.id
      · rw [if_pos ((postpones_iff hc).mp hp)] at hlasts'
        rwa [indicator_pos hp]
      · rw [if_neg (mt (postpones_iff hc).mpr hp)] at hlasts'
        rwa [indicator_neg hp]
    · have hpostpones : ¬ s.Postpones env a j := by simp [State.Postpones, hc]
      rw [hdb, hr] at hr'
      cases hr'
      rwa [indicator_neg hpostpones]

theorem payload_of_carried {p : Worker} {job : LockedJob} (hC : Carried s)
    (hp : s.procs[pid]? = some (.worker p)) (ha : p.pc.attempt? = some job)
    (hr : s.store.db.job? job.id = some r) :
    job.payload = r.payload := by
  obtain ⟨r₀, hr₀, hrow⟩ := hC pid _ job hp (Worker.Pc.job?_of_attempt? ha)
  cases hr₀.symm.trans hr
  rw [hrow]
  rfl

theorem Awaited.due_step {m : Nat} (hI : Awaited b j m s) (hb : 0 ≤ b)
    (hD : ∀ r, s.store.db.job? j = some r → r.Dated s.store.clock) (hL : s.store.db.LettersAgree)
    (hA : AttemptsAgree s) (hC : Carried s) (hf : Fenced env s a) (h : step env s a = some s')
    (hcount : ∀ r, s.store.db.job? j = some r → r.status = .running → m + 1 ≤ r.attempts)
    {i : Nat} {p' : Worker} {job : LockedJob} {e : String} {t : Time} (hp' : s'.procs[i]? = some (.worker p'))
    (hpc' : p'.pc = .markRetrying job e t) (hid : job.id = j) (hr' : s'.store.db.job? j = some r')
    (hbased : r'.Based b) (hs : r'.status = .running) (hl : r'.lockedBy = some i) :
    r'.createdAt + Retry.leastSpan b (m + indicator (s.Postpones env a j) + 1) ≤ t := by
  have hpostpones : ¬ s.Postpones env a j := fun hp => by
    cases hs.symm.trans (retrying_of_postpones hf h hp hr')
  rw [indicator_neg hpostpones, add_zero]
  -- while the worker is in its attempt the row stays as it is
  have hrow {p : Worker} (hp : s.procs[i]? = some (.worker p)) (ha : (Proc.worker p).attempt? = some job) :
      s.store.db.job? j = some r' := by
    refine held_of_step hL hf h hr' hs hl fun c hc k w => ?_
    rcases makes_of_call? hc with ⟨_, q, _, hq, hm⟩ | ⟨_, _, _, rfl⟩
    · cases hp.symm.trans hq
      exact hm.ne_lock (fun _ => rfl) ha k w
    · nofun
  have hkept {p : Worker} (hp : s.procs[i]? = some (.worker p)) (hpc : p.pc = .markRetrying job e t) :
      r'.createdAt + Retry.leastSpan b (m + 1) ≤ t :=
    hI.due i p job e t r' hp hpc hid (hrow hp (congrArg Worker.Pc.attempt? hpc)) hbased hs hl
  cases became_of_step h hp' with
  | kept hp => exact hkept hp hpc'
  | spawned r hr =>
    cases r <;> cases hr
    cases hpc'
  | signalled p hp hr =>
    cases p <;> cases hr
    exact hkept hp hpc'
  | crashed hr => cases hr
  | ran hp hop he =>
    cases Proc.goes_of_next hop he with
    | @worker p _ _ hnext _ hends =>
      obtain ⟨hpc, u, hu⟩ := Worker.delay_of_next hnext hends hpc'
      have ha : p.pc.attempt? = some job := by
        rw [hpc]
        rfl
      have hr := hrow hp ha
      have hlasts := hI.row r' hr hbased
      have hne : r'.status ≠ .retrying := by
        rw [hs]
        nofun
      have hpassed := (hlasts.1 hne).trans (hD r' hr).updated
      subst hid
      have hattempts : r'.attempts = job.attempts := hA i _ job r' hp ha hr hs hl
      have hbase : Retry.number? (Worker.baseDelay job.payload) = some b := by
        rwa [payload_of_carried hC hp ha hr]
      have hdelay := Retry.leastDelay_le hbase hb hu
      have hmono : Retry.leastDelay b (m + 1) ≤ Retry.leastDelay b job.attempts :=
        Retry.leastDelay_mono hb (hattempts ▸ hcount r' hr hs)
      rw [Retry.leastSpan_succ]
      linarith

theorem awaited_of_run {t : Nat} {tr : List (State × Action)} (hb : 0 ≤ b)
    (h : Run (fun s a => Punctual env s a ∧ ¬ s.Replays env a j) (step env) (.init t) tr s) :
    Awaited b j (retries env j tr) s := by
  refine h.invariant_trace (I := fun tr s => Awaited b j (retries env j tr) s) ?_ ?_
  · refine ⟨fun r hr => ?_, fun i p _ _ _ _ hp => ?_⟩
    · cases hr
    · cases hp
  · intro tr s a s' hrun hI ha hs
    have hfenced : Run (fun s a => Fenced env s a ∧ ¬ s.Replays env a j) (step env) (.init t) tr s :=
      hrun.mono fun _ _ h => ⟨h.1.fenced, h.2⟩
    have hreach : Reachable (Fenced env) (step env) (.init t) s := (hfenced.mono fun _ _ h => h.1).reachable
    have hU : Unduplicated s :=
      hrun.invariant (unduplicated_init t) fun _ _ _ hI ha hs =>
        unduplicated_step hI ha.1.fenced ha.1.missing hs
    obtain ⟨hnone, hcount⟩ := countsAttempts_of_run hfenced
    have hD (r : Job) (hr : s.store.db.job? j = some r) : r.Dated s.store.clock :=
      dated_of_reachable hrun.reachable hr
    have hsum : retries env j (tr ++ [(s, a)]) = retries env j tr + indicator (s.Postpones env a j) := by
      simp [retries, total]
    rw [hsum]
    constructor
    · intro r' hr' hbased
      exact hI.row_step hU hD ha.1.fenced hs (fun hr => by have := hnone hr; omega) hr' hbased
    · intro i p' job e due r' hp' hpc' hid hr' hbased hrunning hl
      refine hI.due_step hb hD hU.letters (attemptsAgree_of_reachable hreach) (carried_of_reachable hreach)
        ha.1.fenced hs (fun r hr hrunning => ?_) hp' hpc' hid hr' hbased hrunning hl
      have hattempts := hcount r hr
      rw [indicator_pos (.inl hrunning)] at hattempts
      omega

/-- What the retries of a job cost it, with a base delay that is no negative number and until it is replayed. -/
structure RetrySpan (env : Env) : Prop where
  /-- Each attempt has been ended by a retry or by a stale reclaim, or is the last. -/
  account {t : Nat} {s : State} {tr : List (State × Action)} {j : Uuid} {r : Job} :
    Run (fun s a => Fenced env s a ∧ ¬ s.Replays env a j) (step env) (.init t) tr s →
    s.store.db.job? j = some r → r.attempts = retries env j tr + staleReclaims env j tr + indicator r.Final
  /-- The delays of all retries have passed before another attempt starts. -/
  started {t : Nat} {s : State} {a : Action} {tr : List (State × Action)} {j : Uuid} {r : Job} {b : ℚ} :
    Run (fun s a => Punctual env s a ∧ ¬ s.Replays env a j) (step env) (.init t) tr s →
    s.store.db.job? j = some r → r.Based b → 0 ≤ b → Punctual env s a → s.Starts a j →
    r.createdAt + Retry.leastSpan b (retries env j tr) ≤ s.store.clock
  /-- A job that no reclaim has taken comes to `SUCCESS` or `DEAD_LETTER` no sooner than the delays of its attempts
  but the last allow. -/
  ended {t : Nat} {s : State} {tr : List (State × Action)} {j : Uuid} {r : Job} {b : ℚ} :
    Run (fun s a => Punctual env s a ∧ ¬ s.Replays env a j ∧ ¬ s.Reclaims env a j) (step env) (.init t) tr s →
    s.store.db.job? j = some r → r.Based b → 0 ≤ b → r.status = .success ∨ r.status = .deadLetter →
    r.createdAt + Retry.leastSpan b (r.attempts - 1) ≤ r.updatedAt

theorem retrySpan (env : Env) : RetrySpan env where
  account h hr := (countsAttempts_of_run h).2 _ hr
  started {t s a tr j r b} h hr hbased hb ha hstart := by
    have hlasts := (awaited_of_run hb h).row r hr hbased
    -- a worker that starts the handler holds the lock, so the row is `RUNNING`
    obtain ⟨pid, hpid, p, hp, hj⟩ := hstart
    obtain ⟨job, hjob, rfl⟩ := Option.map_eq_some_iff.mp hj
    obtain ⟨r', hr', hs, _⟩ := ha.held pid hpid p hp job hjob
    cases hr.symm.trans hr'
    exact (hlasts.1 (by rw [hs]; nofun)).trans (dated_of_reachable h.reachable hr).updated
  ended {t s tr j r b} h hr hbased hb hs := by
    have hrun : Run (fun s a => Punctual env s a ∧ ¬ s.Replays env a j) (step env) (.init t) tr s :=
      h.mono fun _ _ h => ⟨h.1, h.2.1⟩
    have hfenced : Run (fun s a => Fenced env s a ∧ ¬ s.Replays env a j) (step env) (.init t) tr s :=
      hrun.mono fun _ _ h => ⟨h.1.fenced, h.2⟩
    have hreclaims : staleReclaims env j tr = 0 := h.total_eq_zero fun _ _ h => indicator_neg h.2.2
    have hattempts := (countsAttempts_of_run hfenced).2 r hr
    rw [hreclaims, indicator_pos (.inr hs)] at hattempts
    have hlasts := ((awaited_of_run hb hrun).row r hr hbased).1
        (by rcases hs with hs | hs <;> rw [hs] <;> nofun)
    rwa [hattempts]

/-- By default a job that has failed three times has taken three seconds at least. -/
example : Retry.leastSpan (1 : Nat) 2 = 3000000 :=
  Retry.leastSpan_natCast (k := 1) (n := 2) (by decide)

/-- The first attempt at job 7 fails, and worker 1 is about to start the second. -/
def retried : List Action :=
  taken report ++ [.run 1 { outcome := .error (.exception "down") }] ++ calls 1 4 ++
    [.tick 60000000, .spawn .scheduler] ++ calls 2 6 ++ calls 1 4

theorem retrySpan_retried : ∃ tr s r,
    Run (fun s a => Punctual minutely s a ∧ ¬ s.Replays minutely a 7) (step minutely) (.init 0) tr s ∧
    s.Starts (.run 1 {}) 7 ∧ s.store.db.job? 7 = some r ∧ retries minutely 7 tr = 1 ∧ r.attempts = 2 ∧
    r.createdAt + Retry.leastSpan 1 1 ≤ s.store.clock := by
  obtain ⟨tr, s, h, hs⟩ : ∃ tr s,
      Run (fun s a => Punctual minutely s a ∧ ¬ s.Replays minutely a 7) (step minutely) (.init 0) tr s ∧ _ :=
    exists_run_of_exec retried (fun tr s => Punctual minutely s (.run 1 {}) ∧ s.Starts (.run 1 {}) 7 ∧
      retries minutely 7 tr = 1 ∧ staleReclaims minutely 7 tr = 0 ∧
      ∃ r ∈ s.store.db.job? 7, r.status = .running ∧ Retry.number? (Worker.baseDelay r.payload) = some 1)
      (by decide +kernel)
  obtain ⟨hok, hstart, hretries, hreclaims, r, hr, hrunning, hbased⟩ := of_decide_eq_true hs
  have hspan := (retrySpan minutely).started h hr hbased (by norm_num) hok hstart
  have haccount := (retrySpan minutely).account (h.mono fun _ _ ha => ⟨ha.1.fenced, ha.2⟩) hr
  rw [hretries] at hspan haccount
  rw [hreclaims, indicator_pos (by simp [Job.Final, hrunning])] at haccount
  exact ⟨tr, s, r, h, hstart, hr, hretries, haccount, hspan⟩

end DistribuQ
