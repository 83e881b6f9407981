import DistribuQ.Proofs.Solo

/-! What `process_job` leaves behind when calls raise. -/

namespace DistribuQ
open Transition
variable {env : Env} {w : WorkerId} {ch : Choice} {st st' : Store} {j : Uuid} {r : Job}
  {job : LockedJob}

namespace Worker

/-- The program points of `process_job` once the job is locked. -/
def Pc.locked : Pc → Bool
  | emitRunning _ | handler _ | markSuccess .. | emitSuccess _ | computeNextRun .. | scheduleNext ..
  | zaddNext .. | computeRetry .. | markRetrying .. | emitRetrying _ | moveToDeadLetter ..
  | emitDeadLetter _ | ack _ | ackExit _ => true
  | _ => false

/-- The calls that are at most left to make. -/
def Pc.rank : Pc → Nat
  | poll qs => 14 + qs.length
  | lpushProcessing _ => 13
  | fetchAndLock _ => 12
  | emitRunning _ => 11
  | handler _ => 10
  | markSuccess .. => 9
  | emitSuccess _ => 5
  | computeNextRun .. => 4
  | scheduleNext .. => 3
  | computeRetry .. => 4
  | markRetrying .. | moveToDeadLetter .. => 3
  | zaddNext .. | emitRetrying _ | emitDeadLetter _ | emitDead => 2
  | ack _ | ackExit _ | ackUnlocked _ | markDead => 1
  | loop | stopped => 0

theorem rank_onFailure (e : String) : (onFailure job e).rank ≤ 4 :=
  onFailure_cases (P := fun pc => pc.rank ≤ 4) e (fun _ => le_rfl) fun _ => Nat.le_succ 3

theorem rank_afterSuccess : (afterSuccess job).rank ≤ 4 :=
  afterSuccess_cases (P := fun pc => pc.rank ≤ 4) (fun _ => le_rfl) (by simp [Pc.rank])

theorem Pc.Goes.rank_lt {pc pc' : Pc} {c : Call} (h : pc.Goes env w ch st st' c pc')
    (hpc : pc ≠ .loop) :
    pc'.rank < pc.rank := by
  cases h with
  | poll | shutdown => exact absurd rfl hpc
  | raised | successFault => exact (rank_onFailure _).trans_lt (by simp [Pc.rank])
  | emitSuccess => exact rank_afterSuccess.trans_lt (by simp [Pc.rank])
  | reserved | empty | pollFault | popped =>
    simp only [Pc.rank, List.length_cons, List.length_nil]
    omega
  | _ => simp [Pc.rank]

theorem locked_onFailure (e : String) : (onFailure job e).locked = true :=
  onFailure_cases (P := fun pc => pc.locked = true) e (fun _ => rfl) fun _ => rfl

theorem locked_afterSuccess : (afterSuccess job).locked = true :=
  afterSuccess_cases (P := fun pc => pc.locked = true) (fun _ => rfl) rfl

end Worker

/-- The calls that take a job from one worker and give it to another, or to none. -/
def Call.reopens : Call → Bool
  | fetchAndLockJob .. | reclaimStaleJobs _ | reclaimDueRetryJobs | cancelUpdate _ | replayWrite .. => true
  | _ => false

theorem Worker.Pc.Goes.still_locked {pc pc' : Pc} {c : Call} (h : pc.Goes env w ch st st' c pc')
    (hpc : pc.locked = true) :
    c.reopens = false ∧ (pc'.locked = true ∨ pc' = .loop) := by
  cases h with
  | raised | successFault => exact ⟨rfl, .inl (locked_onFailure _)⟩
  | emitSuccess => exact ⟨rfl, .inl locked_afterSuccess⟩
  | acked | ackedExit => exact ⟨rfl, .inr rfl⟩
  | _ => first | exact ⟨rfl, .inl rfl⟩ | cases hpc

/-- A job that is through, or that a pass will find: it is due again some time, or it runs under a lock. -/
def Job.Tracked (r : Job) : Prop :=
  r.status = .success ∨ r.status = .deadLetter ∨ r.status = .retrying ∨
    r.status = .running ∧ r.lockedBy.isSome ∧ r.lockedAt.isSome

theorem Call.tracked_of_run {c : Call} {x : c.Ret} (h : c.run env ch st = some (st', x))
    (hc : c.reopens = false)
    (hr : ∃ r ∈ st.db.job? j, r.Tracked) : ∃ r ∈ st'.db.job? j, r.Tracked := by
  obtain ⟨r, hr, ht⟩ := hr
  refine ⟨_, run_job? h hr, ?_⟩
  have hw : c.Writes st r _ := writes_rewrite c
  generalize c.rewrite st r = r' at hw
  cases hw with
  | kept => exact ht
  | succeed => exact .inl rfl
  | bury => exact .inr (.inl rfl)
  | retry => exact .inr (.inr (.inl rfl))
  | lock | release | promote | cancel | reset => cases hc

def Proc.looping : Proc → Bool
  | worker p =>
    match p.pc with
    | .loop => true
    | _ => false
  | _ => false

/-- `process_job` of worker `w` comes back to the loop. -/
abbrev ProcessesJob (env : Env) (w : WorkerId) (ok : Store × Proc → Turn → Prop) (st : Store)
    (p : Worker) (j : Uuid) (Q : List ((Store × Proc) × Turn) → Store × Proc → Prop) : Prop :=
  Eventually (fun x => x.2.looping = true) ok (Solo.step env w)
    (st, .worker (p.at' (.fetchAndLock j))) Q

theorem looping_iff {p : Worker} : (Proc.worker p).looping = true ↔ p.pc = .loop := by
  obtain ⟨pc, _, _⟩ := p
  cases pc <;> simp [Proc.looping]

theorem Worker.exists_next {p : Worker} (hpc : p.pc ≠ .stopped) : ∃ op, p.next w = some op := by
  obtain ⟨pc, _, _⟩ := p
  cases pc with
  | poll qs => cases qs <;> exact ⟨_, rfl⟩
  | stopped => exact absurd rfl hpc
  | _ => exact ⟨_, rfl⟩

/-- What every step of `process_job` keeps holds when it comes back. -/
theorem processesJob_of_invariant {ok : Store × Proc → Turn → Prop} {p : Worker}
    {I : List ((Store × Proc) × Turn) → Store → Worker → Prop} (h₀ : I [] st (p.at' (.fetchAndLock j)))
    (hpc : ∀ tr st p, I tr st p → p.pc ≠ .stopped)
    (hok : ∀ x, ∃ o u, ∀ m : Turn, m.choice.fault = .none → m.choice.outcome = o →
        m.choice.draw = u → ok x m)
    (hstep : ∀ tr st st' p p' m op, I tr st p → p.pc ≠ .loop → ok (st, .worker p) m →
      p.next w = some op → op.Ends env m.choice (st.wait m.elapsed) st' p' →
      I (tr ++ [((st, .worker p), m)]) st' p') :
    ProcessesJob env w ok st p j fun tr x => ∃ p', x.2 = .worker p' ∧ p'.pc = .loop ∧ I tr x.1 p' := by
  let μ : Store × Proc → Nat := fun x => match x.2 with
    | .worker p => p.pc.rank
    | _ => 0
  let J : List ((Store × Proc) × Turn) → Store × Proc → Prop := fun tr x =>
    ∃ p', x.2 = .worker p' ∧ I tr x.1 p'
  have hrun : ProcessesJob env w ok st p j fun tr x => x.2.looping = true ∧ J tr x := by
    refine Eventually.of_variant Nat.lt_wfRel.wf μ ⟨_, rfl, h₀⟩ ?_ ?_
    · rintro tr ⟨st, q⟩ ⟨p', rfl, hI⟩ _
      obtain ⟨op, hop⟩ := Worker.exists_next (w := w) (hpc tr st p' hI)
      obtain ⟨o, u, hm⟩ := hok (st, .worker p')
      obtain ⟨m, x, _, hf, ho, hu, hs⟩ := Solo.exists_step (Worker.next_proc env hop) o u st
      exact ⟨m, x, hm m hf ho hu, hs⟩
    · rintro tr ⟨st, q⟩ m ⟨st', q'⟩ ⟨p', rfl, hI⟩ hstop hm hs
      rw [looping_iff] at hstop
      obtain ⟨op', hop', he⟩ := Solo.ends_of_step hs
      obtain ⟨op, hop, rfl⟩ := Option.map_eq_some_iff.mp hop'
      obtain ⟨p₁, rfl, hends⟩ := he.of_map
      exact ⟨⟨p₁, rfl, hstep tr st st' p' p₁ m op hI hstop hm hop hends⟩,
        (Worker.goes_of_next hop hends).rank_lt hstop⟩
  refine hrun.mono fun tr x h => ?_
  obtain ⟨hstop, p', hp', hI⟩ := h
  rw [hp', looping_iff] at hstop
  exact ⟨p', hp', hstop, hI⟩

/-- `process_job` of job `j` is through: its row says so, or a pass will, or a worker will come to it again. -/
def Store.Recoverable (st : Store) (j : Uuid) : Prop :=
  (∃ r ∈ st.db.job? j, r.Tracked) ∨ ∃ q, j ∈ st.redis.lists q

def LockRaises (env : Env) (w : WorkerId) (j : Uuid) (tr : List ((Store × Proc) × Turn)) : Prop :=
  ∃ y ∈ tr, Solo.raised? env w y.1 y.2 = some (.fetchAndLockJob j w)

/-- Where `process_job` stands with a job that it can lock, and was given in `st`. -/
inductive Attempting (env : Env) (w : WorkerId) (st : Store) (j : Uuid) :
    List ((Store × Proc) × Turn) → Store → Worker → Prop
  | reserved {st' : Store} {p : Worker} : p.pc = .fetchAndLock j → st' = st →
      Attempting env w st j [] st' p
  | locked {tr : List ((Store × Proc) × Turn)} {st' : Store} {p : Worker} :
      p.pc.locked = true ∨ p.pc = .loop →
      (∃ r ∈ st'.db.job? j, r.Tracked) → ¬ LockRaises env w j tr → Attempting env w st j tr st' p
  | stranded {tr : List ((Store × Proc) × Turn)} {st' : Store} {p : Worker} : p.pc = .loop →
      st'.db = st.db → st'.redis = st.redis → LockRaises env w j tr → Attempting env w st j tr st' p

theorem lockRaises_append {tr : List ((Store × Proc) × Turn)} {x : Store × Proc} {m : Turn} :
    LockRaises env w j (tr ++ [(x, m)]) ↔
      LockRaises env w j tr ∨ Solo.raised? env w x m = some (.fetchAndLockJob j w) := by
  unfold LockRaises
  simp only [List.mem_append, List.mem_singleton, or_and_right, exists_or, exists_eq_left]

theorem Attempting.step {st₀ : Store} {p p' : Worker} {tr : List ((Store × Proc) × Turn)} {m : Turn}
    {op : Op Worker}
    (hr : st₀.db.job? j = some r) (hclaim : r.claimable = true) (h : Attempting env w st₀ j tr st p)
    (hpc : p.pc ≠ .loop) (hm : NoLoss (st, .worker p) m) (hop : p.next w = some op)
    (he : op.Ends env m.choice (st.wait m.elapsed) st' p') :
    Attempting env w st₀ j (tr ++ [((st, .worker p), m)]) st' p' := by
  have hraised {c : Call} : Solo.raised? env w (st, .worker p) m = some c ↔ _ :=
    Solo.raised?_eq_some (Worker.next_proc env hop)
  cases h with
  | reserved hp hst =>
    subst hst
    obtain ⟨pc, running, n⟩ := p
    obtain rfl : pc = .fetchAndLock j := hp
    cases hop
    cases he with
    | @returned _ row hf hrun =>
      have hnot : ¬ LockRaises env w j ([] ++ [((st, .worker ⟨.fetchAndLock j, running, n⟩), m)]) := by
        rintro ⟨y, hy, hy'⟩
        cases List.mem_singleton.mp hy
        obtain ⟨_, _, e, hf'⟩ := hraised.mp hy'
        cases (hf.resolve_right nofun).symm.trans hf'
      rcases row with _ | job
      · cases hclaim.symm.trans (Call.run_fetchAndLockJob_none hrun hr)
      · obtain ⟨_, _, _, _, _, hrow⟩ := Call.run_fetchAndLockJob_some hrun
        exact .locked (.inl rfl) ⟨_, hrow, .inr (.inr (.inr ⟨rfl, rfl, rfl⟩))⟩ hnot
    | raised hf hl =>
      have hlock := hraised.mpr ⟨rfl, hl, _, hf⟩
      exact .stranded rfl rfl rfl (lockRaises_append.mpr (.inr hlock))
    | lost hf => exact absurd hm (not_noLoss hf _)
  | locked hp ht hlock =>
    obtain ⟨hc, hp'⟩ := (Worker.goes_of_next hop he).still_locked (hp.resolve_right hpc)
    refine .locked hp' ?_ ?_
    · cases he with
      | returned _ hrun | lost _ _ hrun => exact Call.tracked_of_run hrun hc ht
      | raised => exact ht
    · rw [lockRaises_append]
      rintro (h | h)
      · exact hlock h
      · obtain ⟨hcall, _⟩ := hraised.mp h
        rw [show op.call = _ from hcall] at hc
        cases hc
  | stranded hp => exact absurd hp hpc

theorem processesJob_attempting (env : Env) (w : WorkerId) (p : Worker) (hr : st.db.job? j = some r)
    (hclaim : r.claimable = true) : ProcessesJob env w NoLoss st p j fun tr x =>
      ∃ p', x.2 = .worker p' ∧ p'.pc = .loop ∧ Attempting env w st j tr x.1 p' := by
  refine processesJob_of_invariant (.reserved rfl rfl) ?_ ?_ ?_
  · intro tr st' p' h hstop
    cases h with
    | reserved hp => cases hp.symm.trans hstop
    | locked hp =>
      rw [hstop] at hp
      rcases hp with hp | hp <;> cases hp
    | stranded hp => cases hp.symm.trans hstop
  · exact fun x => ⟨.ok .null, default, fun m hf _ _ => noLoss_of_none hf x⟩
  · exact fun tr st st' p p' m op h hpc hm hop he => h.step hr hclaim hpc hm hop he

theorem Attempting.recoverable_iff_lists {st₀ : Store} {p : Worker} {tr : List ((Store × Proc) × Turn)}
    (hr : st₀.db.job? j = some r) (hclaim : r.claimable = true) (h : Attempting env w st₀ j tr st p)
    (hp : p.pc = .loop) : st.Recoverable j ↔
      ¬ (LockRaises env w j tr ∧ r.status = .pending ∧ ∀ q, j ∉ st₀.redis.lists q) := by
  cases h with
  | reserved hpc => cases hpc.symm.trans hp
  | locked _ ht hlock => exact iff_of_true (.inl ht) fun h => hlock h.1
  | stranded _ hdb hredis hlock =>
    have hstatus : r.status = .pending ∨ r.status = .retrying := by
      simpa only [Job.claimable, Bool.or_eq_true, decide_eq_true_eq] using hclaim
    unfold Store.Recoverable
    rw [hdb, hredis, hr, and_iff_right hlock, not_and_or, not_forall]
    constructor
    · rintro (⟨r', hr', ht⟩ | ⟨q, hq⟩)
      · cases hr'
        left
        intro hpending
        rcases ht with h | h | h | ⟨h, _⟩ <;> cases hpending.symm.trans h
      · exact .inr ⟨q, not_not.mpr hq⟩
    · rintro (h | ⟨q, hq⟩)
      · exact .inl ⟨r, rfl, .inr (.inr (.inl (hstatus.resolve_left h)))⟩
      · exact .inr ⟨q, not_not.mp hq⟩

/-- A job given to `process_job` is recoverable after it if and only if the lock did not raise, or the job was
to be retried, or a ready list had it anyway. -/
theorem recoverable_iff (env : Env) (w : WorkerId) (p : Worker) (hr : st.db.job? j = some r)
    (hclaim : r.claimable = true) :
    ProcessesJob env w NoLoss st p j fun tr x =>
      x.1.Recoverable j ↔ ¬ (LockRaises env w j tr ∧ r.status = .pending ∧
        ∀ q, j ∉ st.redis.lists q) := by
  have hattempt := processesJob_attempting env w p hr hclaim
  refine hattempt.mono fun tr x h => ?_
  obtain ⟨p', _, hp', h⟩ := h
  exact h.recoverable_iff_lists hr hclaim hp'

/-- Job 7 of a request, `PENDING` and in `queue:processing`. -/
def reserved (req : JobCreateRequest) : Store where
  db := { Database.empty with jobs := .single (req.toNewJob.toJob 0 7) }
  redis := Redis.empty.lpushProcessing 7
  clock := 0

theorem recoverable_iff_report : ProcessesJob minutely 1 NoLoss (reserved report) {} 7 fun tr x =>
    x.1.Recoverable 7 ↔ ¬ (LockRaises minutely 1 7 tr ∧ (report.toNewJob.toJob 0 7).status = .pending ∧
      ∀ q, 7 ∉ (reserved report).redis.lists q) :=
  recoverable_iff minutely 1 {} rfl rfl

/-- The lock of job 7 raises. -/
theorem not_recoverable : ¬ ProcessesJob minutely 1 NoLoss (reserved report) {} 7 fun _ x =>
    x.1.Recoverable 7 := by
  intro hall
  obtain ⟨tr, x, h, hx⟩ : ∃ tr x, Run (Going (fun x => x.2.looping = true) NoLoss)
      (Solo.step minutely 1) (reserved report, .worker (({} : Worker).at' (.fetchAndLock 7))) tr x ∧ _ :=
    exists_run_of_exec [{ choice := { fault := .raised "connection refused" } }]
      (fun _ x => x.1.db.status? 7 = some .pending ∧ (∀ q ∈ Queue.ordered, x.1.redis.lists q = []) ∧
        x.2.looping = true) (by decide)
  obtain ⟨hrow, hlists, hstop⟩ := of_decide_eq_true hx
  rcases hall.of_run h hstop with ⟨r, hr, ht⟩ | ⟨q, hq⟩
  · have hpending : r.status = .pending :=
      Option.some.inj ((Database.status?_of_job? hr).symm.trans hrow)
    rcases ht with h | h | h | ⟨h, _⟩ <;> cases hpending.symm.trans h
  · rw [hlists q (by cases q <;> decide)] at hq
    cases hq

end DistribuQ
