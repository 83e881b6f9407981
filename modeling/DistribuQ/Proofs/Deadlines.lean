import DistribuQ.Proofs.Registry
import DistribuQ.Proofs.Exclusion
import DistribuQ.Proofs.Draining
import DistribuQ.Proofs.Expiry

/-! Deadlines that keep a stale reclaim away from a worker at work: what the timeouts of the settings promise. -/

namespace DistribuQ
open Transition
variable {env : Env} {s s' : State} {a : Action} {V H : Nat}

/-- The timeouts of a pass leave a worker `V` seconds for an attempt and `H` seconds from heartbeat to heartbeat. -/
def Lenient (V H visibility heartbeat : Nat) : Prop := V ≤ visibility ∧ H ≤ visibility ∧ H ≤ heartbeat

/-- Time does not pass the deadline of an attempt or of a heartbeat, and no pass has shorter timeouts. -/
def InTime (env : Env) (V H : Nat) (s : State) : Action → Prop
  | .tick n =>
    (∀ (i : Nat) (p : Proc) (job : LockedJob), s.procs[i]? = some p → p.attempt? = some job →
      ∀ r ∈ s.store.db.job? job.id, ∀ t ∈ r.lockedAt, s.store.clock + n ≤ t + seconds V) ∧
    ∀ (i : Nat) (p : Worker), s.procs[i]? = some (.worker p) → p.pc.serving = true →
      ∀ v ∈ s.store.db.workers.find? i,
      s.store.clock + n ≤ v.lastHeartbeat + seconds H
  | .spawn .scheduler => Lenient V H env.visibilityTimeoutSec env.workerTimeoutSec
  | .spawn (.reaper v n) => Lenient V H v n
  | _ => True

/-- Deadlines are met, replays come one at a time, and no answer from Postgres is lost. -/
def Prompt (env : Env) (V H : Nat) (s : State) (a : Action) : Prop :=
  InTime env V H s a ∧ NoReplayOverlap s a ∧ NoLostSql env s a

def Proc.serving : Proc → Bool
  | worker p => p.pc.serving
  | _ => false

theorem inTime_tick {n : Nat} : (∀ i < s.procs.length, ∀ p ∈ s.procs[i]?,
      (∀ job ∈ p.attempt?, ∀ r ∈ s.store.db.job? job.id, ∀ t ∈ r.lockedAt, s.store.clock + n ≤ t + seconds V) ∧
      (p.serving = true → ∀ v ∈ s.store.db.workers.find? i, s.store.clock + n ≤ v.lastHeartbeat + seconds H)) ↔
    InTime env V H s (.tick n) := by
  constructor
  · intro h
    constructor
    · intro i p job hp hattempt
      exact (h i (List.getElem?_eq_some_iff.mp hp).1 p hp).1 job hattempt
    · intro i p hp hserving
      exact (h i (List.getElem?_eq_some_iff.mp hp).1 _ hp).2 hserving
  · rintro ⟨hlocks, hbeats⟩ i _ p hp
    refine ⟨fun job => hlocks i p job hp, fun hserving => ?_⟩
    cases p with
    | worker p => exact hbeats i p hp hserving
    | _ => cases hserving

instance (V H visibility heartbeat : Nat) : Decidable (Lenient V H visibility heartbeat) :=
  inferInstanceAs (Decidable (_ ∧ _))

instance (env : Env) (V H : Nat) (s : State) : (a : Action) → Decidable (InTime env V H s a)
  | .tick _ => decidable_of_iff _ inTime_tick
  | .spawn .scheduler => inferInstanceAs (Decidable (Lenient V H _ _))
  | .spawn (.reaper v n) => inferInstanceAs (Decidable (Lenient V H v n))
  | .spawn (.submit _) | .spawn (.cancel _) | .spawn (.replay _) | .spawn .worker | .run .. | .heartbeat ..
    | .signal _ | .crash _ => isTrue trivial

instance : Decidable (Prompt env V H s a) := inferInstanceAs (Decidable (_ ∧ _ ∧ _))

def Proc.Lenient (env : Env) (V H : Nat) : Proc → Prop
  | scheduler _ => DistribuQ.Lenient V H env.visibilityTimeoutSec env.workerTimeoutSec
  | reaper p => DistribuQ.Lenient V H p.visibilityTimeoutSec p.heartbeatTimeoutSec
  | _ => True

/-- Before its deadlines a worker is alive in the registry and holds what it is at. -/
structure OnTime (env : Env) (V H : Nat) (s : State) : Prop where
  exclusive : Exclusive s
  lenient : ∀ (i : Nat) (p : Proc), s.procs[i]? = some p → p.Lenient env V H
  known : ∀ v ∈ s.store.db.workers.rows, v.id < s.procs.length
  beats : ∀ (i : Nat) (p : Worker) (v : WorkerRow), s.procs[i]? = some (.worker p) → p.pc.serving = true →
    s.store.db.workers.find? i = some v → v.status = .alive ∧ s.store.clock ≤ v.lastHeartbeat + seconds H
  locks : ∀ (i : Nat) (p : Proc) (job : LockedJob) (r : Job), s.procs[i]? = some p → p.attempt? = some job →
    s.store.db.job? job.id = some r → ∃ t, r.lockedAt = some t ∧ s.store.clock ≤ t + seconds V

theorem Worker.serving_of_attempt? {pc : Worker.Pc} {job : LockedJob} (h : pc.attempt? = some job) :
    pc.serving = true := by
  cases pc <;> first | rfl | cases h

/-- A stale reclaim finds no job of a worker that is in an attempt at it. -/
theorem OnTime.not_stale (hI : OnTime env V H s) {n i : Nat} {p : Proc} {job : LockedJob} {r : Job}
    (hn : V ≤ n ∧ H ≤ n) (hp : s.procs[i]? = some p) (ha : p.attempt? = some job)
    (hr : s.store.db.job? job.id = some r) : s.store.db.stale s.store.clock n r = false := by
  rw [Bool.eq_false_iff, ne_eq, Database.stale_iff]
  rintro ⟨_, ⟨t, ht, hlt⟩ | ⟨v, hv, hlocked, hlost⟩⟩
  · obtain ⟨t', ht', hle⟩ := hI.locks i p job r hp ha hr
    cases ht.symm.trans ht'
    have hsec : seconds V ≤ seconds n := by unfold seconds; exact_mod_cast Nat.mul_le_mul_left _ hn.1
    linarith
  · obtain ⟨r', hr', _, howner⟩ := hI.exclusive.owner i p job hp ha
    cases hr.symm.trans hr'
    obtain rfl : v.id = i := Option.some.inj (hlocked.symm.trans howner)
    cases p with
    | worker p =>
      have hfind : s.store.db.workers.find? v.id = some v := (Table.find?_eq_some _).mpr ⟨hv, rfl⟩
      obtain ⟨halive, hle⟩ := hI.beats v.id p v hp (Worker.serving_of_attempt? ha) hfind
      have hsec : seconds H ≤ seconds n := by unfold seconds; exact_mod_cast Nat.mul_le_mul_left _ hn.2
      rcases hlost with hdead | hlt
      · rw [halive] at hdead
        cases hdead
      · linarith
    | _ => cases ha

theorem OnTime.reclaimsAbandoned (hI : OnTime env V H s) : ReclaimsAbandoned env s a := by
  rintro ⟨pid, c⟩ hc n hn r hr hstale w _ p hp job hjob hid
  obtain ⟨q, hq, hby⟩ := calledBy_of_call? hc
  cases c with
  | reclaimStaleJobs m =>
    cases hn
    have hle : V ≤ n ∧ H ≤ n := by
      have hlenient := hI.lenient pid q hq
      rcases hby with ⟨x, rfl, rfl⟩ | ⟨x, rfl, rfl⟩ <;> exact ⟨hlenient.1, hlenient.2.1⟩
    have hrow : s.store.db.job? job.id = some r := (Table.find?_eq_some _).mpr ⟨hr, hid.symm⟩
    rw [hI.not_stale hle hp hjob hrow] at hstale
    cases hstale
  | _ => cases hn

theorem OnTime.orderly (hI : OnTime env V H s) (ha : Prompt env V H s a) : Orderly env s a :=
  ⟨hI.reclaimsAbandoned, ha.2.1, ha.2.2⟩

theorem Reaper.timeouts_of_next {ch : Choice} {st st' : Store} {p p' : Reaper} {op : Op Reaper}
    (hop : p.next = some op) (he : op.Ends env ch st st' p') :
    p'.visibilityTimeoutSec = p.visibilityTimeoutSec ∧ p'.heartbeatTimeoutSec = p.heartbeatTimeoutSec := by
  have hresume (x : Except String op.call.Ret) : (op.resume x).visibilityTimeoutSec = p.visibilityTimeoutSec ∧
      (op.resume x).heartbeatTimeoutSec = p.heartbeatTimeoutSec := by
    obtain ⟨v, n, pc, running⟩ := p
    cases pc with
    | stopped => cases hop
    | _ =>
      cases hop
      cases x <;> exact ⟨rfl, rfl⟩
  cases he <;> exact hresume _

theorem lenient_of_next {pid : Nat} {ch : Choice} {st st' : Store} {p p' : Proc} {op : Op Proc}
    (hop : p.next env pid = some op) (he : op.Ends env ch st st' p') (h : p.Lenient env V H) :
    p'.Lenient env V H := by
  cases Proc.goes_of_next hop he with
  | scheduler => exact h
  | reaper hnext _ hends =>
    obtain ⟨hv, hn⟩ := Reaper.timeouts_of_next hnext hends
    rw [Proc.Lenient, hv, hn]
    exact h
  | _ => trivial

theorem lenient_step (hI : OnTime env V H s) (ha : InTime env V H s a) (h : step env s a = some s') {i : Nat}
    {p' : Proc} (hp' : s'.procs[i]? = some p') : p'.Lenient env V H := by
  cases became_of_step h hp' with
  | kept hp => exact hI.lenient i p' hp
  | spawned r hr =>
    subst hr
    cases r with
    | scheduler | reaper => exact ha
    | _ => trivial
  | signalled p hp hr =>
    subst hr
    have hlenient := hI.lenient i p hp
    cases p <;> exact hlenient
  | crashed hr =>
    subst hr
    trivial
  | ran hp hop he => exact lenient_of_next hop he (hI.lenient i _ hp)

theorem length_le_of_step (h : step env s a = some s') : s.procs.length ≤ s'.procs.length := by
  cases move_of_step h with
  | tick => exact le_rfl
  | spawn => simp
  | signal | crash | run | heartbeat => simp

/-- Only a worker that is there gets a row. -/
theorem lt_length_of_registered (hI : OnTime env V H s) (h : step env s a = some s') {i : Nat} {v' : WorkerRow}
    (hv' : s'.store.db.workers.find? i = some v') : i < s.procs.length := by
  have old {v : WorkerRow} (hv : s.store.db.workers.find? i = some v) : i < s.procs.length := by
    obtain ⟨hmem, hid⟩ := (Table.find?_eq_some _).mp hv
    exact hid ▸ hI.known v hmem
  cases registered_of_step h hv' with
  | kept hv => exact old hv
  | beat p hp => exact (List.getElem?_eq_some_iff.mp hp).1
  | stopped v _ hv => exact old hv
  | expired v _ _ _ hv => exact old hv

theorem serving_before {w : WorkerId} {ch : Choice} {st st' : Store} {pc pc' : Worker.Pc} {c : Call}
    (h : pc.Goes env w ch st st' c pc') (hs : pc'.serving = true) : pc.serving = true := by
  cases h with
  | emitDead | markDead => cases hs
  | _ => rfl

/-- A worker that serves after a step was there and served before it, or is new. -/
theorem serving_of_step {i : Nat} {p' : Worker} (h : step env s a = some s')
    (hp' : s'.procs[i]? = some (.worker p')) (hs : p'.pc.serving = true) :
    (∃ p, s.procs[i]? = some (.worker p) ∧ p.pc.serving = true) ∨ i = s.procs.length := by
  cases became_of_step h hp' with
  | kept hp => exact .inl ⟨p', hp, hs⟩
  | spawned r _ hi => exact .inr hi
  | signalled p hp hr =>
    cases p <;> cases hr
    exact .inl ⟨_, hp, hs⟩
  | crashed hr => cases hr
  | ran hp hop he =>
    cases Proc.goes_of_next hop he with
    | worker hnext _ hends => exact .inl ⟨_, hp, serving_before (Worker.goes_of_next hnext hends) hs⟩

theorem clock_of_step (h : step env s a = some s') (ha : ∀ n, a ≠ .tick n) :
    s'.store.clock = s.store.clock := by
  cases move_of_step h with
  | tick n => exact absurd rfl (ha n)
  | spawn | signal | crash => rfl
  | run _ _ he | heartbeat _ _ he =>
    cases he with
    | returned _ hr | lost _ _ hr => exact Call.run_clock hr
    | raised => rfl

theorem beats_step (hI : OnTime env V H s) (h : step env s a = some s') (ha : ∀ n, a ≠ .tick n) {i : Nat}
    {p' : Worker} {v' : WorkerRow} (hp' : s'.procs[i]? = some (.worker p')) (hs : p'.pc.serving = true)
    (hv' : s'.store.db.workers.find? i = some v') :
    v'.status = .alive ∧ s'.store.clock ≤ v'.lastHeartbeat + seconds H := by
  rw [clock_of_step h ha]
  rcases serving_of_step h hp' hs with ⟨p, hp, hserving⟩ | hnew
  · cases registered_of_step h hv' with
    | kept hv => exact hI.beats i p v' hp hserving hv
    | beat q _ _ halive hlast =>
      have hpos : 0 ≤ seconds H := by unfold seconds; positivity
      exact ⟨halive, by linarith⟩
    | stopped v q _ hq hpc =>
      cases hp.symm.trans hq
      rw [hpc] at hserving
      cases hserving
    | expired v n pid q hv _ hlast _ hq hby =>
      -- the timeout of the pass is not over
      obtain ⟨_, hle⟩ := hI.beats i p v hp hserving hv
      have hlenient := hI.lenient pid q hq
      have hn : H ≤ n := by
        rcases hby with ⟨x, rfl, rfl⟩ | ⟨x, rfl, rfl⟩ <;> exact hlenient.2.2
      have hsec : seconds H ≤ seconds n := by unfold seconds; exact_mod_cast Nat.mul_le_mul_left _ hn
      linarith
  · exact absurd (lt_length_of_registered hI h hv') (by omega)

theorem locks_step (hI : OnTime env V H s) (hI' : Exclusive s') (h : step env s a = some s')
    (ha : ∀ n, a ≠ .tick n) {i : Nat} {p' : Proc} {job : LockedJob} {r' : Job} (hp' : s'.procs[i]? = some p')
    (hattempt : p'.attempt? = some job) (hr' : s'.store.db.job? job.id = some r') :
    ∃ t, r'.lockedAt = some t ∧ s'.store.clock ≤ t + seconds V := by
  rw [clock_of_step h ha]
  rcases ofPc_of_step Worker.fromLock_attempt? h hp' hattempt with ⟨p, hp, hbefore, _⟩ |
    ⟨r, _, _, _, _, hlocked⟩
  · obtain ⟨r, hr, hrunning, _⟩ := hI.exclusive.owner i p job hp hbefore
    obtain ⟨r₁, hr₁, hrunning', _⟩ := hI'.owner i p' job hp' hattempt
    cases hr'.symm.trans hr₁
    have hkept : r'.lockedAt = r.lockedAt := by
      rcases guarded_step hI.exclusive.letters hI.exclusive.fenced h hr with hsame | ⟨_, _, r₂, _, hr₂, hg⟩
      · cases hr'.symm.trans hsame
        rfl
      · cases hr'.symm.trans hr₂
        cases hg with
        | kept => rfl
        | lock hclaim => simp [Job.claimable, hrunning] at hclaim
        | succeed | retry | bury | release | promote | cancel | reset => cases hrunning'
    rw [hkept]
    exact hI.locks i p job r hp hbefore hr
  · cases hr'.symm.trans hlocked
    have hpos : 0 ≤ seconds V := by unfold seconds; positivity
    exact ⟨s.store.clock, rfl, by linarith⟩

theorem onTime_step (hI : OnTime env V H s) (ha : Prompt env V H s a) (h : step env s a = some s') :
    OnTime env V H s' := by
  have hexclusive : Exclusive s' := exclusive_step hI.exclusive (hI.orderly ha) h
  by_cases htick : ∃ n, a = .tick n
  · obtain ⟨n, rfl⟩ := htick
    obtain ⟨⟨hlocks, hbeats⟩, _⟩ := ha
    cases h
    refine ⟨hexclusive, hI.lenient, hI.known, ?_, ?_⟩
    · intro i p v hp hs hv
      exact ⟨(hI.beats i p v hp hs hv).1, hbeats i p hp hs v hv⟩
    · intro i p job r hp hattempt hr
      obtain ⟨t, ht, _⟩ := hI.locks i p job r hp hattempt hr
      exact ⟨t, ht, hlocks i p job hp hattempt r hr t ht⟩
  · have htick : ∀ n, a ≠ .tick n := fun n hn => htick ⟨n, hn⟩
    refine ⟨hexclusive, fun _ _ => lenient_step hI ha.1 h, fun v hv => ?_, fun _ _ _ => beats_step hI h htick,
      fun _ _ _ _ => locks_step hI hexclusive h htick⟩
    exact (lt_length_of_registered hI h ((Table.find?_eq_some _).mpr ⟨hv, rfl⟩)).trans_le (length_le_of_step h)

theorem onTime_init (t : Nat) : OnTime env V H (.init t) where
  exclusive := exclusive_init t
  lenient i p hp := by cases hp
  known v hv := by cases hv
  beats i p v hp := by cases hp
  locks i p job r hp := by cases hp

/-- What the timeouts promise to workers that meet them, in any run. -/
structure DeadlineLaw (env : Env) (V H : Nat) : Prop where
  /-- No outcome comes from a worker that has lost its lock, and no reclaim takes a job from one at work. -/
  orderly {t : Nat} {s : State} {tr : List (State × Action)} :
    Run (Prompt env V H) (step env) (.init t) tr s →
    Run (fun s a => Orderly env s a ∧ Fenced env s a) (step env) (.init t) tr s
  /-- A worker in an attempt holds the lock of its job. -/
  holds {t : Nat} {s : State} {i : Nat} {p : Proc} {job : LockedJob} :
    Reachable (Prompt env V H) (step env) (.init t) s → s.procs[i]? = some p → p.attempt? = some job →
    s.Holds i job.id ∧ ∀ a, ¬ s.Reclaims env a job.id
  /-- A worker that has not begun to shut down is not marked dead. -/
  alive {t : Nat} {s : State} {i : Nat} {p : Worker} {v : WorkerRow} :
    Reachable (Prompt env V H) (step env) (.init t) s → s.procs[i]? = some (.worker p) → p.pc.serving = true →
    s.store.db.workers.find? i = some v → v.status = .alive

theorem onTime_of_reachable {t : Nat} (h : Reachable (Prompt env V H) (step env) (.init t) s) :
    OnTime env V H s :=
  h.invariant (onTime_init t) fun _ _ _ => onTime_step

theorem deadlineLaw (env : Env) (V H : Nat) : DeadlineLaw env V H where
  orderly {t s tr} h := h.strengthen (onTime_init t) (fun _ _ _ => onTime_step) fun _ _ hI ha =>
    ⟨hI.orderly ha, hI.exclusive.fenced⟩
  holds {t s i p job} h hp ha := by
    have hI := onTime_of_reachable h
    refine ⟨hI.exclusive.owner i p job hp ha, ?_⟩
    rintro a ⟨x, hx, n, hn, r, hr, hstale⟩
    obtain ⟨r', hr', _, hlocked⟩ := hI.exclusive.owner i p job hp ha
    cases hr.symm.trans hr'
    have hid := (Database.id_of_job? hr).symm
    exact hI.reclaimsAbandoned x hx n hn r (Database.mem_of_job? hr) hstale i hlocked p hp job ha hid
  alive h hp hs hv := ((onTime_of_reachable h).beats _ _ _ hp hs hv).1

/-- Worker 1 is at the handler of job 7 and beats; ten seconds later a reaper passes. -/
theorem deadlineLaw_met : ∃ s, Reachable (Prompt minutely 60 10) (step minutely) (.init 0) s ∧
    s.store.clock = 10000000 ∧ s.Holds 1 7 ∧ (∀ a, ¬ s.Reclaims minutely a 7) ∧
    ∃ v ∈ s.store.db.workers.find? 1, v.status = .alive := by
  obtain ⟨s, h, hs⟩ : ∃ s, Reachable (Prompt minutely 60 10) (step minutely) (.init 0) s ∧ _ :=
    exists_reachable_of_exec (taken report ++ [.heartbeat 1 {}, .tick 10000000, .spawn (.reaper 60 10)] ++ calls 2 5)
      (fun s => s.store.clock = 10000000 ∧ (s.store.db.workers.find? 1).isSome = true ∧
        ∃ p ∈ s.procs[1]?, p.serving = true ∧ ∃ job ∈ p.attempt?, job.id = 7) (by decide +kernel)
  obtain ⟨hclock, hrow, p, hp, hserving, job, hattempt, hid⟩ := of_decide_eq_true hs
  obtain ⟨v, hv⟩ := Option.isSome_iff_exists.mp hrow
  obtain ⟨hholds, hkept⟩ := (deadlineLaw minutely 60 10).holds h hp hattempt
  rw [hid] at hholds hkept
  cases p with
  | worker p => exact ⟨s, h, hclock, hholds, hkept, v, hv, (deadlineLaw minutely 60 10).alive h hp hserving hv⟩
  | _ => cases hserving

end DistribuQ
