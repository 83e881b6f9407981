import DistribuQ.Library.Matching
import DistribuQ.Proofs.Accounting
import DistribuQ.Proofs.Cancellation
import DistribuQ.Proofs.Ordering

/-! The ids that pass through one worker: popped, put into `queue:processing`, handed to `process_job` and
acknowledged, whenever `running` is cleared. -/

namespace DistribuQ
open Transition
variable {env : Env} {s s₀ s' : State} {a : Action} {pid : Nat} {j : Uuid} {w w₀ : Worker}
  {tr : List (State × Action)}

/-- What a call puts into `queue:processing`. -/
def Call.stores (r : Redis) : Call → List Uuid
  | rpoplpush q => (r.rpop q).2.toList
  | lpushProcessing j => [j]
  | _ => []

def Call.acknowledges : Call → List Uuid
  | lremProcessing j => [j]
  | _ => []

namespace State

/-- What worker `pid` puts into `queue:processing` in this step. -/
def storesBy (env : Env) (pid : Nat) (s : State) (a : Action) : List Uuid :=
  if a.runs? = some pid then (s.call? env a).elim [] fun x => x.2.stores s.store.redis else []

/-- What worker `pid` acknowledges in this step; `process_job` ends with it. -/
def acksBy (env : Env) (pid : Nat) (s : State) (a : Action) : List Uuid :=
  if a.runs? = some pid then (s.call? env a).elim [] fun x => x.2.acknowledges else []

def held? (pid : Nat) (s : State) : Option Uuid := (s.procs[pid]?).bind (Proc.ofPc Worker.Pc.held?)

def IsWorker (pid : Nat) (s : State) : Prop := ∃ w, s.procs[pid]? = some (.worker w)

/-- Worker `pid` has left the loop of `start`. -/
def Left (pid : Nat) (s : State) : Prop := s.At pid .emitDead ∨ s.At pid .markDead ∨ s.At pid .stopped

end State

/-- Worker `pid` is not cancelled, and none of its calls fails. -/
def Uncancelled (pid : Nat) (s : State) (a : Action) : Prop := a.crashes? ≠ some pid ∧ OwnReturn pid s a

instance : Decidable (Uncancelled pid s a) := inferInstanceAs (Decidable (_ ∧ _))

/-- Every id that worker `pid` took from a ready list has been put into `queue:processing` and gone through
one `process_job`, which has acknowledged it, in the order in which they were taken. -/
structure Drained (env : Env) (pid : Nat) (tr : List (State × Action)) : Prop where
  stored : flow (State.storesBy env pid) tr = flow (State.takesBy env pid) tr
  processed : flow (State.returns env pid) tr = flow (State.takesBy env pid) tr
  acked : flow (State.acksBy env pid) tr = flow (State.takesBy env pid) tr

structure ShutdownLaw (env : Env) : Prop where
  left {pid : Nat} {s₀ s : State} {w₀ : Worker} {tr : List (State × Action)} :
    s₀.procs[pid]? = some (.worker w₀) → w₀.pc = .loop → Run (Uncancelled pid) (step env) s₀ tr s → s.Left pid →
    Drained env pid tr
  dead {pid : Nat} {s₀ s : State} {w₀ : Worker} {tr : List (State × Action)} {i : Nat} {x : State × Action}
    {w : WorkerId} :
    s₀.procs[pid]? = some (.worker w₀) → w₀.pc = .loop → Run (Uncancelled pid) (step env) s₀ tr s →
    tr[i]? = some x → x.1.call? env x.2 = some (pid, .markWorkerDead w) → Drained env pid (tr.take i)

namespace Worker
variable {ch : Choice} {st st' : Store} {pc pc' : Pc} {c : Call}

/-- An id goes into `queue:processing` from the hands of a worker or from a ready list, and at once to
`process_job`. -/
theorem stores_of_goes (h : pc.Goes env pid ch st st' c pc') (hf : ch.fault = .none) :
    c.stores st.redis = pc'.reserved?.toList := by
  cases h with
  | pollFault hne | popFault hne | putFault hne => exact absurd hf hne
  | reserved _ hr | empty _ hr =>
    obtain ⟨_, hpop, _⟩ := Redis.rpop_of_rpoplpush (Call.run_rpoplpush hr).1
    rw [Call.stores, hpop]
    rfl
  | raised | successFault => rw [(reserved?_onFailure _ _).1]; rfl
  | emitSuccess => rw [(reserved?_afterSuccess _).1]; rfl
  | _ => rfl

theorem acknowledges_of_goes (h : pc.Goes env pid ch st st' c pc') (hf : ch.fault = .none) :
    c.acknowledges ++ pc'.held?.toList = pc.held?.toList ++ pc'.reserved?.toList := by
  cases h with
  | pollFault hne | popFault hne | putFault hne | lockFault hne => exact absurd hf hne
  | locked _ hr =>
    obtain ⟨_, _, _, _, hid, _⟩ := Call.run_fetchAndLockJob_some hr
    exact congrArg (fun i => [i]) hid
  | raised | successFault =>
    rw [held?_onFailure, (reserved?_onFailure _ _).1]
    rfl
  | emitSuccess =>
    rw [held?_afterSuccess, (reserved?_afterSuccess _).1]
    rfl
  | _ => rfl

theorem pc_of_markWorkerDead {w : WorkerId} (h : pc.Goes env pid ch st st' (.markWorkerDead w) pc') :
    pc = .markDead := by
  cases h
  rfl

end Worker

/-- A step that is not its own leaves a worker where it is. -/
theorem worker_of_idle (hp : s.procs[pid]? = some (.worker w)) (h : step env s a = some s')
    (ha : a.runs? ≠ some pid) (hc : a.crashes? ≠ some pid) :
    ∃ w', s'.procs[pid]? = some (.worker w') ∧ w'.pc = w.pc := by
  obtain ⟨p', hp'⟩ := exists_proc_of_step h hp
  cases became_of_step h hp' with
  | kept hkept =>
    cases hp.symm.trans hkept
    exact ⟨w, hp', rfl⟩
  | spawned r _ hi =>
    rw [hi, List.getElem?_eq_none le_rfl] at hp
    cases hp
  | signalled p hkept hr =>
    cases hp.symm.trans hkept
    cases hr
    exact ⟨_, hp', rfl⟩
  | crashed => exact absurd rfl hc
  | ran => exact absurd rfl ha

theorem isWorker_of_step (hw : s.IsWorker pid) (hu : Uncancelled pid s a) (h : step env s a = some s') :
    s'.IsWorker pid := by
  obtain ⟨w, hp⟩ := hw
  by_cases ha : a.runs? = some pid
  · cases a with
    | run i ch =>
      obtain rfl : i = pid := Option.some.inj ha
      obtain ⟨w', _, _, _, hw', _⟩ := worker_of_step hp h
      exact ⟨w', hw'⟩
    | _ => cases ha
  · obtain ⟨w', hw', _⟩ := worker_of_idle hp h ha hu.1
    exact ⟨w', hw'⟩

/-- What a worker has popped goes to `process_job`, and what it holds is acknowledged. -/
theorem passes_of_step (hw : s.IsWorker pid) (hu : Uncancelled pid s a) (h : step env s a = some s') :
    s.returns env pid a ++ (s'.popped? pid).toList = (s.popped? pid).toList ++ s.takesBy env pid a ∧
      s.storesBy env pid a = s.returns env pid a ∧
      s.acksBy env pid a ++ (s'.held? pid).toList = (s.held? pid).toList ++ s.returns env pid a := by
  obtain ⟨w, hp⟩ := hw
  by_cases ha : a.runs? = some pid
  · cases a with
    | run i ch =>
      obtain rfl : i = pid := Option.some.inj ha
      have hf : ch.fault = .none := hu.2 ha
      obtain ⟨w', op, _, hgoes, hp', hcall⟩ := worker_of_step hp h
      have hcall := hcall fun e he => by cases hf.symm.trans he
      have hreturns : s.returns env i (.run i ch) = w'.pc.reserved?.toList := by
        rw [State.returns, if_pos ha, h, Option.bind_some, State.reserved?, hp']
        rfl
      rw [hreturns, State.takesBy, State.storesBy, State.acksBy, if_pos ha, if_pos ha, if_pos ha,
        State.takes, hcall]
      simp only [State.popped?, State.held?, hp, hp', Option.bind_some, Option.elim_some]
      exact ⟨Worker.returns_of_goes hgoes fun _ => hf, Worker.stores_of_goes hgoes hf,
        Worker.acknowledges_of_goes hgoes hf⟩
    | _ => cases ha
  · obtain ⟨w', hp', hpc⟩ := worker_of_idle hp h ha hu.1
    rw [State.returns, State.takesBy, State.storesBy, State.acksBy, if_neg ha, if_neg ha, if_neg ha, if_neg ha]
    simp only [State.popped?, State.held?, hp, hp', Option.bind_some, Proc.ofPc, hpc, List.nil_append,
      List.append_nil, and_self]

theorem passes_of_run (hw : s₀.procs[pid]? = some (.worker w₀)) (hpc : w₀.pc = .loop)
    (h : Run (Uncancelled pid) (step env) s₀ tr s) : s.IsWorker pid ∧
      flow (State.returns env pid) tr ++ (s.popped? pid).toList = flow (State.takesBy env pid) tr ∧
      flow (State.storesBy env pid) tr = flow (State.returns env pid) tr ∧
      flow (State.acksBy env pid) tr ++ (s.held? pid).toList = flow (State.returns env pid) tr := by
  have hI : s.IsWorker pid := h.invariant ⟨w₀, hw⟩ fun _ _ _ => isWorker_of_step
  have hrun : Run (fun s a => Uncancelled pid s a ∧ s.IsWorker pid) (step env) s₀ tr s :=
    h.strengthen ⟨w₀, hw⟩ (fun _ _ _ => isWorker_of_step) fun _ _ hI hu => ⟨hu, hI⟩
  have hpopped : s₀.popped? pid = none := by
    rw [State.popped?, hw, Option.bind_some, Proc.ofPc, hpc]
    rfl
  have hheld : s₀.held? pid = none := by
    rw [State.held?, hw, Option.bind_some, Proc.ofPc, hpc]
    rfl
  refine ⟨hI, ?_, ?_, ?_⟩
  · have hfirst : flow (State.returns env pid) tr ++ (s.popped? pid).toList =
        (s₀.popped? pid).toList ++ flow (State.takesBy env pid) tr :=
      hrun.first_out fun s a s' hu hs => (passes_of_step hu.2 hu.1 hs).1
    rwa [hpopped] at hfirst
  · have hfirst : flow (State.storesBy env pid) tr ++ [] = [] ++ flow (State.returns env pid) tr :=
      hrun.first_out fun s a s' hu hs => (List.append_nil _).trans (passes_of_step hu.2 hu.1 hs).2.1
    rwa [List.append_nil] at hfirst
  · have hfirst : flow (State.acksBy env pid) tr ++ (s.held? pid).toList =
        (s₀.held? pid).toList ++ flow (State.returns env pid) tr :=
      hrun.first_out fun s a s' hu hs => (passes_of_step hu.2 hu.1 hs).2.2
    rwa [hheld] at hfirst

theorem drained_of_run (hw : s₀.procs[pid]? = some (.worker w₀)) (hpc : w₀.pc = .loop)
    (h : Run (Uncancelled pid) (step env) s₀ tr s) (hpopped : s.popped? pid = none)
    (hheld : s.held? pid = none) : Drained env pid tr := by
  obtain ⟨-, htakes, hstores, hacks⟩ := passes_of_run hw hpc h
  rw [hpopped, Option.toList_none, List.append_nil] at htakes
  rw [hheld, Option.toList_none, List.append_nil] at hacks
  exact ⟨hstores.trans htakes, htakes, hacks.trans htakes⟩

theorem State.At.empty {pc : Worker.Pc} (h : s.At pid pc) (hpopped : pc.popped? = none)
    (hheld : pc.held? = none) : s.popped? pid = none ∧ s.held? pid = none := by
  obtain ⟨w, hp, rfl⟩ := h
  exact ⟨by rw [State.popped?, hp]; exact hpopped, by rw [State.held?, hp]; exact hheld⟩

theorem State.Left.empty (h : s.Left pid) : s.popped? pid = none ∧ s.held? pid = none := by
  rcases h with h | h | h <;> exact h.empty rfl rfl

theorem State.left_of_next (hp : s.procs[pid]? = some (.worker w)) (hnext : w.next pid = none) : s.Left pid := by
  obtain ⟨pc, running, n⟩ := w
  cases pc with
  | stopped => exact .inr (.inr ⟨_, hp, rfl⟩)
  | poll qs => cases qs <;> cases hnext
  | _ => cases hnext

theorem shutdownLaw (env : Env) : ShutdownLaw env where
  left hw hpc h hleft := drained_of_run hw hpc h hleft.empty.1 hleft.empty.2
  dead {pid s₀ s w₀ tr i x k} hw hpc h hi hc := by
    obtain ⟨s₁, a⟩ := x
    obtain ⟨hrun, hu⟩ := h.take hi
    obtain ⟨⟨w, hp⟩, -⟩ := passes_of_run hw hpc hrun
    obtain ⟨-, s', hs⟩ := h.of_mem _ (List.mem_of_getElem? hi)
    have hat : s₁.At pid .markDead := by
      obtain ⟨ch, _, _, _, ⟨rfl, _⟩ | ⟨_, hop⟩, hcall⟩ := call?_eq_some hc
      · have hf : ch.fault = .none := hu.2 rfl
        obtain ⟨_, op, _, hgoes, _, hcall'⟩ := worker_of_step hp hs
        have hcall' := hcall' fun e he => by cases hf.symm.trans he
        have hop : op.call = .markWorkerDead k := congrArg Prod.snd (Option.some.inj (hcall'.symm.trans hc))
        rw [hop] at hgoes
        exact ⟨w, hp, Worker.pc_of_markWorkerDead hgoes⟩
      · obtain ⟨_, rfl⟩ := heartbeat_eq_some hop
        cases hcall
    exact drained_of_run hw hpc hrun (hat.empty rfl rfl).1 (hat.empty rfl rfl).2

/-- Job 7 waits in `queue:default`, and worker 0 is about to poll. -/
def aboutToPoll : State where
  store := ⟨{ Database.empty with jobs := .single (report.toNewJob.toJob 0 7) }, Redis.empty.lpush .default 7, 0⟩
  procs := [.worker {}]

/-- The signal comes while the worker executes the handler of job 7. -/
theorem shutdownLaw_signalled : ∃ tr s, Run (Uncancelled 0) (step minutely) aboutToPoll tr s ∧
    flow (State.takesBy minutely 0) tr = [7] ∧ flow (State.acksBy minutely 0) tr = [7] := by
  obtain ⟨tr, s, h, hs⟩ : ∃ tr s, Run (Uncancelled 0) (step minutely) aboutToPoll tr s ∧ _ :=
    exists_run_of_exec (calls 0 5 ++ [.signal 0] ++ calls 0 7) (fun tr s =>
      flow (State.takesBy minutely 0) tr = [7] ∧
        ∃ p ∈ s.procs[0]?, p.isWorker = true ∧ (p.next minutely 0).isNone = true) (by decide)
  obtain ⟨htaken, p, hp, hworker, hnone⟩ := of_decide_eq_true hs
  cases p with
  | worker w =>
    have hleft : s.Left 0 := State.left_of_next hp (Option.map_eq_none_iff.mp (Option.isNone_iff_eq_none.mp hnone))
    exact ⟨tr, s, h, htaken, ((shutdownLaw minutely).left rfl rfl h hleft).acked.trans htaken⟩
  | _ => cases hworker

end DistribuQ
