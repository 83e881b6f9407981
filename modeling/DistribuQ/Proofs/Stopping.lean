import DistribuQ.Proofs.Draining
import DistribuQ.Proofs.Shutdown
import DistribuQ.Proofs.WorkerStats

/-! A worker that has been told to stop: what it still does, whatever the others do and however its calls end. -/

namespace DistribuQ
open Transition
variable {env : Env} {s s' : State} {a : Action} {w : WorkerId} {tr : List (State × Action)}

namespace Worker
variable {ch : Choice} {st st' : Store} {pc pc' : Pc} {c : Call} {p p' : Worker} {op : Op Worker}

namespace Pc

/-- A bound on the calls that are left to a worker that will leave the loop. -/
def callsLeft (pc : Pc) : Nat := pc.rank + if pc.serving then 3 else 0

/-- In a round of polling, so that one more id may be taken. -/
def polling : Pc → Bool
  | poll _ => true
  | _ => false

end Pc

theorem callsLeft_lt_of_next (hop : p.next w = some op) (he : op.Ends env ch st st' p')
    (hrun : p.running = false) :
    p'.pc.callsLeft < p.pc.callsLeft := by
  have hgoes := goes_of_next hop he
  by_cases hloop : p.pc = .loop
  · obtain ⟨pc, running, n⟩ := p
    obtain rfl : pc = .loop := hloop
    obtain rfl : running = false := hrun
    cases hop
    cases he <;> exact Nat.lt_succ_self 2
  · have hlt := hgoes.rank_lt hloop
    have hserving : p'.pc.serving = true → p.pc.serving = true := by
      generalize p.pc = pc, p'.pc = pc', op.call = c at hgoes
      cases hgoes <;> first | exact id | exact fun _ => rfl
    unfold Pc.callsLeft
    by_cases h : p'.pc.serving = true
    · rw [if_pos h, if_pos (hserving h)]
      omega
    · rw [if_neg h]
      omega

theorem rank_le_of_goes (h : pc.Goes env w ch st st' c pc') (hle : pc.rank ≤ 17) : pc'.rank ≤ 17 := by
  by_cases hloop : pc = .loop
  · subst hloop
    cases h <;> decide
  · exact (h.rank_lt hloop).le.trans hle

theorem polling_onFailure (job : LockedJob) (e : String) : (onFailure job e).polling = false :=
  onFailure_cases (P := fun pc => pc.polling = false) e (fun _ => rfl) fun _ => rfl

theorem polling_afterSuccess (job : LockedJob) : (afterSuccess job).polling = false :=
  afterSuccess_cases (P := fun pc => pc.polling = false) (fun _ => rfl) rfl

/-- A round of polling takes one id at most. -/
theorem takes_of_goes (h : pc.Goes env w ch st st' c pc') (hpc : pc ≠ .loop) :
    (c.takes st.redis).length + indicator (pc'.polling = true) ≤ indicator (pc.polling = true) := by
  have hone (c : Call) : (c.takes st.redis).length ≤ 1 := by
    cases c <;> simp only [Call.takes] <;> first | exact Option.length_toList_le | exact Nat.zero_le 1
  cases h with
  | poll | shutdown => exact absurd rfl hpc
  | empty _ hr =>
    rw [takes_of_rpoplpush hr]
    exact le_rfl
  | reserved | pollFault | popped | timeout | popFault => exact hone _
  | raised | successFault => rw [polling_onFailure]; exact le_rfl
  | emitSuccess => rw [polling_afterSuccess]; exact le_rfl
  | _ => exact le_rfl

theorem takes_of_next (hop : p.next w = some op) (he : op.Ends env ch st st' p') (hrun : p.running = false) :
    (op.call.takes st.redis).length + indicator (p'.pc.polling = true) ≤ indicator (p.pc.polling = true) := by
  by_cases hloop : p.pc = .loop
  · obtain ⟨pc, running, n⟩ := p
    obtain rfl : pc = .loop := hloop
    obtain rfl : running = false := hrun
    cases hop
    cases he <;> exact le_rfl
  · exact takes_of_goes (goes_of_next hop he) hloop

end Worker

def Proc.callsLeft : Proc → Nat
  | worker p => p.pc.callsLeft
  | _ => 0

def Proc.polling : Proc → Bool
  | worker p => p.pc.polling
  | _ => false

namespace State

/-- Worker `w` has been told to stop, has left its loop for what a handler raised, or has crashed. -/
def Stopping (s : State) (w : WorkerId) : Prop :=
  s.procs[w]? = some .gone ∨ ∃ p, s.procs[w]? = some (.worker p) ∧ p.running = false

def callsLeft (s : State) (w : WorkerId) : Nat := (s.procs[w]?).elim 0 Proc.callsLeft

/-- Whether worker `w` may still take an id. -/
def takesLeft (s : State) (w : WorkerId) : Nat := indicator ((s.procs[w]?).any Proc.polling = true)

theorem callsLeft_of {p : Proc} (hp : s.procs[w]? = some p) : s.callsLeft w = p.callsLeft := by
  rw [callsLeft, hp, Option.elim_some]

theorem takesLeft_of {p : Proc} (hp : s.procs[w]? = some p) : s.takesLeft w = indicator (p.polling = true) := by
  rw [takesLeft, hp, Option.any_some]

end State

theorem length_takesBy_le {p : Proc} {op : Op Proc} (ch : Choice) (hp : s.procs[w]? = some p)
    (hop : p.next env w = some op) :
    (s.takesBy env w (.run w ch)).length ≤ (op.call.takes s.store.redis).length := by
  have ha : (Action.run w ch).runs? = some w := rfl
  rw [State.takesBy, if_pos ha, List.length_map, State.takes]
  cases hc : s.call? env (.run w ch) with
  | none => exact Nat.zero_le _
  | some x =>
    rw [call?_run_eq hp hop hc]
    exact le_rfl

/-- It stays so, each call of its own is one less, and an id that it takes is the last. -/
theorem stopping_step (hI : s.Stopping w) (h : step env s a = some s') :
    s'.Stopping w ∧ indicator (a.runs? = some w) + s'.callsLeft w ≤ s.callsLeft w ∧
      (s.takesBy env w a).length + s'.takesLeft w ≤ s.takesLeft w := by
  have hproc : ∃ p, s.procs[w]? = some p := by
    rcases hI with hp | ⟨p, hp, _⟩ <;> exact ⟨_, hp⟩
  obtain ⟨p, hp⟩ := hproc
  obtain ⟨p', hp'⟩ := exists_proc_of_step h hp
  rw [State.callsLeft_of hp, State.callsLeft_of hp', State.takesLeft_of hp, State.takesLeft_of hp']
  have hidle (ha : a.runs? ≠ some w) (hcalls : p'.callsLeft ≤ p.callsLeft)
      (htakes : p'.polling = true → p.polling = true) :
      indicator (a.runs? = some w) + p'.callsLeft ≤ p.callsLeft ∧
        (s.takesBy env w a).length + indicator (p'.polling = true) ≤ indicator (p.polling = true) := by
    rw [State.takesBy, if_neg ha, indicator_neg ha, Nat.zero_add, List.length_nil, Nat.zero_add]
    exact ⟨hcalls, indicator_mono htakes⟩
  cases became_of_step h hp' with
  | kept hq hne =>
    cases hp.symm.trans hq
    refine ⟨?_, hidle ?_ le_rfl id⟩
    · rcases hI with hI | ⟨q, hI, hrun⟩ <;> cases hp.symm.trans hI
      · exact .inl hp'
      · exact .inr ⟨q, hp', hrun⟩
    · intro ha
      cases a with
      | run i ch =>
        cases ha
        exact hne ch rfl
      | _ => cases ha
  | spawned r _ hw =>
    have hlt := (List.getElem?_eq_some_iff.mp hp).1
    omega
  | signalled q hq hr =>
    cases hp.symm.trans hq
    subst hr
    rcases hI with hI | ⟨q, hI, hrun⟩ <;> cases hp.symm.trans hI
    · exact ⟨.inl hp', hidle (fun h => by cases h) le_rfl id⟩
    · exact ⟨.inr ⟨_, hp', rfl⟩, hidle (fun h => by cases h) le_rfl id⟩
  | crashed hr =>
    subst hr
    exact ⟨.inl hp', hidle (fun h => by cases h) (Nat.zero_le _) (fun h => by cases h)⟩
  | @ran _ ch op hq hop he =>
    cases hp.symm.trans hq
    rcases hI with hI | ⟨q, hI, hrun⟩ <;> cases hp.symm.trans hI
    · cases hop
    have htakes := length_takesBy_le ch hp hop
    cases Proc.goes_of_next hop he with
    | @worker _ q' op' hnext hcall hends =>
      have hlt : q'.pc.callsLeft < q.pc.callsLeft := Worker.callsLeft_lt_of_next hnext hends hrun
      have hrun' : q'.running = false := by
        rcases Worker.running_of_next hnext hends with hsame | ⟨_, hrun'⟩
        · exact hsame.trans hrun
        · exact hrun'
      refine ⟨.inr ⟨q', hp', hrun'⟩, ?_, ?_⟩
      · have hone : indicator ((Action.run w ch).runs? = some w) = 1 := indicator_pos rfl
        rw [hone]
        exact Nat.one_add_le_iff.mpr hlt
      · rw [← hcall] at htakes
        exact (Nat.add_le_add_right htakes _).trans (Worker.takes_of_next hnext hends hrun)

/-- How many calls worker `w` makes in a run, its heartbeats apart. -/
def callsOf (w : WorkerId) (tr : List (State × Action)) : Nat :=
  total (fun _ a => indicator (a.runs? = some w)) tr

theorem stopping_of_run {ok : State → Action → Prop} {s₀ : State} (h₀ : s₀.Stopping w)
    (h : Run ok (step env) s₀ tr s) : s.Stopping w ∧ callsOf w tr + s.callsLeft w ≤ s₀.callsLeft w ∧
      (flow (State.takesBy env w) tr).length + s.takesLeft w ≤ s₀.takesLeft w := by
  induction h with
  | nil => exact ⟨h₀, (Nat.zero_add _).le, (Nat.zero_add _).le⟩
  | @snoc tr s s' a _ _ hs ih =>
    obtain ⟨hI, hcalls, htakes⟩ := ih
    obtain ⟨hI', hcalls', htakes'⟩ := stopping_step hI hs
    refine ⟨hI', ?_, ?_⟩
    · simp only [callsOf, total, tally_append, tally_cons, tally_nil] at hcalls ⊢
      omega
    · rw [flow_append, flow_cons, flow_nil, List.append_nil, List.length_append]
      omega

theorem rank_of_reachable {ok : State → Action → Prop} {t : Nat} (h : Reachable ok (step env) (.init t) s)
    {p : Worker} (hp : s.procs[w]? = some (.worker p)) : p.pc.rank ≤ 17 := by
  have hall : ∀ (w : WorkerId) (p : Worker), s.procs[w]? = some (.worker p) → p.pc.rank ≤ 17 := by
    refine h.invariant (I := fun s =>
      ∀ (w : WorkerId) (p : Worker), s.procs[w]? = some (.worker p) → p.pc.rank ≤ 17)
      (fun _ _ hp => by cases hp) ?_
    intro s a s' hI _ hs w p' hp'
    cases became_of_step hs hp' with
    | kept hq => exact hI w p' hq
    | spawned r hr =>
      cases r <;> cases hr
      exact Nat.zero_le _
    | signalled q hq hr =>
      cases q <;> cases hr
      exact (hI w _ hq :)
    | crashed hr => cases hr
    | ran hq hop he =>
      cases Proc.goes_of_next hop he with
      | worker hnext _ hends => exact Worker.rank_le_of_goes (Worker.goes_of_next hnext hends) (hI w _ hq)
  exact hall w p hp

theorem callsLeft_le {ok : State → Action → Prop} {t : Nat} (h : Reachable ok (step env) (.init t) s) :
    s.callsLeft w ≤ 20 := by
  unfold State.callsLeft
  cases hp : s.procs[w]? with
  | none => exact Nat.zero_le _
  | some p =>
    cases p with
    | worker p =>
      have hrank := rank_of_reachable h hp
      simp only [Option.elim_some, Proc.callsLeft, Worker.Pc.callsLeft]
      split_ifs <;> omega
    | _ => exact Nat.zero_le _

end DistribuQ
