import DistribuQ.Model.System
import DistribuQ.Library.Transition

/-! What one step of the system can be, and what it can do to the store. -/

namespace DistribuQ
variable {env : Env} {s s' : State} {a : Action}

namespace Op
variable {α : Type} {op : Op α} {ch : Choice} {st st' : Store} {x : α}

inductive Ends (env : Env) (ch : Choice) (op : Op α) (st : Store) : Store → α → Prop
  | returned {st' : Store} {r : op.call.Ret} : ch.fault = .none ∨ op.call.isLocal = true →
      op.call.run env ch st = some (st', r) → Ends env ch op st st' (op.resume (.ok r))
  | raised {e : String} : ch.fault = .raised e → op.call.isLocal = false →
      Ends env ch op st st (op.resume (.error e))
  | lost {e : String} {st' : Store} {r : op.call.Ret} : ch.fault = .lost e → op.call.isLocal = false →
      op.call.run env ch st = some (st', r) → Ends env ch op st st' (op.resume (.error e))

theorem ends_of_exec (h : op.exec env ch st = some (st', x)) : Ends env ch op st st' x := by
  unfold exec at h
  have hreturned (hf : ch.fault = .none ∨ op.call.isLocal = true)
      (h : (op.call.run env ch st).map (fun x => (x.1, op.resume (.ok x.2))) = some (st', x)) :
      Ends env ch op st st' x := by
    obtain ⟨⟨st₁, r⟩, hr, heq⟩ := Option.map_eq_some_iff.mp h
    cases heq
    exact .returned hf hr
  cases hl : op.call.isLocal with
  | true =>
    rw [hl] at h
    exact hreturned (.inr hl) h
  | false =>
    cases hf : ch.fault with
    | none =>
      rw [hl, hf] at h
      exact hreturned (.inl hf) h
    | raised e =>
      rw [hl, hf] at h
      cases h
      exact .raised hf hl
    | lost e =>
      rw [hl, hf] at h
      obtain ⟨⟨st₁, r⟩, hr, heq⟩ := Option.map_eq_some_iff.mp h
      cases heq
      exact .lost hf hl hr

theorem Ends.of_no_fault (h : Ends env ch op st st' x) (hf : ch.fault = .none) :
    ∃ r, op.call.run env ch st = some (st', r) ∧ x = op.resume (.ok r) := by
  cases h with
  | returned _ hr => exact ⟨_, hr, rfl⟩
  | raised he => rw [hf] at he; cases he
  | lost he => rw [hf] at he; cases he

theorem Ends.run_of_ne_raised (h : Ends env ch op st st' x) (hf : ∀ e, ch.fault ≠ .raised e) :
    ∃ r, op.call.run env ch st = some (st', r) := by
  cases h with
  | returned _ hr => exact ⟨_, hr⟩
  | raised he => exact absurd he (hf _)
  | lost _ _ hr => exact ⟨_, hr⟩

end Op

def Action.runs? : Action → Option Nat
  | run pid _ => some pid
  | _ => none

def Action.crashes? : Action → Option Nat
  | crash pid => some pid
  | _ => none

inductive Move (env : Env) (s : State) : Action → State → Prop
  | tick (n : Nat) :
      Move env s (.tick n) { s with store := { s.store with clock := s.store.clock + n } }
  | spawn (r : Request) : Move env s (.spawn r) { s with procs := s.procs ++ [r.toProc] }
  | signal {pid : Nat} {p : Proc} : s.procs[pid]? = some p →
      Move env s (.signal pid) { s with procs := s.procs.set pid p.signal }
  | crash {pid : Nat} {p : Proc} : s.procs[pid]? = some p →
      Move env s (.crash pid) { s with procs := s.procs.set pid .gone }
  | run {pid : Nat} {ch : Choice} {p p' : Proc} {op : Op Proc} {st : Store} :
      s.procs[pid]? = some p → p.next env pid = some op → op.Ends env ch s.store st p' →
      Move env s (.run pid ch) ⟨st, s.procs.set pid p'⟩
  | heartbeat {pid : Nat} {ch : Choice} {p p' : Proc} {op : Op Proc} {st : Store} :
      s.procs[pid]? = some p → p.heartbeat pid = some op → op.Ends env ch s.store st p' →
      Move env s (.heartbeat pid ch) ⟨st, s.procs.set pid p'⟩

theorem move_of_step (h : step env s a = some s') : Move env s a s' := by
  cases a with
  | tick n =>
    cases h
    exact .tick n
  | spawn r =>
    cases h
    exact .spawn r
  | signal pid =>
    obtain ⟨p, hp, rfl⟩ := Option.map_eq_some_iff.mp h
    exact .signal hp
  | crash pid =>
    obtain ⟨p, hp, rfl⟩ := Option.map_eq_some_iff.mp h
    exact .crash hp
  | run pid ch =>
    simp only [step, State.op?, Option.bind_eq_bind, Option.bind_eq_some_iff, Option.some.injEq] at h
    obtain ⟨_, ⟨p, hp, op, hop, rfl⟩, ⟨st, p'⟩, he, rfl⟩ := h
    exact .run hp hop (Op.ends_of_exec he)
  | heartbeat pid ch =>
    simp only [step, State.op?, Option.bind_eq_bind, Option.bind_eq_some_iff, Option.some.injEq] at h
    obtain ⟨_, ⟨p, hp, op, hop, rfl⟩, ⟨st, p'⟩, he, rfl⟩ := h
    exact .heartbeat hp hop (Op.ends_of_exec he)

theorem heartbeat_eq_some {p : Proc} {pid : Nat} {op : Op Proc} (hop : p.heartbeat pid = some op) :
    ∃ n, op = ⟨.upsertWorkerHeartbeat pid n, fun _ => p⟩ := by
  cases p with
  | worker p =>
    simp only [Proc.heartbeat] at hop
    split at hop
    · cases hop
    · cases hop
    · exact ⟨_, (Option.some.inj hop).symm⟩
  | _ => cases hop

theorem heartbeat_ends {p p' : Proc} {pid : Nat} {op : Op Proc} {ch : Choice} {st st' : Store}
    (hop : p.heartbeat pid = some op) (he : op.Ends env ch st st' p') : p' = p := by
  obtain ⟨n, rfl⟩ := heartbeat_eq_some hop
  cases he <;> rfl

/-- The action makes the call `op` with the choice `ch`, as a step of `p` or a heartbeat beside it. -/
def MakesOp (env : Env) (a : Action) (pid : Nat) (ch : Choice) (p : Proc) (op : Op Proc) : Prop :=
  a = .run pid ch ∧ p.next env pid = some op ∨ a = .heartbeat pid ch ∧ p.heartbeat pid = some op

theorem op?_of_makes {pid : Nat} {ch : Choice} {p : Proc} {op : Op Proc} (hp : s.procs[pid]? = some p)
    (hop : MakesOp env a pid ch p op) : s.op? env a = some (pid, ch, op) := by
  rcases hop with ⟨rfl, hop⟩ | ⟨rfl, hop⟩ <;>
    simp only [State.op?, hp, hop, Option.bind_eq_bind, Option.bind_some]

theorem call?_of_makes {pid : Nat} {ch : Choice} {p : Proc} {op : Op Proc} (hp : s.procs[pid]? = some p)
    (hop : MakesOp env a pid ch p op) (hf : (∀ e, ch.fault ≠ .raised e) ∨ op.call.isLocal = true) :
    s.call? env a = some (pid, op.call) := by
  unfold State.call?
  rw [op?_of_makes hp hop]
  dsimp only
  split
  · rename_i e he
    rcases hf with hf | hf
    · exact absurd he (hf e)
    · rw [if_pos hf]
  · rfl

theorem call?_of_no_fault {pid : Nat} {ch : Choice} {p : Proc} {op : Op Proc}
    (hp : s.procs[pid]? = some p) (hop : MakesOp env a pid ch p op) (hf : ch.fault = .none) :
    s.call? env a = some (pid, op.call) := by
  refine call?_of_makes hp hop (.inl fun e he => ?_)
  rw [hf] at he
  cases he

theorem call?_eq_none {pid : Nat} {ch : Choice} {p : Proc} {op : Op Proc} {e : String}
    (hp : s.procs[pid]? = some p) (hop : MakesOp env a pid ch p op) (he : ch.fault = .raised e)
    (hl : op.call.isLocal = false) : s.call? env a = none := by
  unfold State.call?
  rw [op?_of_makes hp hop]
  dsimp only
  rw [he]
  dsimp only
  rw [if_neg (by simp [hl])]

theorem call?_eq_some {pid : Nat} {c : Call} (h : s.call? env a = some (pid, c)) :
    ∃ ch p op, s.procs[pid]? = some p ∧ MakesOp env a pid ch p op ∧ op.call = c := by
  have hop : ∃ ch op, s.op? env a = some (pid, ch, op) ∧ op.call = c := by
    unfold State.call? at h
    split at h
    · rename_i ho
      split at h
      · split_ifs at h
        cases h
        exact ⟨_, _, ho, rfl⟩
      · cases h
        exact ⟨_, _, ho, rfl⟩
    · cases h
  obtain ⟨ch, op, ho, rfl⟩ := hop
  cases a with
  | run | heartbeat =>
    simp only [State.op?, Option.bind_eq_bind, Option.bind_eq_some_iff, Option.some.injEq] at ho
    obtain ⟨p, hp, op', hop, heq⟩ := ho
    cases heq
    first
    | exact ⟨ch, p, op, hp, .inl ⟨rfl, hop⟩, rfl⟩
    | exact ⟨ch, p, op, hp, .inr ⟨rfl, hop⟩, rfl⟩
  | _ => cases ho

/-- The call of a `.run` step is the one at which its process is. -/
theorem call?_run_eq_some {pid k : Nat} {ch : Choice} {c : Call} (h : s.call? env (.run pid ch) = some (k, c)) :
    k = pid ∧ ∃ p op, s.procs[pid]? = some p ∧ p.next env pid = some op ∧ op.call = c := by
  obtain ⟨_, p, op, hp, ⟨hrun, hop⟩ | ⟨hrun, _⟩, hc⟩ := call?_eq_some h
  · cases hrun
    exact ⟨rfl, p, op, hp, hop, hc⟩
  · cases hrun

theorem call?_run_eq {pid : Nat} {ch : Choice} {p : Proc} {op : Op Proc} {x : Nat × Call}
    (hp : s.procs[pid]? = some p) (hop : p.next env pid = some op)
    (h : s.call? env (.run pid ch) = some x) : x = (pid, op.call) := by
  obtain ⟨hpid, _, _, hp', hop', hc⟩ := call?_run_eq_some h
  cases hp.symm.trans hp'
  cases hop.symm.trans hop'
  exact Prod.ext hpid hc.symm

/-- A call that is not made by the loop of its process is a heartbeat. -/
theorem heartbeat_of_call? {pid : Nat} {c : Call} (h : s.call? env a = some (pid, c))
    (ha : ∀ ch, a ≠ .run pid ch) : ∃ n, c = .upsertWorkerHeartbeat pid n := by
  obtain ⟨ch, p, op, _, ⟨hrun, _⟩ | ⟨_, hop⟩, rfl⟩ := call?_eq_some h
  · exact absurd hrun (ha ch)
  · obtain ⟨n, rfl⟩ := heartbeat_eq_some hop
    exact ⟨n, rfl⟩

/-- Where a process after a step comes from. -/
inductive Became (env : Env) (s s' : State) (i : Nat) (p' : Proc) : Action → Prop
  | kept {a : Action} : s.procs[i]? = some p' → (∀ ch, a ≠ .run i ch) → Became env s s' i p' a
  | spawned (r : Request) : p' = r.toProc → i = s.procs.length → Became env s s' i p' (.spawn r)
  | signalled (p : Proc) : s.procs[i]? = some p → p' = p.signal → s'.store = s.store →
      Became env s s' i p' (.signal i)
  | crashed : p' = .gone → Became env s s' i p' (.crash i)
  | ran {p : Proc} {ch : Choice} {op : Op Proc} : s.procs[i]? = some p → p.next env i = some op →
      op.Ends env ch s.store s'.store p' → Became env s s' i p' (.run i ch)

theorem became_of_step {i : Nat} {p' : Proc} (h : step env s a = some s') (hp' : s'.procs[i]? = some p') :
    Became env s s' i p' a := by
  cases move_of_step h with
  | tick => exact .kept hp' nofun
  | spawn r =>
    rcases getElem?_append_cases hp' with hp | ⟨hi, rfl⟩
    · exact .kept hp nofun
    · exact .spawned r rfl hi
  | signal hp =>
    rcases getElem?_set_cases hp' with ⟨rfl, rfl⟩ | ⟨_, hp⟩
    · exact .signalled _ hp rfl rfl
    · exact .kept hp nofun
  | crash =>
    rcases getElem?_set_cases hp' with ⟨rfl, rfl⟩ | ⟨_, hp⟩
    · exact .crashed rfl
    · exact .kept hp nofun
  | run hp hop he =>
    rcases getElem?_set_cases hp' with ⟨rfl, rfl⟩ | ⟨hne, hp⟩
    · exact .ran hp hop he
    · refine .kept hp fun ch hch => hne ?_
      cases hch
      rfl
  | heartbeat hp hop he =>
    refine .kept ?_ nofun
    rcases getElem?_set_cases hp' with ⟨rfl, rfl⟩ | ⟨_, hp⟩
    · rw [hp, heartbeat_ends hop he]
    · exact hp

/-- No process is taken off the list. -/
theorem exists_proc_of_step {i : Nat} {p : Proc} (h : step env s a = some s') (hp : s.procs[i]? = some p) :
    ∃ p', s'.procs[i]? = some p' := by
  have hle : s.procs.length ≤ s'.procs.length := by
    cases move_of_step h with
    | tick => exact le_rfl
    | spawn => simp
    | signal | crash | run | heartbeat => simp
  obtain ⟨hlt, _⟩ := List.getElem?_eq_some_iff.mp hp
  exact ⟨_, List.getElem?_eq_getElem (hlt.trans_le hle)⟩

/-- The step of a process, with where it comes from and where it goes. -/
theorem ran_of_step {i : Nat} {ch : Choice} (h : step env s (.run i ch) = some s') :
    ∃ p p' op, s.procs[i]? = some p ∧ p.next env i = some op ∧ op.Ends env ch s.store s'.store p' ∧
      s'.procs = s.procs.set i p' ∧ s'.procs[i]? = some p' := by
  cases move_of_step h with
  | @run _ _ p p' op st hp hop he =>
    obtain ⟨hlt, _⟩ := List.getElem?_eq_some_iff.mp hp
    exact ⟨p, p', op, hp, hop, he, rfl, List.getElem?_set_self hlt⟩

/-- A step changes the tables and the queues by its call alone. -/
theorem store_of_step (h : step env s a = some s') :
    (∃ pid ch c r, s.call? env a = some (pid, c) ∧ c.run env ch s.store = some (s'.store, r)) ∨
    s.call? env a = none ∧ s'.store.db = s.store.db ∧ s'.store.redis = s.store.redis := by
  have key {pid : Nat} {ch : Choice} {p p' : Proc} {op : Op Proc} {st : Store}
      (hp : s.procs[pid]? = some p) (hop : MakesOp env a pid ch p op) (he : op.Ends env ch s.store st p') :
      (∃ pid ch c r, s.call? env a = some (pid, c) ∧ c.run env ch s.store = some (st, r)) ∨
      s.call? env a = none ∧ st.db = s.store.db ∧ st.redis = s.store.redis := by
    cases he with
    | returned hf hr =>
      refine .inl ⟨pid, ch, op.call, _, call?_of_makes hp hop (hf.imp_left ?_), hr⟩
      intro hf e he
      rw [hf] at he
      cases he
    | raised hf hl => exact .inr ⟨call?_eq_none hp hop hf hl, rfl, rfl⟩
    | lost hf _ hr =>
      refine .inl ⟨pid, ch, op.call, _, call?_of_makes hp hop (.inl ?_), hr⟩
      intro e he
      rw [hf] at he
      cases he
  cases move_of_step h with
  | tick | spawn | signal | crash => exact .inr ⟨rfl, rfl, rfl⟩
  | run hp hop he => exact key hp (.inl ⟨rfl, hop⟩) he
  | heartbeat hp hop he => exact key hp (.inr ⟨rfl, hop⟩) he

theorem run_of_call? {pid : Nat} {c : Call} (h : step env s a = some s')
    (hc : s.call? env a = some (pid, c)) :
    ∃ ch r, c.run env ch s.store = some (s'.store, r) := by
  rcases store_of_step h with ⟨_, ch, _, r, hc', hr⟩ | ⟨hnone, _⟩
  · cases hc.symm.trans hc'
    exact ⟨ch, r, hr⟩
  · cases hc.symm.trans hnone

end DistribuQ
