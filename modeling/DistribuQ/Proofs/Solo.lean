import DistribuQ.Model.Solo
import DistribuQ.Proofs.Ledger
import DistribuQ.Library.Eventually

/-! Runs of one process by itself: they are runs of the system, they are never stuck, and they stop. -/

namespace DistribuQ
open Transition
variable {env : Env} {pid : Nat} {p p' : Proc} {op : Op Proc} {ch : Choice} {m : Turn} {st st' : Store}

namespace Solo

theorem ends_of_step (h : step env pid (st, p) m = some (st', p')) :
    ∃ op, p.next env pid = some op ∧ op.Ends env m.choice (st.wait m.elapsed) st' p' := by
  obtain ⟨op, hop, he⟩ := Option.bind_eq_some_iff.mp h
  exact ⟨op, hop, Op.ends_of_exec he⟩

theorem reachable_of_step {ok : State → Action → Prop} {procs : List Proc} (hp : procs[pid]? = some p)
    (hok : ∀ s, ok s (.tick m.elapsed) ∧ ok s (.run pid m.choice))
    (h : step env pid (st, p) m = some (st', p')) :
    Reachable ok (DistribuQ.step env) ⟨st, procs⟩ ⟨st', procs.set pid p'⟩ := by
  obtain ⟨op, hop, he⟩ := Option.bind_eq_some_iff.mp h
  have htick : DistribuQ.step env ⟨st, procs⟩ (.tick m.elapsed) = some ⟨st.wait m.elapsed, procs⟩ := rfl
  refine (Reachable.refl.next (hok _).1 htick).next (a := .run pid m.choice) (hok _).2 ?_
  simp only [DistribuQ.step, State.op?, Option.bind_eq_bind, hp, Option.bind_some]
  rw [show p.next env pid = some op from hop, Option.bind_some, Option.bind_some]
  rw [show op.exec env m.choice (st.wait m.elapsed) = some (st', p') from he, Option.bind_some]

/-- Every run of a process by itself is one of the system, in which the others wait. -/
theorem reachable_of_run {ok : Store × Proc → Turn → Prop} {ok' : State → Action → Prop} {x : Store × Proc}
    {tr : List ((Store × Proc) × Turn)} {procs : List Proc} (hp : procs[pid]? = some p)
    (hok : ∀ x m, ok x m → ∀ s, ok' s (.tick m.elapsed) ∧ ok' s (.run pid m.choice))
    (h : Run ok (step env pid) (st, p) tr x) :
    Reachable ok' (DistribuQ.step env) ⟨st, procs⟩ ⟨x.1, procs.set pid x.2⟩ := by
  induction h with
  | nil =>
    obtain ⟨hlt, hget⟩ := List.getElem?_eq_some_iff.mp hp
    have hset : procs.set pid p = procs := by rw [← hget, List.set_getElem_self hlt]
    rw [hset]
    exact .refl
  | @snoc tr y y' m _ hm hs ih =>
    obtain ⟨hlt, _⟩ := List.getElem?_eq_some_iff.mp hp
    have hget : (procs.set pid y.2)[pid]? = some y.2 := List.getElem?_set_self hlt
    have hnext := reachable_of_step hget (hok _ m hm) hs
    rw [List.set_set] at hnext
    exact ih.trans hnext

end Solo

/-- Every call can return. -/
theorem Call.exists_run (env : Env) (c : Call) (st : Store) :
    ∃ id, ∀ ch : Choice, ch.freshId = id → ∃ x, c.run env ch st = some x := by
  have hinsert (new : NewJob) : ∃ id, ∀ ch : Choice, ch.freshId = id →
      ∃ x, st.db.insertJob st.clock ch.freshId new = some x := by
    obtain ⟨id, hid⟩ := st.db.jobs.exists_find?_eq_none
    refine ⟨id, fun ch hch => ?_⟩
    subst hch
    exact ⟨_, dif_pos hid⟩
  cases c with
  | createJob new =>
    obtain ⟨id, h⟩ := hinsert new
    refine ⟨id, fun ch hch => ?_⟩
    obtain ⟨x, hx⟩ := h ch hch
    exact ⟨_, by rw [run, Database.createJob, hx]; rfl⟩
  | scheduleNextOccurrence new =>
    obtain ⟨id, h⟩ := hinsert new
    refine ⟨id, fun ch hch => ?_⟩
    obtain ⟨x, hx⟩ := h ch hch
    exact ⟨_, by rw [run, Database.scheduleNextOccurrence, hx]; rfl⟩
  | moveToDeadLetter j e n =>
    obtain ⟨id, hid⟩ := st.db.deadLetters.exists_find?_eq_none
    refine ⟨id, fun ch hch => ?_⟩
    subst hch
    exact ⟨_, by rw [run, Database.moveToDeadLetter, dif_pos hid]; rfl⟩
  | _ => exact ⟨0, fun ch _ => ⟨_, rfl⟩⟩

namespace Solo

/-- A process that has a next call can make it, at once and without a fault, whatever its handler does. -/
theorem exists_step (hop : p.next env pid = some op) (o : Except Raised Json) (u : Draw) (st : Store) :
    ∃ m x, m.elapsed = 0 ∧ m.choice.fault = .none ∧ m.choice.outcome = o ∧ m.choice.draw = u ∧
      step env pid (st, p) m = some x := by
  obtain ⟨id, h⟩ := op.call.exists_run env (st.wait 0)
  let ch : Choice := { freshId := id, outcome := o, draw := u }
  obtain ⟨x, hx⟩ := h ch rfl
  refine ⟨⟨0, ch⟩, (x.1, op.resume (.ok x.2)), rfl, rfl, rfl, rfl, ?_⟩
  have hexec : op.exec env ch (st.wait 0) = some (x.1, op.resume (.ok x.2)) := by
    unfold Op.exec
    rw [show (if op.call.isLocal then Fault.none else ch.fault) = .none by split <;> rfl, hx]
    rfl
  unfold step
  rw [hop]
  exact hexec

/-- To make a call is enough, whatever it returns. -/
theorem eventually_call {stop : Store × Proc → Prop} {ok : Store × Proc → Turn → Prop}
    {Q : List ((Store × Proc) × Turn) → Store × Proc → Prop} (hstop : ¬ stop (st, p))
    (hop : p.next env pid = some op) (hgo : ∃ m x, ok (st, p) m ∧ step env pid (st, p) m = some x)
    (h : ∀ m st' p', ok (st, p) m → op.Ends env m.choice (st.wait m.elapsed) st' p' →
      Eventually stop ok (step env pid) (st', p') fun tr => Q (((st, p), m) :: tr)) :
    Eventually stop ok (step env pid) (st, p) Q := by
  refine .move hstop hgo fun m x hm hs => ?_
  obtain ⟨st', p'⟩ := x
  obtain ⟨op', hop', he⟩ := ends_of_step hs
  cases hop.symm.trans hop'
  exact h m st' p' hm he

/-- The same where every call returns. -/
theorem eventually_return {stop : Store × Proc → Prop} {Q : List ((Store × Proc) × Turn) → Store × Proc → Prop}
    (hstop : ¬ stop (st, p)) (hop : p.next env pid = some op)
    (h : ∀ (m : Turn) (st' : Store) (r : op.call.Ret),
      op.call.run env m.choice (st.wait m.elapsed) = some (st', r) →
      Eventually stop (fun _ m => m.choice.fault = .none) (step env pid) (st', op.resume (.ok r)) fun tr =>
        Q (((st, p), m) :: tr)) :
    Eventually stop (fun _ m => m.choice.fault = .none) (step env pid) (st, p) Q := by
  refine eventually_call hstop hop ?_ fun m st' p' hm he => ?_
  · obtain ⟨m, x, _, hf, _, _, hs⟩ := exists_step hop (.ok .null) default st
    exact ⟨m, x, hf, hs⟩
  · obtain ⟨r, hr, rfl⟩ := he.of_no_fault hm
    exact h m st' r hr

end Solo

theorem Worker.next_proc (env : Env) {p : Worker} {op : Op Worker} (hop : p.next pid = some op) :
    (Proc.worker p).next env pid = some (op.map .worker) := by
  rw [Proc.next, hop, Option.map_some]

/-- A call that raises has no effect. -/
def NoLoss (_ : Store × Proc) (m : Turn) : Prop := m.choice.fault.isLost = false

instance (x : Store × Proc) (m : Turn) : Decidable (NoLoss x m) :=
  inferInstanceAs (Decidable (m.choice.fault.isLost = false))

theorem noLoss_of_none (h : m.choice.fault = .none) (x : Store × Proc) : NoLoss x m := by
  unfold NoLoss
  rw [h]
  rfl

theorem not_noLoss {e : String} (h : m.choice.fault = .lost e) (x : Store × Proc) : ¬ NoLoss x m := by
  unfold NoLoss
  rw [h]
  nofun

namespace Solo

/-- The call of a move, if it raises. -/
def raised? (env : Env) (pid : Nat) (x : Store × Proc) (m : Turn) : Option Call :=
  match x.2.next env pid, m.choice.fault with
  | some op, .raised _ => if op.call.isLocal then none else some op.call
  | _, _ => none

theorem raised?_eq_some {c : Call} (hop : p.next env pid = some op) :
    raised? env pid (st, p) m = some c ↔ op.call = c ∧ op.call.isLocal = false ∧
      ∃ e, m.choice.fault = .raised e := by
  unfold raised?
  rw [hop]
  cases m.choice.fault with
  | raised e => cases hl : op.call.isLocal <;> simp [hl]
  | none | lost => simp

end Solo
end DistribuQ
