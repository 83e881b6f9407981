import DistribuQ.Proofs.Processes
import DistribuQ.Library.Linearization

/-! `cancel_job` against the atomic cancel, whatever steps lie between its two statements. -/

namespace DistribuQ
open Transition
variable {env : Env} {s s' s₀ : State} {a : Action} {pid : Nat} {ch : Choice} {st st' : Store} {j : Uuid}
  {db : Database} {now : Time} {pc pc' : Cancel.Pc} {job : CancelRecord} {tr : List (State × Action)}
  {answer : Option JobStatus}

/-- The cancel as one operation: it takes effect on a `PENDING` job alone, and answers the status that the job
has then. -/
def Database.cancelAtomically (db : Database) (now : Time) (j : Uuid) : Database × Option JobStatus :=
  if db.status? j = some .pending then (db.updateJobs now (·.id = j) (·.cancel) Job.id_cancel, some .failed)
  else (db, db.status? j)

theorem Database.cancelAtomically_ne_pending : (db.cancelAtomically now j).2 ≠ some .pending := by
  unfold cancelAtomically
  split_ifs with hs
  · simp
  · exact hs

/-- What `cancel_job` has answered, `some none` for no such job; `none` while it is at its statements. -/
def Cancel.Pc.answer? : Cancel.Pc → Option (Option JobStatus)
  | .select _ | .update .. => none
  | .lrem _ _ record | .zrem record | .emit record => some (some record.status)
  | .finished => some none

def State.cancel? (s : State) (pid : Nat) : Option Cancel.Pc :=
  match s.procs[pid]? with
  | some (.cancel pc) => some pc
  | _ => none

theorem State.cancel?_eq_some : s.cancel? pid = some pc ↔ s.procs[pid]? = some (.cancel pc) := by
  unfold cancel?
  split
  · rename_i h
    rw [h]
    simp
  · rename_i h
    exact iff_of_false (Option.some_ne_none _).symm fun h' => h _ h'

/-- The statements of request `pid` return. -/
def OwnReturn (pid : Nat) (_ : State) (a : Action) : Prop := a.runs? = some pid → NoFault a

instance (pid : Nat) (s : State) (a : Action) : Decidable (OwnReturn pid s a) :=
  inferInstanceAs (Decidable (a.runs? = some pid → NoFault a))

/-- In the run `tr` request `pid` makes a whole call of `cancel_job` on `j`: it starts before the `SELECT`, its
statements return, and with the last move `cancel_job` does. -/
structure CancelsJob (env : Env) (pid : Nat) (j : Uuid) (s₀ : State) (tr : List (State × Action)) (s : State)
    (answer : Option JobStatus) : Prop where
  run : Run (OwnReturn pid) (step env) s₀ tr s
  start : s₀.cancel? pid = some (.select j)
  during : ∀ x ∈ tr, ∃ pc ∈ x.1.cancel? pid, pc.answer? = none
  returned : ∃ pc ∈ s.cancel? pid, pc.answer? = some answer

/-- The call has an effect and an answer of the atomic cancel at one moment of its run. -/
abbrev CancelLinearizes (env : Env) (pid : Nat) (j : Uuid) (tr : List (State × Action))
    (answer : Option JobStatus) : Prop :=
  Linearizes (fun a => a.runs? = some pid) (fun s => s.store.db)
    (fun s => s.store.db.cancelAtomically s.store.clock j) (step env) tr answer

/-- The `UPDATE` of the call, if it comes to it, finds the job `PENDING`. -/
def UpdatesPending (pid : Nat) (tr : List (State × Action)) : Prop :=
  ∀ x ∈ tr, x.2.runs? = some pid → ∀ j job, x.1.cancel? pid = some (.update j job) →
    x.1.store.db.status? j = some .pending

/-! What a step makes of a cancel request, and its statements of the row. -/

theorem cancel_of_step (h : step env s a = some s') (hp : s.cancel? pid = some pc)
    (hp' : s'.cancel? pid = some pc') : a.runs? ≠ some pid ∧ pc' = pc ∨
      ∃ ch op, a = .run pid ch ∧ Cancel.next pc = some op ∧ op.Ends env ch s.store s'.store pc' := by
  rw [State.cancel?_eq_some] at hp hp'
  cases became_of_step h hp' with
  | kept hq ha =>
    cases hp.symm.trans hq
    refine .inl ⟨fun hr => ?_, rfl⟩
    cases a <;> cases hr
    exact ha _ rfl
  | spawned r hr hi =>
    subst hi
    rw [List.getElem?_eq_none le_rfl] at hp
    cases hp
  | signalled p hq hr =>
    cases hp.symm.trans hq
    cases hr
    exact .inl ⟨(Option.some_ne_none _).symm, rfl⟩
  | crashed hr => cases hr
  | ran hq hop he =>
    cases hp.symm.trans hq
    obtain ⟨op, hnext, rfl⟩ := Option.map_eq_some_iff.mp hop
    obtain ⟨_, heq, he⟩ := he.of_map
    cases heq
    exact .inr ⟨_, op, rfl, hnext, he⟩

theorem cancel_select_ends {op : Op Cancel.Pc} (hop : Cancel.next (.select j) = some op)
    (he : op.Ends env ch st st' pc') (hf : ch.fault = .none) : st' = st ∧
      (st.db.status? j = some .pending ∧ (∃ job, pc' = .update j job ∧ job.status = .pending) ∨
        pc'.answer? = some (st.db.status? j) ∧ st.db.status? j ≠ some .pending) := by
  cases hop
  obtain ⟨x, hx, rfl⟩ := he.of_no_fault hf
  cases hx
  refine ⟨rfl, ?_⟩
  unfold Database.cancelSelect Database.status?
  cases st.db.job? j with
  | none => exact .inr ⟨rfl, (Option.some_ne_none _).symm⟩
  | some r =>
    dsimp only [Option.map_some]
    split_ifs with hs
    · exact .inl ⟨congrArg some hs, _, rfl, hs⟩
    · exact .inr ⟨rfl, fun h => hs (Option.some.inj h)⟩

theorem cancel_update_ends {op : Op Cancel.Pc} (hop : Cancel.next (.update j job) = some op)
    (he : op.Ends env ch st st' pc') (hf : ch.fault = .none) :
    st.db.status? j = some .pending ∧ st.db.cancelAtomically st.clock j = (st'.db, some .failed) ∧
        pc'.answer? = some (some .failed) ∨
      st.db.status? j ≠ some .pending ∧ st' = st ∧ pc'.answer? = some (some job.status) := by
  cases hop
  obtain ⟨x, hx, rfl⟩ := he.of_no_fault hf
  have hx : ({ st with db := (st.db.cancelUpdate st.clock j).1 }, (st.db.cancelUpdate st.clock j).2) = (st', x) :=
    Option.some.inj hx
  obtain ⟨rfl, rfl⟩ := Prod.mk.inj hx
  by_cases hs : st.db.status? j = some .pending
  · obtain ⟨r, _, _, hupdated⟩ := Database.cancelUpdate_eq_some st.clock hs
    refine .inl ⟨hs, ?_, ?_⟩
    · unfold Database.cancelAtomically
      rw [if_pos hs, ← Database.cancelUpdate_fst st.clock hs]
    · rw [hupdated]
      rfl
  · refine .inr ⟨hs, ?_, ?_⟩
    · rw [Database.cancelUpdate_of_not_pending st.clock hs]
    · rw [Database.cancelUpdate_of_not_pending st.clock hs]
      rfl

/-- Where a call of `cancel_job` can be before it returns. -/
inductive CancelsJob.Phase (env : Env) (pid : Nat) (j : Uuid) (tr : List (State × Action)) (s : State) : Prop
  | reading : s.cancel? pid = some (.select j) → (∀ x ∈ tr, x.2.runs? ≠ some pid) → Phase env pid j tr s
  | writing (job : CancelRecord) : s.cancel? pid = some (.update j job) → job.status = .pending →
      (∀ x ∈ tr, x.2.runs? = some pid → x.1.cancel? pid = some (.select j) ∧
        (step env x.1 x.2).map (fun s => s.store.db) = some x.1.store.db) → Phase env pid j tr s

theorem CancelsJob.phase (h : Run (OwnReturn pid) (step env) s₀ tr s)
    (hstart : s₀.cancel? pid = some (.select j))
    (hduring : ∀ x ∈ tr, ∃ pc ∈ x.1.cancel? pid, pc.answer? = none)
    (hs : ∃ pc ∈ s.cancel? pid, pc.answer? = none) : Phase env pid j tr s := by
  induction h with
  | nil => exact .reading hstart fun x hx => absurd hx List.not_mem_nil
  | @snoc tr s s' a hrun hok hstep ih =>
    obtain ⟨pc', hp', hinside⟩ := hs
    have hlast := hduring (s, a) (List.mem_append_right _ (List.mem_singleton_self _))
    have hphase := ih (fun x hx => hduring x (List.mem_append_left _ hx)) hlast
    have mem_cases {x : State × Action} (hx : x ∈ tr ++ [(s, a)]) : x ∈ tr ∨ x = (s, a) := by
      simpa using hx
    cases hphase with
    | reading hp htr =>
      rcases cancel_of_step hstep hp hp' with ⟨hother, rfl⟩ | ⟨ch, op, rfl, hop, he⟩
      · refine .reading hp' fun x hx => ?_
        rcases mem_cases hx with hx | rfl
        · exact htr x hx
        · exact hother
      · obtain ⟨hst, ⟨_, job, rfl, hjob⟩ | ⟨hanswer, _⟩⟩ := cancel_select_ends hop he (hok rfl)
        · refine .writing job hp' hjob fun x hx hown => ?_
          rcases mem_cases hx with hx | rfl
          · exact absurd hown (htr x hx)
          · refine ⟨hp, ?_⟩
            rw [hstep, Option.map_some, hst]
        · cases hinside.symm.trans hanswer
    | writing job hp hjob htr =>
      rcases cancel_of_step hstep hp hp' with ⟨hother, rfl⟩ | ⟨ch, op, rfl, hop, he⟩
      · refine .writing job hp' hjob fun x hx hown => ?_
        rcases mem_cases hx with hx | rfl
        · exact htr x hx hown
        · exact absurd hown hother
      · -- the move after the `UPDATE` is not inside the call any more
        rcases cancel_update_ends hop he (hok rfl) with ⟨_, _, hanswer⟩ | ⟨_, _, hanswer⟩ <;>
          cases hinside.symm.trans hanswer

/-- How a call of `cancel_job` ends: with the last move it does what the atomic cancel does there, or it has
found nothing to update and answers what it has read before. -/
theorem CancelsJob.ends (h : CancelsJob env pid j s₀ tr s answer) :
    CancelLinearizes env pid j tr answer ∧ UpdatesPending pid tr ∧ answer ≠ some .pending ∨
      ¬ UpdatesPending pid tr ∧ answer = some .pending := by
  obtain ⟨hrun, hstart, hduring, hreturned⟩ := h
  cases hrun with
  | nil =>
    obtain ⟨pc, hp, hanswer⟩ := hreturned
    cases hstart.symm.trans hp
    cases hanswer
  | @snoc tr s₁ _ a hrun hok hstep =>
    obtain ⟨pc', hp', hanswer⟩ := hreturned
    have hlast := hduring (s₁, a) (List.mem_append_right _ (List.mem_singleton_self _))
    have mem_cases {x : State × Action} (hx : x ∈ tr ++ [(s₁, a)]) : x ∈ tr ∨ x = (s₁, a) := by
      simpa using hx
    cases CancelsJob.phase hrun hstart (fun x hx => hduring x (List.mem_append_left _ hx)) hlast with
    | reading hp htr =>
      rcases cancel_of_step hstep hp hp' with ⟨_, rfl⟩ | ⟨ch, op, rfl, hop, he⟩
      · cases hanswer
      · obtain ⟨hst, ⟨_, job, rfl, _⟩ | ⟨hanswer', hs⟩⟩ := cancel_select_ends hop he (hok rfl)
        · cases hanswer
        · cases hanswer.symm.trans hanswer'
          refine .inl ⟨.of_last (fun x hx hown => absurd hown (htr x hx)) rfl hstep ?_, ?_, hs⟩
          · unfold Database.cancelAtomically
            rw [if_neg hs, hst]
          · intro x hx hown i job hat
            rcases mem_cases hx with hx | rfl
            · exact absurd hown (htr x hx)
            · cases hp.symm.trans hat
    | writing job hp hjob htr =>
      rcases cancel_of_step hstep hp hp' with ⟨_, rfl⟩ | ⟨ch, op, rfl, hop, he⟩
      · cases hanswer
      · rcases cancel_update_ends hop he (hok rfl) with ⟨hs, hatomic, hanswer'⟩ | ⟨hs, _, hanswer'⟩
        · cases hanswer.symm.trans hanswer'
          refine .inl ⟨.of_last (fun x hx hown => (htr x hx hown).2) rfl hstep hatomic, ?_, by simp⟩
          intro x hx hown i job' hat
          rcases mem_cases hx with hx | rfl
          · cases (htr x hx hown).1.symm.trans hat
          · cases hp.symm.trans hat
            exact hs
        · refine .inr ⟨fun hpending => hs ?_, ?_⟩
          · exact hpending (s₁, _) (List.mem_append_right _ (List.mem_singleton_self _)) rfl j job hp
          · rw [hjob] at hanswer'
            exact Option.some.inj (hanswer.symm.trans hanswer')

theorem CancelLinearizes.ne_pending (h : CancelLinearizes env pid j tr answer) : answer ≠ some .pending := by
  obtain ⟨x, _, rfl⟩ := Linearizes.exists_answer h
  exact Database.cancelAtomically_ne_pending

/-- `cancel_job` is linearizable exactly where its `UPDATE` finds the job as its `SELECT` has, and exactly
then it does not answer `PENDING`. -/
theorem cancelLinearizes_iff (env : Env) (pid : Nat) (j : Uuid) (s₀ s : State) (tr : List (State × Action))
    (answer : Option JobStatus) (h : CancelsJob env pid j s₀ tr s answer) :
    (CancelLinearizes env pid j tr answer ↔ UpdatesPending pid tr) ∧
      (answer ≠ some .pending ↔ UpdatesPending pid tr) := by
  rcases h.ends with ⟨hlin, hpending, hanswer⟩ | ⟨hpending, hanswer⟩
  · exact ⟨iff_of_true hlin hpending, iff_of_true hanswer hpending⟩
  · exact ⟨iff_of_false (fun hlin => hlin.ne_pending hanswer) hpending,
      iff_of_false (not_not_intro hanswer) hpending⟩

/-- Job 7 is submitted, worker 1 is about to lock it and request 2 to cancel it. -/
def cancelling : List Action := (taken report).take 9 ++ [.spawn (.cancel 7)]

theorem cancelling_enabled :
    (exec (fun _ a => NoFault a) (step minutely) (.init 0) cancelling).isSome = true := by
  decide

def State.cancelling : State :=
  (exec (fun _ a => NoFault a) (step minutely) (.init 0) DistribuQ.cancelling).get cancelling_enabled

theorem cancelLinearizes_iff_cancelled : ∃ tr s, CancelsJob minutely 2 7 .cancelling tr s (some .failed) ∧
    CancelLinearizes minutely 2 7 tr (some .failed) := by
  have h : CancelsJob minutely 2 7 .cancelling _ _ (some .failed) :=
    ⟨run_get (calls 2 2) (by decide), rfl, by decide, ⟨_, rfl, rfl⟩⟩
  obtain ⟨hlin, hanswer⟩ := cancelLinearizes_iff minutely 2 7 .cancelling _ _ _ h
  exact ⟨_, _, h, hlin.mpr (hanswer.mp (by decide))⟩

/-- The worker locks the job between the two statements: the answer is `PENDING`, and nothing is cancelled. -/
theorem not_cancelLinearizes : ∃ s₀ tr s answer, Reachable (fun _ a => NoFault a) (step minutely) (.init 0) s₀ ∧
    CancelsJob minutely 2 7 s₀ tr s answer ∧ ¬ CancelLinearizes minutely 2 7 tr answer := by
  have h : CancelsJob minutely 2 7 .cancelling _ _ (some .pending) :=
    ⟨run_get [.run 2 {}, .run 1 {}, .run 2 {}] (by decide), rfl, by decide, ⟨_, rfl, rfl⟩⟩
  exact ⟨.cancelling, _, _, _, (run_get _ cancelling_enabled).reachable, h, fun hlin => hlin.ne_pending rfl⟩

end DistribuQ
