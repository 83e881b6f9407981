import DistribuQ.Model.LoadTest
import DistribuQ.Proofs.Processes
import DistribuQ.Proofs.Timestamps

/-! A client's request for a job, while process `pid` of the API serves it among all the others. -/

namespace DistribuQ
open LoadTest (answer?)
variable {env : Env} {s s' : State} {a : Action} {req : JobCreateRequest} {pid : Nat} {j : Uuid}

/-- Job `j` has been created for the request. -/
def JobCreateRequest.Created (req : JobCreateRequest) (db : Database) (j : Uuid) : Prop :=
  ∃ r, db.job? j = some r ∧ r.origin = req.toNewJob

theorem JobCreateRequest.Created.step (h : req.Created s.store.db j) (hs : DistribuQ.step env s a = some s') :
    req.Created s'.store.db j := by
  obtain ⟨r, hr, horigin⟩ := h
  obtain ⟨r', hr', horigin'⟩ := step_origin hs hr
  exact ⟨r', hr', horigin'.trans horigin⟩

/-- Requests that have created the same job have the same payload. -/
theorem JobCreateRequest.Created.payload_eq {db : Database} {req' : JobCreateRequest} (h : req.Created db j)
    (h' : req'.Created db j) : req.payload = req'.payload := by
  obtain ⟨r, hr, horigin⟩ := h
  obtain ⟨r', hr', horigin'⟩ := h'
  cases hr.symm.trans hr'
  exact congrArg NewJob.payload (horigin.symm.trans horigin')

/-- Requests of which no two have the same payload create different jobs. -/
theorem JobCreateRequest.nodup_of_created {ι α : Type} {req : ι → JobCreateRequest} {db : Database}
    {jobId? : α → Option Uuid} {done : List ι} {results : List α}
    (hreq : ∀ i k, (req i).payload = (req k).payload → i = k)
    (h : List.Forall₂ (fun i result => ∀ j, jobId? result = some j → (req i).Created db j) done results)
    (hdone : done.Nodup) :
    (results.filterMap jobId?).Nodup ∧ ∀ j ∈ results.filterMap jobId?, ∃ i ∈ done, (req i).Created db j := by
  induction h with
  | nil => exact ⟨List.nodup_nil, nofun⟩
  | @cons i result done results hresult _ ih =>
    obtain ⟨hi, hdone⟩ := List.nodup_cons.mp hdone
    obtain ⟨hrest, hsource⟩ := ih hdone
    have hlater (j : Uuid) (hj : j ∈ results.filterMap jobId?) : ∃ k ∈ i :: done, (req k).Created db j := by
      obtain ⟨k, hk, hcreated⟩ := hsource j hj
      exact ⟨k, List.mem_cons_of_mem i hk, hcreated⟩
    cases hid : jobId? result with
    | none =>
      rw [List.filterMap_cons_none hid]
      exact ⟨hrest, hlater⟩
    | some j =>
      rw [List.filterMap_cons_some hid]
      refine ⟨List.nodup_cons.mpr ⟨fun hj => ?_, hrest⟩, fun j' hj' => ?_⟩
      · obtain ⟨k, hk, hcreated⟩ := hsource j hj
        exact hi (hreq i k ((hresult j hid).payload_eq hcreated) ▸ hk)
      · rcases List.mem_cons.mp hj' with rfl | hj'
        · exact ⟨i, List.mem_cons_self, hresult _ hid⟩
        · exact hlater j' hj'

namespace Submit

/-- The process serves the request. -/
def Serves (req : JobCreateRequest) (db : Database) : Pc → Prop
  | .validate req' | .create req' => req' = req
  | .push req' j | .emit req' j => req' = req ∧ req.Created db j
  | .finished => False

theorem Serves.step {pc : Pc} (h : Serves req s.store.db pc) (hs : DistribuQ.step env s a = some s') :
    Serves req s'.store.db pc := by
  cases pc with
  | validate | create => exact h
  | push | emit => exact ⟨h.1, h.2.step hs⟩
  | finished => exact h

theorem created_of_run {ch : Choice} {st st' : Store} {row : Job}
    (hx : (Call.createJob req.toNewJob).run env ch st = some (st', row)) : req.Created st'.db row.id := by
  obtain ⟨⟨db', row'⟩, hinsert, hpair⟩ := Option.map_eq_some_iff.mp hx
  cases hpair
  obtain ⟨rfl, _, _, _, hrows⟩ := Database.insertJob_eq_some hinsert
  exact ⟨_, (hrows _).trans (if_pos rfl), rfl⟩

theorem serves_of_next {ch : Choice} {st st' : Store} {pc pc' : Pc} {op : Op Pc}
    (hop : Submit.next pc = some op)
    (he : op.Ends env ch st st' pc') (hkept : ∀ j, req.Created st.db j → req.Created st'.db j)
    (h : Serves req st.db pc) : Serves req st'.db pc' ∨ pc' = .finished := by
  cases does_of_next hop with
  | check =>
    cases he with
    | @returned _ next? _ _ =>
      cases next? with
      | none => exact .inr rfl
      | some t => exact .inl h
    | raised _ hl | lost _ hl => cases hl
  | uncheck => cases he <;> exact .inl h
  | create =>
    subst h
    cases he with
    | returned _ hx => exact .inl ⟨rfl, created_of_run hx⟩
    | raised | lost => exact .inr rfl
  | push | schedule =>
    cases he with
    | returned => exact .inl ⟨h.1, hkept _ h.2⟩
    | raised | lost => exact .inr rfl
  | emit => cases he <;> exact .inr rfl

/-- After a step it still serves the request, or the client has the answer: with an id, that of a job created for the
request. -/
theorem served_step {pc : Pc} (hp : s.procs[pid]? = some (.submit pc)) (h : Serves req s.store.db pc)
    (hs : DistribuQ.step env s a = some s') : ∃ p', s'.procs[pid]? = some p' ∧
      ((∃ pc', p' = .submit pc' ∧ Serves req s'.store.db pc' ∧ answer? (.submit pc) p' = none) ∨
        ∃ jobId, answer? (.submit pc) p' = some jobId ∧ ∀ j, jobId = some j → req.Created s'.store.db j) := by
  obtain ⟨p', hp'⟩ := exists_proc_of_step hs hp
  refine ⟨p', hp', ?_⟩
  -- the process of the request is still at work, or it has come to its end
  have hnext : (∃ pc', p' = .submit pc' ∧ Serves req s'.store.db pc') ∨ p' = .submit .finished ∨
      p' = .gone := by
    cases became_of_step hs hp' with
    | kept hq =>
      cases hq.symm.trans hp
      exact .inl ⟨pc, rfl, h.step hs⟩
    | spawned r _ hlen =>
      have hlt := (List.getElem?_eq_some_iff.mp hp).1
      omega
    | signalled q hq hr =>
      cases hq.symm.trans hp
      exact .inl ⟨pc, hr, h.step hs⟩
    | crashed hr => exact .inr (.inr hr)
    | ran hq hop he =>
      cases hq.symm.trans hp
      cases Proc.goes_of_next hop he with
      | submit hnext _ hends =>
        rcases serves_of_next hnext hends (fun _ h => h.step hs) h with h | rfl
        · exact .inl ⟨_, rfl, h⟩
        · exact .inr (.inl rfl)
  rcases hnext with ⟨pc', rfl, hserves⟩ | rfl | rfl
  · left
    cases pc' with
    | finished => exact absurd hserves id
    | _ => cases pc <;> exact ⟨_, rfl, hserves, rfl⟩
  · right
    cases pc with
    | emit req' j =>
      refine ⟨some j, rfl, fun i hi => ?_⟩
      cases hi
      exact h.2.step hs
    | finished => exact absurd h id
    | _ => exact ⟨none, rfl, nofun⟩
  · right
    cases pc with
    | finished => exact absurd h id
    | _ => exact ⟨none, rfl, nofun⟩

end Submit
end DistribuQ
