import DistribuQ.Proofs.Rescue

/-! Where nothing crashes, raises or is cancelled, no job comes to be beyond rescue, however often workers are told to
stop and whatever their handlers raise. -/

namespace DistribuQ
open Transition
variable {env : Env} {s s' : State} {a : Action} {j : Uuid} {r r' : Job}

/-- Nothing crashes, raises or is cancelled, and each replay still finds the dead letter it has read. -/
def Sparing (env : Env) (s : State) (a : Action) : Prop :=
  Gentle s a ∧ ∀ x ∈ s.call? env a, ∀ l ∈ x.2.replayed?, s.store.db.HasLetter l.1 l.2

instance : Decidable (Sparing env s a) := inferInstanceAs (Decidable ((_ ∧ _ ∧ _) ∧ _))

/-- What is kept of every job. -/
structure Spared (s : State) : Prop where
  cancels : NoCancels s
  uncancelled : ∀ j, s.store.db.status? j ≠ some .failed
  lettered : ∀ j, s.store.db.status? j = some .deadLetter → 0 < s.store.db.deadLetterCount j
  pending : PendingKept s

/-- A row that no cancel request writes does not come to be `FAILED`. -/
theorem Call.Writes.not_failed {c : Call} {st : Store} (h : c.Writes st r r') (hc : c.removes = false)
    (hr : r.status ≠ .failed) : r'.status ≠ .failed := by
  cases h with
  | kept => exact hr
  | cancel => cases hc
  | _ => exact fun hs => by cases hs

/-- A row comes to be `DEAD_LETTER` where its job is buried, and is not any more where it is replayed. -/
theorem Call.Writes.of_deadLetter {c : Call} {st : Store} (h : c.Writes st r r')
    (hs : r'.status = .deadLetter) :
    c.buried? = some r.id ∨ r.status = .deadLetter ∧ c.replayed?.map Prod.snd ≠ some r.id := by
  cases h with
  | kept hk =>
    refine .inr ⟨hs, fun hreplayed => ?_⟩
    cases c with
    | replayWrite d i =>
      cases hreplayed
      exact absurd (hk _ rfl) (by simp)
    | _ => cases hreplayed
  | bury => exact .inl rfl
  | _ => cases hs

theorem status?_of_inserted {c : Call} {ch : Choice} {st : Store} (h : c.inserted? ch st = some r) :
    r.status = .pending := by
  cases c <;> cases h <;> rfl

theorem uncancelled_step (hI : ∀ j, s.store.db.status? j ≠ some .failed)
    (hc : ∀ x ∈ s.call? env a, x.2.removes = false) (h : step env s a = some s') :
    s'.store.db.status? j ≠ some .failed := by
  intro hs
  obtain ⟨r', hr', hs⟩ := Option.map_eq_some_iff.mp hs
  cases hr : s.store.db.job? j with
  | none =>
    obtain ⟨_, _, _, _, hi, _⟩ := step_job?_none h hr hr'
    cases (status?_of_inserted hi).symm.trans hs
  | some r =>
    have hne : r.status ≠ .failed := fun hf => hI j ((Database.status?_of_job? hr).trans (congrArg some hf))
    rcases step_job? h hr with hkept | ⟨pid, c, hcall, hrow⟩
    · cases hkept.symm.trans hr'
      exact hne hs
    · cases hrow.symm.trans hr'
      exact (Call.writes_rewrite c).not_failed (hc _ hcall) hne hs

theorem lettered_step (hI : ∀ j, s.store.db.status? j = some .deadLetter → 0 < s.store.db.deadLetterCount j)
    (hl : ∀ x ∈ s.call? env a, ∀ l ∈ x.2.replayed?, s.store.db.HasLetter l.1 l.2) (h : step env s a = some s')
    (hs : s'.store.db.status? j = some .deadLetter) : 0 < s'.store.db.deadLetterCount j := by
  rcases store_of_step h with ⟨pid, ch, c, x, hc, hx⟩ | ⟨_, hdb, _⟩
  · have hcount := Call.deadLetterCount_run hx (hl _ hc) j
    obtain ⟨r', hr', hs⟩ := Option.map_eq_some_iff.mp hs
    cases hr : s.store.db.job? j with
    | none =>
      obtain ⟨_, _, _, _, hi, _⟩ := step_job?_none h hr hr'
      cases (status?_of_inserted hi).symm.trans hs
    | some r =>
      obtain rfl := Database.id_of_job? hr
      have hrow := Call.run_job? hx hr
      cases hrow.symm.trans hr'
      rcases (Call.writes_rewrite c).of_deadLetter hs with hburied | ⟨hdead, hreplayed⟩
      · have hone : c.replayed?.map Prod.snd ≠ some r.id := by
          cases c with
          | moveToDeadLetter => exact fun hreplayed => by cases hreplayed
          | _ => cases hburied
        rw [if_neg hone, if_pos hburied] at hcount
        omega
      · have hpos := hI r.id ((Database.status?_of_job? hr).trans (congrArg some hdead))
        rw [if_neg hreplayed] at hcount
        omega
  · rw [hdb] at hs ⊢
    exact hI j hs

theorem spared_step (hI : Spared s) (ha : Sparing env s a) (h : step env s a = some s') : Spared s' := by
  obtain ⟨⟨hfault, hcancel, hcrash⟩, hletters⟩ := ha
  have hremoves : ∀ x ∈ s.call? env a, x.2.removes = false := hI.cancels.removes_call?
  have hspare : CrashesSpare s a := by
    cases a with
    | crash => exact absurd hcrash id
    | _ => trivial
  exact ⟨noCancels_step hI.cancels hcancel h, fun _ => uncancelled_step hI.uncancelled hremoves h,
    fun _ => lettered_step hI.lettered hletters h, pendingKept_step hI.pending hremoves hfault hspare h⟩

theorem spared_of_reachable {t : Nat} (h : Reachable (Sparing env) (step env) (.init t) s) : Spared s := by
  have hinit : Spared (State.init t) := ⟨nofun, nofun, nofun, nofun⟩
  exact h.invariant hinit fun _ _ _ hI ha hs => spared_step hI ha hs

theorem not_beyondRescue (hI : Spared s) : ¬ s.BeyondRescue j := by
  intro hb
  obtain ⟨r, hr, h⟩ := hb.row
  have hstatus := Database.status?_of_job? hr
  rcases h with h | h | ⟨h, _, hreach⟩ <;> rw [h] at hstatus
  · exact hI.uncancelled j hstatus
  · exact (hI.lettered j hstatus).ne' hb.letter
  · exact hreach (State.tokens_pos.mp (hI.pending j hstatus))

/-- No job is lost. -/
theorem salvageable_of_sparing {t : Nat} (h : Reachable (Sparing env) (step env) (.init t) s)
    (hr : s.store.db.job? j = some r) : s.Salvageable env j :=
  salvageable_of_not_beyondRescue (Database.rowsConsistent_of_reachable (tables_of_reachable h)) hr
    (not_beyondRescue (spared_of_reachable h))

end DistribuQ
