import DistribuQ.Proofs.Rows

/-! The times in a row of `jobs`, in any run. -/

namespace DistribuQ
open Transition
variable {env : Env} {s s' : State} {a : Action} {j : Uuid} {r r' : Job} {now now' : Time}

/-- The row was created before its last update, and that is when it was locked, if it is. -/
structure Job.Dated (r : Job) (now : Time) : Prop where
  created : r.createdAt ≤ r.updatedAt
  updated : r.updatedAt ≤ now
  locked : ∀ t, r.lockedAt = some t → t = r.updatedAt

theorem Job.Dated.mono (h : r.Dated now) (hle : now ≤ now') : r.Dated now' :=
  ⟨h.created, h.updated.trans hle, h.locked⟩

theorem Call.Writes.dated {c : Call} {st : Store} (h : c.Writes st r r') (hd : r.Dated st.clock) :
    r'.Dated st.clock := by
  have hcreated : r.createdAt ≤ st.clock := hd.created.trans hd.updated
  cases h with
  | kept => exact hd
  | lock => exact ⟨hcreated, le_rfl, fun t ht => (Option.some.inj ht).symm⟩
  | _ => exact ⟨hcreated, le_rfl, nofun⟩

theorem dated_step (h : step env s a = some s')
    (hI : ∀ j r, s.store.db.job? j = some r → r.Dated s.store.clock) :
    ∀ j r, s'.store.db.job? j = some r → r.Dated s'.store.clock := by
  intro j r' hr'
  have hclock := clock_le_of_step h
  refine Job.Dated.mono ?_ hclock
  cases hr : s.store.db.job? j with
  | none =>
    obtain ⟨_, ch, c, _, hinsert, _⟩ := step_job?_none h hr hr'
    cases c with
    | createJob | scheduleNextOccurrence =>
      cases hinsert
      exact ⟨le_rfl, le_rfl, nofun⟩
    | _ => cases hinsert
  | some r =>
    have hdated := hI j r hr
    rcases step_job? h hr with hsame | ⟨pid, c, _, hrewrite⟩
    · cases hsame.symm.trans hr'
      exact hdated
    · cases hrewrite.symm.trans hr'
      exact (Call.writes_rewrite c).dated hdated

theorem dated_of_reachable {ok : State → Action → Prop} {t : Nat} (h : Reachable ok (step env) (.init t) s)
    (hr : s.store.db.job? j = some r) : r.Dated s.store.clock := by
  have hall : ∀ j r, s.store.db.job? j = some r → r.Dated s.store.clock := by
    refine h.invariant (I := fun s => ∀ j r, s.store.db.job? j = some r → r.Dated s.store.clock) ?_ ?_
    · intro j r hr
      cases hr
    · intro s a s' hI _ hs
      exact dated_step hs hI
  exact hall j r hr

end DistribuQ
