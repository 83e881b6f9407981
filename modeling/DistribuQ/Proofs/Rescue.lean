import DistribuQ.Proofs.Salvage
import DistribuQ.Proofs.Consistency
import DistribuQ.Proofs.DeadLetters
import DistribuQ.Proofs.Reservation

/-! Which jobs are beyond rescue: nothing makes them `SUCCESS` any more, and every other job can still come to
it. -/

namespace DistribuQ
open Transition
variable {env : Env} {s s' : State} {a : Action} {pid : Nat} {j : Uuid} {r : Job}

/-- The worker may still write an outcome of the job. -/
def Proc.settles? (p : Proc) : Option LockedJob := p.ofPc Worker.Pc.settles?

/-- The job has come to a halt before its end, or its id is nowhere, and no process is about to write its row or
has a dead letter of it to replay. -/
structure State.BeyondRescue (s : State) (j : Uuid) : Prop where
  row : ∃ r ∈ s.store.db.job? j, r.status = .failed ∨ r.status = .deadLetter ∨
    r.status = .pending ∧ r.scheduledFor = none ∧ ¬ s.Reaches j
  worker : ∀ p ∈ s.procs, ∀ job ∈ p.settles?, job.id ≠ j
  letter : s.store.db.deadLetterCount j = 0
  replay : ∀ d, Proc.replay (.write d j) ∉ s.procs

namespace Worker

theorem settles?_le {pc : Pc} {job : LockedJob} (h : pc.settles? = some job) : pc.attempt? = some job := by
  cases pc with
  | computeRetry job' e =>
    simp only [Pc.settles?, Option.ite_none_right_eq_some] at h
    exact h.2
  | _ => exact h

theorem settles?_of_next {w : WorkerId} {ch : Choice} {st st' : Store} {p p' : Worker} {op : Op Worker}
    {job : LockedJob} (hop : p.next w = some op) (he : op.Ends env ch st st' p')
    (h : p'.pc.settles? = some job) : p.pc.settles? = some job ∨
      ∃ j, op.call = .fetchAndLockJob j w ∧ Call.run env ch st (.fetchAndLockJob j w) = some
          (st', some job) := by
  have hgoes := goes_of_next hop he
  rcases fromLock_attempt?.2.2 _ _ _ _ _ _ _ _ _ hgoes (settles?_le h) with ha | ⟨j, hc, _, hrun⟩
  · left
    obtain ⟨pc, running, n⟩ := p
    cases pc with
    | computeRetry job' e =>
      -- without a number to compute with, the next point is the acknowledgement
      cases hop
      cases he with
      | raised _ hl => cases hl
      | lost _ hl => cases hl
      | @returned _ x _ hrun =>
        have hx := congrArg Prod.snd (Option.some.inj hrun)
        cases hb : Retry.number? (baseDelay job'.payload) with
        | none =>
          simp only [Retry.computeNextRetryAt, hb, Option.bind_eq_bind, Option.bind_none] at hx
          subst hx
          cases h
        | some b =>
          cases ha
          simp [Pc.settles?, hb]
    | _ => exact ha
  · exact .inr ⟨j, hc, hrun⟩

theorem settles?_of_outcome {p : Proc} {c : Call} (h : p.Makes pid c) (ho : c.outcome? = some j) :
    ∃ job ∈ p.settles?, job.id = j := by
  cases h with
  | succeed hpc | retry hpc | bury hpc =>
    cases ho
    exact ⟨_, by rw [Proc.settles?, Proc.ofPc, hpc]; rfl, rfl⟩
  | other hplain => cases hplain.outcome.symm.trans ho
  | _ => cases ho

end Worker

theorem Call.job?_none_of_inserted {ch : Choice} {st st' : Store} {new : NewJob} {row : Job}
    (h : (st.db.insertJob st.clock ch.freshId new).map (fun (db, row) => ({ st with db := db }, row)) =
      some (st', row)) : st.db.job? row.id = none := by
  obtain ⟨⟨db, row⟩, hr, heq⟩ := Option.map_eq_some_iff.mp h
  cases heq
  obtain ⟨rfl, hnone, _⟩ := Database.insertJob_eq_some hr
  exact hnone

/-- An id comes to be somewhere where it was not only as that of a new job, of one that is reclaimed, promoted or
synchronised, or of one that is replayed. -/
theorem reaches_of_step (h : step env s a = some s') (hj : s'.Reaches j) : s.Reaches j ∨
    s.store.db.job? j = none ∨ (∃ r ∈ s.store.db.job? j, r.status = .running ∨ r.status = .retrying ∨
      r.status = .pending ∧ r.scheduledFor.isSome = true) ∨ ∃ d, Proc.replay (.write d j) ∈ s.procs := by
  have hhand {pid : Nat} {c : Call} {t : Token} (hc : s.call? env a = some (pid, c)) (ht : c.token? = some t)
      (htj : t.job = j) : s.Reaches j := by
    obtain ⟨p, hp, hmem⟩ := mem_hand_of_call? hc ht
    exact .inr (.inr ⟨p, List.mem_of_getElem? hp, t, hmem, htj⟩)
  rcases hj with ⟨q, hq⟩ | hz | ⟨p', hp', t, ht, rfl⟩
  · left
    rcases store_of_step h with ⟨pid, ch, c, x, hc, hx⟩ | ⟨_, _, hredis⟩
    · rcases Call.mem_lists_of_run hx hq with hq | ht | ⟨t, rfl, hdue⟩
      · exact .inl ⟨q, hq⟩
      · exact hhand hc ht rfl
      · exact .inr (.inl (SortedSet.mem_members_of_rangeTo hdue))
    · exact .inl ⟨q, hredis ▸ hq⟩
  · left
    obtain ⟨t, he⟩ := SortedSet.mem_members.mp hz
    rcases store_of_step h with ⟨pid, ch, c, x, hc, hx⟩ | ⟨_, _, hredis⟩
    · rcases Call.mem_scheduled_of_run hx he with he | ht
      · exact .inr (.inl (SortedSet.mem_members.mpr ⟨t, he⟩))
      · exact hhand hc ht rfl
    · exact .inr (.inl (hredis ▸ hz))
  obtain ⟨i, hp'⟩ := List.mem_iff_getElem?.mp hp'
  rcases hand_of_step h hp' ht with ⟨p, hp, ht⟩ | ⟨p, ch, c, hp, hissues⟩
  · exact .inl (.inr (.inr ⟨p, List.mem_of_getElem? hp, t, ht, rfl⟩))
  cases hissues with
  | @create req row hrun =>
    rw [show (req.token row.id).job = row.id by unfold JobCreateRequest.token; split <;> rfl]
    exact .inr (.inl (Call.job?_none_of_inserted hrun))
  | successor _ hrun => exact .inr (.inl (Call.job?_none_of_inserted hrun))
  | reserved hrun => exact .inl (.inl ⟨_, Call.mem_lists_of_reserved hrun⟩)
  | popped hrun => exact .inl (.inl ⟨_, Call.mem_lists_of_popped hrun⟩)
  | replayed => exact .inr (.inr (.inr ⟨_, List.mem_of_getElem? hp⟩))
  | synced hrun hx =>
    obtain ⟨r, hr, hs, hfor⟩ := Call.row_of_synced hrun hx
    exact .inr (.inr (.inl ⟨r, hr, .inr (.inr ⟨hs, by rw [hfor]; rfl⟩)⟩))
  | promoted hrun hx | retried hrun hx =>
    obtain ⟨r, hr, hdue, _⟩ := Call.row_of_promoted hrun hx
    exact .inr (.inr (.inl ⟨r, hr, .inr (.inl (Job.retrying_of_dueRetry hdue))⟩))
  | reclaimed hrun hx | reaped hrun hx =>
    obtain ⟨r, hr, hstale, _⟩ := Call.row_of_reclaimed hrun hx
    exact .inr (.inr (.inl ⟨r, hr, .inl (Database.running_of_stale hstale)⟩))

/-- A lock needs the id of the job. -/
theorem reaches_of_locked {c : Call} {w : WorkerId} (hc : s.call? env a = some (pid, c))
    (hl : c = .fetchAndLockJob j w) : s.Reaches j := by
  subst hl
  obtain ⟨p, hp, hmem⟩ := mem_hand_of_call? hc rfl
  exact .inr (.inr ⟨p, List.mem_of_getElem? hp, _, hmem, rfl⟩)

namespace State.BeyondRescue

theorem not_claimed (hI : s.BeyondRescue j) (hr : s.store.db.job? j = some r) (hclaim : r.claimable = true) :
    ¬ s.Reaches j := by
  obtain ⟨r', hr', h⟩ := hI.row
  cases hr.symm.trans hr'
  rcases h with h | h | ⟨-, -, h⟩
  · simp [Job.claimable, h] at hclaim
  · simp [Job.claimable, h] at hclaim
  · exact h

theorem no_outcome (hI : s.BeyondRescue j) {c : Call} (hc : s.call? env a = some (pid, c)) :
    c.outcome? ≠ some j := by
  intro ho
  rcases makes_of_call? hc with ⟨ch, p, _, hp, hm⟩ | ⟨_, _, _, rfl⟩
  · obtain ⟨job, hjob, hid⟩ := Worker.settles?_of_outcome hm ho
    exact hI.worker p (List.mem_of_getElem? hp) job hjob hid
  · cases ho

/-- Its row stays as it is, but for a request that cancels it. -/
theorem row_step (hI : s.BeyondRescue j) (h : step env s a = some s') (hr : s.store.db.job? j = some r) :
    s'.store.db.job? j = some r ∨ r.status = .pending ∧ ∃ r' ∈ s'.store.db.job? j, r'.status = .failed := by
  rcases step_job? h hr with hr' | ⟨pid, c, hc, hr'⟩
  · exact .inl hr'
  have hid : r.id = j := Database.id_of_job? hr
  have hstatus : r.status = .failed ∨ r.status = .deadLetter ∨ r.status = .pending := by
    obtain ⟨r', hr', h⟩ := hI.row
    cases hr.symm.trans hr'
    exact h.imp_right (Or.imp_right And.left)
  have hw : c.Writes s.store r (c.rewrite s.store r) := Call.writes_rewrite c
  generalize c.rewrite s.store r = r' at hw hr'
  cases hw with
  | kept => exact .inl hr'
  | lock w hclaim => exact absurd (reaches_of_locked hc (congrArg₂ _ hid rfl)) (hI.not_claimed hr hclaim)
  | succeed | retry | bury => exact absurd (congrArg some hid) (hI.no_outcome hc)
  | release n hstale =>
    have := Database.running_of_stale hstale
    rcases hstatus with h | h | h <;> cases this.symm.trans h
  | promote hdue =>
    have := Job.retrying_of_dueRetry hdue
    rcases hstatus with h | h | h <;> cases this.symm.trans h
  | cancel hs => exact .inr ⟨hs, _, hr', rfl⟩
  | reset d =>
    rcases makes_of_call? hc with ⟨ch, p, _, hp, hm⟩ | ⟨_, _, _, hc'⟩
    · cases hm with
      | replay => exact absurd (List.mem_of_getElem? (hid ▸ hp)) (hI.replay d)
      | other hplain => cases hplain.replayed
    · cases hc'

theorem reaches_step (hI : s.BeyondRescue j) (h : step env s a = some s') (hr : s.store.db.job? j = some r)
    (hs : r.status = .pending) (hj : s'.Reaches j) : False := by
  obtain ⟨r', hr', hrow⟩ := hI.row
  cases hr.symm.trans hr'
  rcases hrow with hrow | hrow | ⟨-, hfor, hnone⟩
  · cases hs.symm.trans hrow
  · cases hs.symm.trans hrow
  rcases reaches_of_step h hj with hj | hr'' | ⟨r'', hr'', h⟩ | ⟨d, hd⟩
  · exact hnone hj
  · cases hr.symm.trans hr''
  · cases hr.symm.trans hr''
    rcases h with h | h | ⟨-, h⟩
    · cases hs.symm.trans h
    · cases hs.symm.trans h
    · rw [hfor] at h
      cases h
  · exact hI.replay d hd

theorem worker_step (hI : s.BeyondRescue j) (h : step env s a = some s') {p' : Proc} (hp' : p' ∈ s'.procs)
    {job : LockedJob} (hjob : p'.settles? = some job) : job.id ≠ j := by
  obtain ⟨i, hp'⟩ := List.mem_iff_getElem?.mp hp'
  have hkept {p : Proc} (hp : s.procs[i]? = some p) (h : p.settles? = some job) : job.id ≠ j :=
    hI.worker p (List.mem_of_getElem? hp) job h
  cases became_of_step h hp' with
  | kept hp => exact hkept hp hjob
  | spawned r hr =>
    rw [hr, Proc.settles?, Request.ofPc_toProc rfl] at hjob
    cases hjob
  | signalled p hp hr =>
    rw [hr, Proc.settles?, Proc.ofPc_signal] at hjob
    exact hkept hp hjob
  | crashed hr =>
    rw [hr] at hjob
    cases hjob
  | ran hp hop he =>
    cases Proc.goes_of_next hop he with
    | worker hop' hcall hends =>
      rcases Worker.settles?_of_next hop' hends hjob with hsettles | ⟨k, hc, hrun⟩
      · exact hkept hp hsettles
      · rintro rfl
        obtain ⟨r, hr, hclaim, _, hid, _⟩ := Call.run_fetchAndLockJob_some hrun
        obtain rfl := hid
        refine hI.not_claimed hr hclaim (.inr (.inr ⟨_, List.mem_of_getElem? hp, .lock job.id, ?_, rfl⟩))
        exact mem_hand_of_next hop (by rw [← hcall, hc]; rfl)
    | _ => cases hjob

theorem letter_step (hI : s.BeyondRescue j) (h : step env s a = some s') :
    s'.store.db.deadLetterCount j = 0 := by
  have hnone : ∀ l ∈ s.store.db.deadLetters.rows, l.jobId ≠ j := by
    intro l hl hlj
    have hpos : 0 < s.store.db.deadLetterCount j := List.count_pos_iff.mpr (List.mem_map.mpr ⟨l, hl, hlj⟩)
    exact hpos.ne' hI.letter
  rcases store_of_step h with ⟨pid, ch, c, x, hc, hx⟩ | ⟨_, hdb, _⟩
  · refine List.count_eq_zero_of_not_mem fun hmem => ?_
    obtain ⟨l, hl, hlj⟩ := List.mem_map.mp hmem
    rw [Call.run_letters hx] at hl
    have hno := hI.no_outcome hc
    cases c with
    | moveToDeadLetter i e n =>
      rcases List.mem_append.mp hl with hl | hl
      · exact hnone l hl hlj
      · obtain rfl := List.mem_singleton.mp hl
        exact hno (congrArg some hlj)
    | replayWrite => exact hnone l (List.mem_of_mem_filter hl) hlj
    | _ => exact hnone l hl hlj
  · rw [hdb]
    exact hI.letter

theorem replay_step (hI : s.BeyondRescue j) (h : step env s a = some s') (d : Uuid) :
    Proc.replay (.write d j) ∉ s'.procs := by
  intro hp'
  obtain ⟨i, hp'⟩ := List.mem_iff_getElem?.mp hp'
  cases became_of_step h hp' with
  | kept hp => exact hI.replay d (List.mem_of_getElem? hp)
  | spawned r hr => cases r <;> cases hr
  | signalled p hp hr =>
    cases p <;> cases hr
    exact hI.replay d (List.mem_of_getElem? hp)
  | crashed hr => cases hr
  | ran hp hop he =>
    cases Proc.goes_of_next hop he with
    | replay hop' _ hends =>
      obtain ⟨_, hletter⟩ := Replay.hasLetter_of_next hop' hends
      exact (Database.deadLetterCount_pos hletter).ne' hI.letter

end State.BeyondRescue

theorem beyondRescue_step (hI : s.BeyondRescue j) (h : step env s a = some s') : s'.BeyondRescue j where
  row := by
    obtain ⟨r, hr, hrow⟩ := hI.row
    rcases hI.row_step h hr with hr' | ⟨_, r', hr', hfailed⟩
    · refine ⟨r, hr', hrow.imp_right (Or.imp_right fun ⟨hs, hfor, _⟩ => ?_)⟩
      exact ⟨hs, hfor, hI.reaches_step h hr hs⟩
    · exact ⟨r', hr', .inl hfailed⟩
  worker _ hp' _ hjob := hI.worker_step h hp' hjob
  letter := hI.letter_step h
  replay := hI.replay_step h

theorem beyondRescue_of_reachable (hI : s.BeyondRescue j) (h : Reachable Unrestricted (step env) s s') :
    s'.BeyondRescue j :=
  h.invariant hI fun _ _ _ hI _ hs => beyondRescue_step hI hs

theorem State.BeyondRescue.not_success (hI : s.BeyondRescue j) : s.store.db.status? j ≠ some .success := by
  obtain ⟨r, hr, h⟩ := hI.row
  rw [Database.status?_of_job? hr]
  rintro hs
  have hs := Option.some.inj hs
  rcases h with h | h | ⟨h, _⟩ <;> cases hs.symm.trans h

/-- Whatever else is the matter with a job, it is not lost yet. -/
theorem salvageable_of_not_beyondRescue (hc : s.store.db.RowsConsistent) (hr : s.store.db.job? j = some r)
    (h : ¬ s.BeyondRescue j) : s.Salvageable env j := by
  have hcon : r.Consistent := hc r (Database.mem_of_job? hr)
  by_contra hsalv
  refine h ⟨⟨r, hr, ?_⟩, ?_, ?_, ?_⟩
  · cases hs : r.status with
    | failed => exact .inl rfl
    | deadLetter => exact .inr (.inl rfl)
    | success => exact absurd ⟨s, .refl, (Database.status?_of_job? hr).trans (congrArg some hs)⟩ hsalv
    | running => exact absurd (salvageable_of_taken hr (.inl ⟨hs, hcon.lockedAt.mp hs⟩)) hsalv
    | retrying => exact absurd (salvageable_of_taken hr (.inr ⟨hs, (hcon.retrying hs).1⟩)) hsalv
    | pending =>
      refine .inr (.inr ⟨rfl, ?_, fun hj => hsalv (salvageable_of_reaches hj hr hs)⟩)
      by_contra hfor
      exact hsalv (salvageable_of_scheduled hr hs (.inr (Option.isSome_iff_ne_none.mpr hfor)))
  · rintro p hp job hjob rfl
    obtain ⟨pid, hp⟩ := List.mem_iff_getElem?.mp hp
    cases p with
    | worker w => exact hsalv (salvageable_of_settles hp hjob hr)
    | _ => cases hjob
  · by_contra hne
    exact hsalv (salvageable_of_letter (Nat.pos_of_ne_zero hne) hr)
  · intro d hd
    obtain ⟨pid, hp⟩ := List.mem_iff_getElem?.mp hd
    exact hsalv (salvageable_of_replaying hp hr)

/-- In every reachable state, a job can still come to be `SUCCESS`, by calls that return and without a crash or a
cancel request, if and only if it is not beyond rescue; one that is never comes to it, whatever happens. -/
theorem rescue_iff {ok : State → Action → Prop} {t : Nat} (h : Reachable ok (step env) (.init t) s)
    (hr : s.store.db.job? j = some r) : (s.Salvageable env j ↔ ¬ s.BeyondRescue j) ∧
      (s.BeyondRescue j → ∀ s', Reachable Unrestricted (step env) s s' →
          s'.store.db.status? j ≠ some .success) := by
  have hdead (hI : s.BeyondRescue j) (s' : State) (hs' : Reachable Unrestricted (step env) s s') :
      s'.store.db.status? j ≠ some .success := (beyondRescue_of_reachable hI hs').not_success
  refine ⟨⟨?_, ?_⟩, hdead⟩
  · rintro ⟨s', hs', hdone⟩ hI
    exact hdead hI s' (hs'.mono fun _ _ _ => trivial) hdone
  · exact salvageable_of_not_beyondRescue (Database.rowsConsistent_of_reachable (tables_of_reachable h)) hr

/-- Worker 1 crashes with the id that it has just taken from `queue:default`. -/
theorem rescue_iff_crashed : ∃ s r, Reachable Unrestricted (step minutely) (.init 0) s ∧
    s.store.db.job? 7 = some r ∧ s.BeyondRescue 7 ∧ (s.Salvageable minutely 7 ↔ ¬ s.BeyondRescue 7) := by
  obtain ⟨s, hs, hp⟩ : ∃ s, Reachable Unrestricted (step minutely) (.init 0) s ∧ _ :=
    exists_reachable_of_exec poppedAndCrashed (fun s => s.store.db.status? 7 = some .pending ∧
      (s.store.db.job? 7).all (fun r => r.scheduledFor.isNone) = true ∧ s.tokens 7 = 0 ∧
      s.store.db.deadLetterCount 7 = 0 ∧ s.procs.all (fun p => p.settles?.isNone && !p.replaying) =
        true) (by decide)
  obtain ⟨hstatus, hfor, htokens, hletters, hprocs⟩ := of_decide_eq_true hp
  obtain ⟨r, hr, hpending⟩ := Option.map_eq_some_iff.mp hstatus
  rw [hr, Option.all_some, Option.isNone_iff_eq_none] at hfor
  have hI : s.BeyondRescue 7 := by
    refine ⟨⟨r, hr, .inr (.inr ⟨hpending, hfor, fun hj => ?_⟩)⟩, ?_, hletters, ?_⟩
    · exact (State.tokens_pos.mpr hj).ne' htokens
    · intro p hp job hjob
      have := List.all_eq_true.mp hprocs p hp
      rw [show p.settles? = some job from hjob] at this
      cases this
    · intro d hd
      cases List.all_eq_true.mp hprocs _ hd
  exact ⟨s, r, hs, hr, hI, (rescue_iff hs hr).1⟩

end DistribuQ
