import DistribuQ.Proofs.Registry
import DistribuQ.Proofs.Outcomes

/-! What the rows of `workers` say of the workers, in any run. -/

namespace DistribuQ
open Transition
variable {env : Env} {s s' : State} {a : Action} {w : WorkerId} {v : WorkerRow} {tr : List (State × Action)}

/-- Worker `w` writes the outcome of an attempt. -/
def State.Concludes (env : Env) (s : State) (a : Action) (w : WorkerId) : Prop :=
  ∃ x ∈ s.call? env a, x.1 = w ∧ x.2.outcome?.isSome = true

instance : Decidable (s.Concludes env a w) := inferInstanceAs (Decidable (∃ x ∈ s.call? env a, _))

/-- How many outcomes worker `w` has written. -/
def conclusions (env : Env) (w : WorkerId) (tr : List (State × Action)) : Nat :=
  total (fun s a => indicator (s.Concludes env a w)) tr

namespace Worker

/-- The outcomes that the worker counts, now or at its next step. -/
def credit (p : Worker) : Nat := p.jobsProcessed + p.pc.uncounted

theorem uncounted_onFailure (job : LockedJob) (e : String) : (onFailure job e).uncounted = 0 :=
  onFailure_cases (P := fun pc => pc.uncounted = 0) e (fun _ => rfl) fun _ => rfl

/-- The worker counts an outcome when its write returns. -/
theorem credit_of_next {p : Worker} {op : Op Worker} (hop : p.next w = some op)
    (x : Except String op.call.Ret) :
    (op.resume x).credit = p.credit + indicator (x.isOk = true ∧ op.call.outcome?.isSome = true) := by
  obtain ⟨pc, running, n⟩ := p
  cases pc with
  | poll qs =>
    cases qs <;> cases hop
    · rcases x with e | _ | ⟨q, j⟩ <;> rfl
    · rcases x with e | _ | j <;> rfl
  | fetchAndLock | computeNextRun | computeRetry =>
    cases hop
    rcases x with e | _ | y <;> rfl
  | handler job =>
    cases hop
    rcases x with e | (e | _) | y
    · exact congrArg (n + ·) (uncounted_onFailure job e)
    · exact congrArg (n + ·) (uncounted_onFailure job e)
    · rfl
    · rfl
  | markSuccess job v =>
    cases hop
    rcases x with e | y
    · exact congrArg (n + ·) (uncounted_onFailure job e)
    · rfl
  | emitSuccess job =>
    cases hop
    rcases x with e | y <;> exact congrArg (n + ·) uncounted_afterSuccess
  | loop =>
    cases hop
    rcases x with e | y <;> cases running <;> rfl
  | stopped => cases hop
  | _ =>
    cases hop
    rcases x with e | y <;> rfl

theorem jobsProcessed_of_next {p : Worker} {op : Op Worker} (hop : p.next w = some op)
    (x : Except String op.call.Ret) : p.jobsProcessed ≤ (op.resume x).jobsProcessed := by
  obtain ⟨pc, running, n⟩ := p
  cases pc with
  | poll qs =>
    cases qs <;> cases hop
    · rcases x with e | _ | ⟨q, j⟩ <;> exact le_rfl
    · rcases x with e | _ | j <;> exact le_rfl
  | fetchAndLock | computeNextRun | computeRetry =>
    cases hop
    rcases x with e | _ | y <;> exact le_rfl
  | handler =>
    cases hop
    rcases x with e | (e | _) | y <;> exact le_rfl
  | markSuccess =>
    cases hop
    rcases x with e | y
    · exact le_rfl
    · exact Nat.le_succ n
  | emitRetrying | emitDeadLetter =>
    cases hop
    exact Nat.le_succ n
  | stopped => cases hop
  | _ =>
    cases hop
    rcases x with e | y <;> exact le_rfl

theorem jobsProcessed_of_ends {ch : Choice} {st st' : Store} {p p' : Worker} {op : Op Worker}
    (hop : p.next w = some op) (he : op.Ends env ch st st' p') : p.jobsProcessed ≤ p'.jobsProcessed := by
  cases he with
  | returned => exact jobsProcessed_of_next hop _
  | raised => exact jobsProcessed_of_next hop _
  | lost => exact jobsProcessed_of_next hop _

end Worker

theorem not_concludes (ha : ∀ ch, a ≠ .run w ch) : ¬ s.Concludes env a w := by
  rintro ⟨⟨pid, c⟩, hc, rfl, ho⟩
  obtain ⟨n, rfl⟩ := heartbeat_of_call? hc ha
  cases ho

theorem Call.sql_of_outcome? {c : Call} (h : c.outcome?.isSome = true) : c.sql = true := by
  cases c <;> first | rfl | cases h

/-- A worker counts what it writes, but for a write that raises after its effect. -/
theorem credit_of_run {ch : Choice} {st' : Store} {p p' : Worker} {op : Op Worker}
    (hp : s.procs[w]? = some (.worker p))
    (hop : p.next w = some op) (he : op.Ends env ch s.store st' p') :
    p.credit ≤ p'.credit ∧ p'.credit ≤ p.credit + indicator (s.Concludes env (.run w ch) w) ∧
      (NoLostSql env s (.run w ch) → p'.credit = p.credit + indicator (s.Concludes env (.run w ch) w)) := by
  have hmakes : MakesOp env (.run w ch) w ch (.worker p) (op.map Proc.worker) :=
    .inl ⟨rfl, by rw [Proc.next, hop]; rfl⟩
  have hcalls (hf : (∀ e, ch.fault ≠ .raised e) ∨ op.call.isLocal = true) :
      s.Concludes env (.run w ch) w ↔ op.call.outcome?.isSome = true := by
    have hc : s.call? env (.run w ch) = some (w, op.call) := call?_of_makes hp hmakes hf
    simp [State.Concludes, hc]
  cases he with
  | @returned _ x hf hx =>
    have hconcludes := hcalls (hf.imp (fun hf e he => by rw [hf] at he; cases he) id)
    have hcredit := Worker.credit_of_next hop (.ok x)
    have hsame : indicator ((Except.ok x : Except String op.call.Ret).isOk = true ∧
        op.call.outcome?.isSome = true) =
        indicator (s.Concludes env (.run w ch) w) :=
      indicator_congr ⟨fun h => hconcludes.mpr h.2, fun h => ⟨rfl, hconcludes.mp h⟩⟩
    rw [hsame] at hcredit
    exact ⟨by omega, hcredit.le, fun _ => hcredit⟩
  | @raised e hf hl =>
    have hnone : s.call? env (.run w ch) = none := call?_eq_none hp hmakes hf hl
    have hnot : ¬ s.Concludes env (.run w ch) w := by simp [State.Concludes, hnone]
    have hcredit := Worker.credit_of_next hop (.error e)
    rw [indicator_neg (by simp [Except.isOk, Except.toBool])] at hcredit
    rw [indicator_neg hnot]
    exact ⟨hcredit.ge, hcredit.le, fun _ => hcredit⟩
  | @lost e _ _ hf hl hx =>
    have hcredit := Worker.credit_of_next hop (.error e)
    rw [indicator_neg (by simp [Except.isOk, Except.toBool])] at hcredit
    refine ⟨hcredit.ge, by omega, fun hlost => ?_⟩
    have hnot : ¬ s.Concludes env (.run w ch) w := by
      rw [hcalls (.inl fun e' he' => by rw [hf] at he'; cases he')]
      intro ho
      have hno := hlost _ (op?_of_makes hp hmakes) (Call.sql_of_outcome? ho)
      rw [hf] at hno
      cases hno
    rw [indicator_neg hnot]
    exact hcredit

/-- What a step leaves of a worker's count. -/
theorem credit_of_step {p' : Worker} (h : step env s a = some s') (hp' : s'.procs[w]? = some (.worker p')) :
    (∃ p, s.procs[w]? = some (.worker p) ∧ p.credit ≤ p'.credit ∧
      p'.credit ≤ p.credit + indicator (s.Concludes env a w) ∧
      (NoLostSql env s a → p'.credit = p.credit + indicator (s.Concludes env a w))) ∨
    w = s.procs.length ∧ p'.credit = 0 ∧ ¬ s.Concludes env a w := by
  cases became_of_step h hp' with
  | kept hp ha =>
    rw [indicator_neg (not_concludes ha)]
    exact .inl ⟨p', hp, le_rfl, le_rfl, fun _ => rfl⟩
  | spawned r hr hw =>
    cases r <;> cases hr
    exact .inr ⟨hw, rfl, not_concludes fun _ ha => by cases ha⟩
  | signalled p hp hr =>
    cases p <;> cases hr
    rw [indicator_neg (not_concludes fun _ ha => by cases ha)]
    exact .inl ⟨_, hp, le_rfl, le_rfl, fun _ => rfl⟩
  | crashed hr => cases hr
  | ran hp hop he =>
    cases Proc.goes_of_next hop he with
    | worker hnext _ hends => exact .inl ⟨_, hp, credit_of_run hp hnext hends⟩

theorem conclusions_append (w : WorkerId) (tr : List (State × Action)) (s : State) (a : Action) :
    conclusions env w (tr ++ [(s, a)]) = conclusions env w tr + indicator (s.Concludes env a w) := by
  simp [conclusions, total]

theorem jobsProcessed_of_step {p p' : Worker} (h : step env s a = some s') (hp : s.procs[w]? = some (.worker p))
    (hp' : s'.procs[w]? = some (.worker p')) : p.jobsProcessed ≤ p'.jobsProcessed := by
  cases became_of_step h hp' with
  | kept hq =>
    cases hp.symm.trans hq
    exact le_rfl
  | spawned r _ hw =>
    have hlt := (List.getElem?_eq_some_iff.mp hp).1
    omega
  | signalled q hq hr =>
    cases hp.symm.trans hq
    obtain rfl := Proc.worker.inj hr
    exact le_rfl
  | crashed hr => cases hr
  | ran hq hop he =>
    cases hp.symm.trans hq
    cases Proc.goes_of_next hop he with
    | worker hnext _ hends => exact Worker.jobsProcessed_of_ends hnext hends

/-- The place of a worker that has crashed, or that is at a point with `P`. -/
def State.WorkerAt (s : State) (w : WorkerId) (P : Worker.Pc → Prop) : Prop :=
  s.procs[w]? = some .gone ∨ ∃ p, s.procs[w]? = some (.worker p) ∧ P p.pc

theorem workerAt_step {P : Worker.Pc → Prop} (hI : s.WorkerAt w P)
    (hP : ∀ ch st st' c pc pc', Worker.Pc.Goes env w ch st st' pc c pc' → P pc → P pc')
    (h : step env s a = some s') :
    s'.WorkerAt w P := by
  have hproc : ∃ p, s.procs[w]? = some p := by
    rcases hI with hp | ⟨p, hp, _⟩ <;> exact ⟨_, hp⟩
  obtain ⟨p, hp⟩ := hproc
  obtain ⟨p', hp'⟩ := exists_proc_of_step h hp
  cases became_of_step h hp' with
  | kept hq =>
    rcases hI with hI | ⟨p, hI, hpc⟩
    · exact .inl (hp'.trans (hq.symm.trans hI))
    · exact .inr ⟨p, hp'.trans (hq.symm.trans hI), hpc⟩
  | spawned r _ hw =>
    have hlt := (List.getElem?_eq_some_iff.mp hp).1
    omega
  | signalled q hq hr =>
    rcases hI with hI | ⟨p, hI, hpc⟩ <;> cases hq.symm.trans hI <;> subst hr
    · exact .inl hp'
    · exact .inr ⟨_, hp', hpc⟩
  | crashed hr => exact .inl (hr ▸ hp')
  | ran hq hop he =>
    rcases hI with hI | ⟨p, hI, hpc⟩ <;> cases hq.symm.trans hI
    · cases hop
    · cases Proc.goes_of_next hop he with
      | worker hnext _ hends => exact .inr ⟨_, hp', hP _ _ _ _ _ _ (Worker.goes_of_next hnext hends) hpc⟩

/-- The place of a worker, which may have crashed. -/
abbrev State.HasWorker (s : State) (w : WorkerId) : Prop := s.WorkerAt w fun _ => True

/-- What is true of the rows of `workers` and of the workers' own counts. -/
structure Stats (env : Env) (tr : List (State × Action)) (s : State) : Prop where
  credit : ∀ w p, s.procs[w]? = some (.worker p) → p.credit ≤ conclusions env w tr
  known : ∀ w v, s.store.db.workers.find? w = some v → s.HasWorker w
  processed : ∀ w v, s.store.db.workers.find? w = some v → v.jobsProcessed ≤ conclusions env w tr
  beaten : ∀ w v, s.store.db.workers.find? w = some v → v.lastHeartbeat ≤ s.store.clock
  shown : ∀ w v p, s.store.db.workers.find? w = some v → s.procs[w]? = some (.worker p) →
    v.jobsProcessed ≤ p.jobsProcessed

theorem stats_step (hI : Stats env tr s) (h : step env s a = some s') : Stats env (tr ++ [(s, a)]) s' := by
  have hclock := clock_le_of_step h
  have hcredit (w : WorkerId) (p : Worker) (hp : s.procs[w]? = some (.worker p)) :
      p.jobsProcessed ≤ conclusions env w tr := (Nat.le_add_right _ _).trans (hI.credit w p hp)
  refine ⟨fun w p' hp' => ?_, fun w v' hv' => ?_, fun w v' hv' => ?_, fun w v' hv' =>
    ?_, fun w v' p' hv' hp' => ?_⟩
  · rw [conclusions_append]
    rcases credit_of_step h hp' with ⟨p, hp, _, hle, _⟩ | ⟨_, hzero, _⟩
    · have hcredit := hI.credit w p hp
      omega
    · omega
  · refine workerAt_step ?_ (fun _ _ _ _ _ _ _ _ => trivial) h
    cases registered_of_step h hv' with
    | kept hv => exact hI.known w v' hv
    | beat p hp => exact .inr ⟨p, hp, trivial⟩
    | stopped v p _ hp => exact .inr ⟨p, hp, trivial⟩
    | expired v _ _ _ hv => exact hI.known w v hv
  · rw [conclusions_append]
    refine le_trans ?_ (Nat.le_add_right _ _)
    cases registered_of_step h hv' with
    | kept hv => exact hI.processed w v' hv
    | beat p hp _ _ _ hcount => exact hcount.trans_le (hcredit w p hp)
    | stopped v p hv _ _ hdead => exact hdead ▸ hI.processed w v hv
    | expired v _ _ _ hv _ _ hdead => exact hdead ▸ hI.processed w v hv
  · refine le_trans ?_ hclock
    cases registered_of_step h hv' with
    | kept hv => exact hI.beaten w v' hv
    | beat p _ _ _ hlast => exact hlast.le
    | stopped v p hv _ _ hdead => exact hdead ▸ hI.beaten w v hv
    | expired v _ _ _ hv _ _ hdead => exact hdead ▸ hI.beaten w v hv
  · have hshown (v : WorkerRow) (hv : s.store.db.workers.find? w = some v) :
      v.jobsProcessed ≤ p'.jobsProcessed := by
      rcases credit_of_step h hp' with ⟨p, hp, _⟩ | ⟨hw, _⟩
      · exact (hI.shown w v p hv hp).trans (jobsProcessed_of_step h hp hp')
      · -- a new process has a place that no row names
        have hnone : s.procs[w]? = none := List.getElem?_eq_none hw.ge
        rcases hI.known w v hv with hgone | ⟨p, hp, _⟩
        · cases hnone.symm.trans hgone
        · cases hnone.symm.trans hp
    cases registered_of_step h hv' with
    | kept hv => exact hshown v' hv
    | beat p hp _ _ _ hcount => exact hcount.trans_le (jobsProcessed_of_step h hp hp')
    | stopped v p hv _ _ hdead => exact hdead ▸ hshown v hv
    | expired v _ _ _ hv _ _ hdead => exact hdead ▸ hshown v hv

theorem stats_of_run {ok : State → Action → Prop} {t : Nat} (h : Run ok (step env) (.init t) tr s) :
    Stats env tr s := by
  refine h.invariant_trace (I := Stats env) ?_ fun tr s a s' _ hI _ hs => stats_step hI hs
  refine ⟨fun w p hp => ?_, fun w v hv => ?_, fun w v hv => ?_, fun w v hv => ?_, fun w v p hv => ?_⟩
  · cases hp
  all_goals cases hv

/-- `v'` is what may become of the row `v`. -/
structure WorkerRow.Precedes (v v' : WorkerRow) : Prop where
  started : v'.startedAt = v.startedAt
  beaten : v.lastHeartbeat ≤ v'.lastHeartbeat
  counted : v.jobsProcessed ≤ v'.jobsProcessed

theorem WorkerRow.Precedes.refl (v : WorkerRow) : v.Precedes v := ⟨rfl, le_rfl, le_rfl⟩

theorem WorkerRow.Precedes.trans {v v' v'' : WorkerRow} (h : v.Precedes v') (h' : v'.Precedes v'') :
    v.Precedes v'' :=
  ⟨h'.started.trans h.started, h.beaten.trans h'.beaten, h.counted.trans h'.counted⟩

/-- No step takes a row of `workers` back. -/
theorem precedes_of_step (hI : Stats env tr s) (hv : s.store.db.workers.find? w = some v)
    (h : step env s a = some s') : ∃ v', s'.store.db.workers.find? w = some v' ∧ v.Precedes v' := by
  obtain ⟨v', hv', hstart⟩ := exists_worker_of_step h hv
  refine ⟨v', hv', ?_⟩
  cases registered_of_step h hv' with
  | kept hkept =>
    cases hv.symm.trans hkept
    exact .refl v
  | beat p hp _ _ hlast hcount => exact ⟨hstart, hlast ▸ hI.beaten w v hv, hcount ▸ hI.shown w v p hv hp⟩
  | stopped u p hu _ _ hdead =>
    cases hv.symm.trans hu
    exact ⟨hstart, hdead ▸ le_rfl, hdead ▸ le_rfl⟩
  | expired u _ _ _ hu _ _ hdead =>
    cases hv.symm.trans hu
    exact ⟨hstart, hdead ▸ le_rfl, hdead ▸ le_rfl⟩

theorem precedes_of_run {ok : State → Action → Prop} {t : Nat} {tr' : List (State × Action)}
    (h : Run ok (step env) (.init t) tr s) (h' : Run ok (step env) s tr' s')
    (hv : s.store.db.workers.find? w = some v) : ∃ v', s'.store.db.workers.find? w = some v' ∧
        v.Precedes v' := by
  induction h' with
  | nil => exact ⟨v, hv, .refl v⟩
  | snoc hrun _ hs ih =>
    obtain ⟨v', hv', hle⟩ := ih
    obtain ⟨v'', hv'', hle'⟩ := precedes_of_step (stats_of_run (h.append hrun)) hv' hs
    exact ⟨v'', hv'', hle.trans hle'⟩

/-- The worker sends no heartbeat any more. -/
abbrev State.Silent (s : State) (w : WorkerId) : Prop := s.WorkerAt w fun pc => pc.beats = false

theorem silent_step (hI : s.Silent w) (h : step env s a = some s') : s'.Silent w := by
  refine workerAt_step hI (fun _ _ _ _ pc pc' hgoes hpc => ?_) h
  -- the only call it still makes is `mark_worker_dead`
  cases hgoes <;> first | rfl | cases hpc

/-- A row that says `DEAD` of a silent worker is not written any more. -/
theorem settled_step (hI : s.Silent w) (hv : s.store.db.workers.find? w = some v) (hdead : v.status = .dead)
    (h : step env s a = some s') : s'.store.db.workers.find? w = some v := by
  obtain ⟨v', hv', _⟩ := exists_worker_of_step h hv
  have hsame : ({ v with status := .dead } : WorkerRow) = v := hdead ▸ rfl
  cases registered_of_step h hv' with
  | kept hkept => rw [hv', ← hkept, hv]
  | beat p hp hbeats =>
    rcases hI with hI | ⟨q, hI, hq⟩ <;> cases hp.symm.trans hI
    cases hbeats.symm.trans hq
  | stopped u p hu _ _ hv'' =>
    cases hv.symm.trans hu
    rw [hv', hv'', hsame]
  | expired u _ _ _ hu halive =>
    cases hv.symm.trans hu
    cases hdead.symm.trans halive

theorem settled_of_silent {ok : State → Action → Prop} (h : Reachable ok (step env) s s') (hI : s.Silent w)
    (hv : s.store.db.workers.find? w = some v) (hdead : v.status = .dead) :
    s'.store.db.workers.find? w = some v := by
  have hboth : s'.Silent w ∧ s'.store.db.workers.find? w = some v :=
    h.invariant (I := fun s => s.Silent w ∧ s.store.db.workers.find? w = some v) ⟨hI, hv⟩ fun s a s' hI _ hs =>
      ⟨silent_step hI.1 hs, settled_step hI.1 hI.2 hdead hs⟩
  exact hboth.2

/-! The counters of all rows, and the exact count where no answer of the database is lost. -/

/-- A worker writes the outcome of an attempt. -/
def State.Concluding (env : Env) (s : State) (a : Action) : Prop :=
  ∃ x ∈ s.call? env a, x.2.outcome?.isSome = true

instance : Decidable (s.Concluding env a) := inferInstanceAs (Decidable (∃ x ∈ s.call? env a, _))

/-- How many outcomes have been written. -/
def allConclusions (env : Env) (tr : List (State × Action)) : Nat :=
  total (fun s a => indicator (s.Concluding env a)) tr

/-- Each outcome is written by one worker. -/
theorem tally_conclusions_le {ws : List WorkerId} (hws : ws.Nodup) (tr : List (State × Action)) :
    tally (fun w => conclusions env w tr) ws ≤ allConclusions env tr := by
  induction tr with
  | nil => exact (tally_eq_zero fun _ _ => rfl).le
  | cons x tr ih =>
    have hone : tally (fun w => indicator (x.1.Concludes env x.2 w)) ws ≤ indicator
        (x.1.Concluding env x.2) := by
      refine tally_indicator_le hws ?_ ?_
      · rintro w w' ⟨y, hy, rfl, _⟩ ⟨y', hy', rfl, _⟩
        cases hy.symm.trans hy'
        rfl
      · rintro w ⟨y, hy, _, ho⟩
        exact ⟨y, hy, ho⟩
    have hsplit : tally (fun w => conclusions env w (x :: tr)) ws =
        tally (fun w => indicator (x.1.Concludes env x.2 w)) ws + tally (fun w => conclusions env w tr) ws :=
      tally_add _
    have hall : allConclusions env (x :: tr) = indicator (x.1.Concluding env x.2) + allConclusions env tr := rfl
    omega

/-- The count of each worker is exact. -/
structure Exact (env : Env) (tr : List (State × Action)) (s : State) : Prop where
  credit : ∀ w p, s.procs[w]? = some (.worker p) → p.credit = conclusions env w tr
  unborn : ∀ w, s.procs[w]? = none → conclusions env w tr = 0

theorem exact_step (hI : Exact env tr s) (hok : NoLostSql env s a) (h : step env s a = some s') :
    Exact env (tr ++ [(s, a)]) s' := by
  refine ⟨fun w p' hp' => ?_, fun w hw => ?_⟩
  · rw [conclusions_append]
    rcases credit_of_step h hp' with ⟨p, hp, _, _, hexact⟩ | ⟨hw, hzero, hnot⟩
    · rw [hexact hok, hI.credit w p hp]
    · rw [hzero, indicator_neg hnot, hI.unborn w (List.getElem?_eq_none hw.ge)]
  · have hnone : s.procs[w]? = none := by
      by_contra hne
      obtain ⟨p, hp⟩ := Option.ne_none_iff_exists'.mp hne
      obtain ⟨p', hp'⟩ := exists_proc_of_step h hp
      cases hw.symm.trans hp'
    have hnot : ¬ s.Concludes env a w := by
      rintro ⟨⟨pid, c⟩, hc, rfl, _⟩
      obtain ⟨p, hp, _⟩ := calledBy_of_call? hc
      cases hnone.symm.trans hp
    rw [conclusions_append, hI.unborn w hnone, indicator_neg hnot]

theorem exact_of_run {t : Nat} (h : Run (NoLostSql env) (step env) (.init t) tr s) : Exact env tr s := by
  refine h.invariant_trace (I := Exact env) ⟨fun w p hp => ?_, fun _ _ => rfl⟩ fun tr s a s' _ hI hok hs =>
    exact_step hI hok hs
  cases hp

theorem status_of_markWorkerDead {db : Database} (h : (db.markWorkerDead w).workers.find? w = some v) :
    v.status = .dead := by
  unfold Database.markWorkerDead at h
  rw [Table.find?_update] at h
  obtain ⟨u, hu, rfl⟩ := Option.map_eq_some_iff.mp h
  rw [if_pos (decide_eq_true (Table.key_of_find? hu))]

/-- A worker that has written its own end is silent, and its row says `DEAD`. -/
theorem retired_of_call {pid : Nat} (hc : s.call? env a = some (pid, .markWorkerDead w))
    (h : step env s a = some s') (hv : s'.store.db.workers.find? w = some v) :
        s'.Silent w ∧ v.status = .dead := by
  obtain ⟨_, hp, rfl, p, rfl, hpc⟩ := calledBy_of_call? hc
  refine ⟨silent_step (.inr ⟨p, hp, by rw [hpc]; rfl⟩) h, ?_⟩
  rcases store_of_step h with ⟨_, _, c, x, hc', hx⟩ | ⟨hnone, _⟩
  · cases hc.symm.trans hc'
    obtain ⟨hst, _⟩ := Prod.mk.inj (Option.some.inj hx)
    rw [← hst] at hv
    exact status_of_markWorkerDead hv
  · cases hnone.symm.trans hc

/-- What the rows of `workers` say, in any run. -/
structure RegistryLaw (env : Env) : Prop where
  /-- The counter of a row is at most the number of outcomes that its worker has written. -/
  processed {ok : State → Action → Prop} {t : Nat} {tr : List (State × Action)} {s : State} {w : WorkerId}
      {v : WorkerRow} : Run ok (step env) (.init t) tr s → s.store.db.workers.find? w = some v →
    v.jobsProcessed ≤ conclusions env w tr
  /-- The counters add up to no more than all outcomes written. -/
  together {ok : State → Action → Prop} {t : Nat} {tr : List (State × Action)} {s : State} :
    Run ok (step env) (.init t) tr s → tally WorkerRow.jobsProcessed s.store.db.workers.rows ≤
      allConclusions env tr
  /-- Where no answer of the database is lost, what a worker has counted, with the failure whose event it is about
  to announce, is exactly what it has written. -/
  exactly {t : Nat} {tr : List (State × Action)} {s : State} {w : WorkerId} {p : Worker} :
    Run (NoLostSql env) (step env) (.init t) tr s → s.procs[w]? = some (.worker p) →
    p.jobsProcessed + p.pc.uncounted = conclusions env w tr
  /-- A row stays, with its start, and neither its counter nor its last heartbeat goes back. -/
  forward {ok : State → Action → Prop} {t : Nat} {s s' : State} {w : WorkerId} {v : WorkerRow} :
    Reachable ok (step env) (.init t) s → Reachable ok (step env) s s' → s.store.db.workers.find? w = some v →
    ∃ v', s'.store.db.workers.find? w = some v' ∧ v.Precedes v'
  /-- From its `mark_worker_dead` on, the row of a worker says `DEAD` and is not written any more. -/
  retired {ok : State → Action → Prop} {s s' s'' : State} {a : Action} {pid : Nat} {w : WorkerId}
    {v : WorkerRow} :
    s.call? env a = some (pid, .markWorkerDead w) → step env s a = some s' → Reachable ok (step env) s' s'' →
    s'.store.db.workers.find? w = some v → v.status = .dead ∧ s''.store.db.workers.find? w = some v
  /-- The same holds of a worker that has crashed once an expiry has taken its row. -/
  crashed {ok : State → Action → Prop} {s s' : State} {w : WorkerId} {v : WorkerRow} :
    s.procs[w]? = some .gone → Reachable ok (step env) s s' → s.store.db.workers.find? w = some v →
    v.status = .dead → s'.store.db.workers.find? w = some v

theorem registryLaw (env : Env) : RegistryLaw env where
  processed h hv := (stats_of_run h).processed _ _ hv
  together {ok t tr s} h := by
    have hle : tally WorkerRow.jobsProcessed s.store.db.workers.rows ≤
        tally (fun v => conclusions env v.id tr) s.store.db.workers.rows :=
      tally_le_tally fun v hv => (stats_of_run h).processed v.id v
        (s.store.db.workers.find?_eq_some.mpr ⟨hv, rfl⟩)
    rw [← tally_map (fun w => conclusions env w tr) WorkerRow.id] at hle
    exact hle.trans (tally_conclusions_le s.store.db.workers.nodup tr)
  exactly h hp := (exact_of_run h).credit _ _ hp
  forward h h' hv := by
    obtain ⟨tr, hrun⟩ := h
    obtain ⟨tr', hrun'⟩ := h'
    exact precedes_of_run hrun hrun' hv
  retired hc h h' hv := by
    obtain ⟨hsilent, hdead⟩ := retired_of_call hc h hv
    exact ⟨hdead, settled_of_silent h' hsilent hv hdead⟩
  crashed hgone h hv hdead := settled_of_silent h (.inl hgone) hv hdead

/-- Worker 1 has executed job 7, and its next heartbeat counts it. -/
theorem registryLaw_counted : ∃ tr s v, Run (NoLostSql minutely) (step minutely) (.init 0) tr s ∧
    s.store.db.workers.find? 1 = some v ∧ v.jobsProcessed = 1 ∧ 1 ≤ conclusions minutely 1 tr ∧
    ∃ s' v', Reachable Unrestricted (step minutely) s s' ∧ s'.store.db.workers.find? 1 = some v' ∧ v.Precedes v' ∧
      v'.status = .dead := by
  obtain ⟨tr, s, h, hs⟩ : ∃ tr s, Run (NoLostSql minutely) (step minutely) (.init 0) tr s ∧ _ :=
    exists_run_of_exec (taken report ++ calls 1 2 ++ [.heartbeat 1 {}]) (fun _ s =>
      (∃ v ∈ s.store.db.workers.find? 1, v.jobsProcessed = 1) ∧
      ∃ s' ∈ exec Unrestricted (step minutely) s ([Action.signal 1] ++ calls 1 5),
        ∃ v' ∈ s'.store.db.workers.find? 1, v'.status = .dead) (by decide)
  obtain ⟨⟨v, hv, hone⟩, s', hs', v', hv', hdead⟩ := of_decide_eq_true hs
  have hle := (registryLaw minutely).processed h hv
  obtain ⟨v₁, hv₁, hprecedes⟩ :=
    (registryLaw minutely).forward (h.mono fun _ _ _ => trivial).reachable (reachable_exec hs') hv
  cases hv'.symm.trans hv₁
  exact ⟨tr, s, v, h, hv, hone, hone.symm.trans_le hle, s', v', reachable_exec hs', hv', hprecedes, hdead⟩

end DistribuQ
