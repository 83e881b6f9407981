import DistribuQ.Proofs.Lifecycle

/-! The chain of a recurring job: each job in it has one successor at most. -/

namespace DistribuQ
open Transition
variable {env : Env} {s s' : State} {a : Action} {j k : Uuid}

namespace Worker.Pc

/-- The job of which a worker has recorded the success and may yet insert the next occurrence. -/
def settled? : Pc → Option LockedJob
  | emitSuccess job | computeNextRun job _ | scheduleNext job _ _ => some job
  | _ => none

def scheduling? : Pc → Option LockedJob
  | scheduleNext job _ _ => some job
  | _ => none

end Worker.Pc

/-- Job `k` is inserted as the successor of `j`: the value `(j, k)`. -/
def State.successor? (env : Env) (s : State) : Action → Option (Uuid × Uuid)
  | .run pid ch =>
    match s.call? env (.run pid ch), (s.procs[pid]?).bind (Proc.ofPc Worker.Pc.scheduling?) with
    | some (_, .scheduleNextOccurrence _), some job => some (job.id, ch.freshId)
    | _, _ => none
  | _ => none

theorem successor?_eq_some (h : s.successor? env a = some (j, k)) :
    ∃ pid ch p job new, a = .run pid ch ∧ s.procs[pid]? = some p ∧
      p.ofPc Worker.Pc.scheduling? = some job ∧ job.id = j ∧ ch.freshId = k ∧
      s.call? env a = some (pid, .scheduleNextOccurrence new) := by
  cases a with
  | run pid ch =>
    unfold State.successor? at h
    dsimp only at h
    split at h
    · rename_i pid' new job hc hjob
      cases h
      obtain ⟨rfl, _⟩ := call?_run_eq_some hc
      obtain ⟨p, hp, hjob⟩ := Option.bind_eq_some_iff.mp hjob
      exact ⟨_, ch, p, job, new, rfl, hp, hjob, rfl, rfl, hc⟩
    · cases h
  | _ => cases h

/-- The number of successors of `j` inserted in a run. -/
def successors (env : Env) (j : Uuid) (tr : List (State × Action)) : Nat :=
  total (fun s a => indicator ((s.successor? env a).map Prod.fst = some j)) tr

def Successor (env : Env) (tr : List (State × Action)) (j k : Uuid) : Prop :=
  ∃ x ∈ tr, x.1.successor? env x.2 = some (j, k)

def Proc.settles (j : Uuid) (p : Proc) : Nat :=
  indicator ((p.ofPc Worker.Pc.settled?).map LockedJob.id = some j)

def State.settling (j : Uuid) (s : State) : Nat := tally (Proc.settles j) s.procs

def State.Succeeded (j : Uuid) (s : State) : Prop := s.store.db.status? j = some .success

instance : Decidable (s.Succeeded j) := inferInstanceAs (Decidable (_ = _))

theorem succeeded_step (hI : s.store.db.LettersAgree) (hf : Fenced env s a) (h : step env s a = some s')
    (hs : s.Succeeded j) : s'.Succeeded j := by
  obtain ⟨x, hx, rfl | ⟨_, _, _, hm⟩⟩ := status_of_step hI hf h hs
  · exact hx
  · cases hm

theorem succeeded_of_written {pid : Nat} {v : Json} (hf : Fenced env s a) (h : step env s a = some s')
    (hc : s.call? env a = some (pid, .markJobSuccess j v)) : ¬ s.Succeeded j ∧ s'.Succeeded j := by
  obtain ⟨r, hr, hs, _⟩ := (hf _ hc).1 _ rfl
  obtain ⟨ch, x, hx⟩ := run_of_call? h hc
  have hr' := Call.run_job?_of_update hx hr rfl (decide_eq_true (Database.id_of_job? hr))
  constructor
  · rw [State.Succeeded, Database.status?_of_job? hr, hs]
    simp
  · exact Database.status?_of_job? hr'

theorem Worker.settled?_of_goes {w : WorkerId} {ch : Choice} {st st' : Store} {pc pc' : Pc} {c : Call}
    (h : pc.Goes env w ch st st' c pc') :
    (∃ job v, c = .markJobSuccess job.id v ∧ ch.fault = .none ∧ pc'.settled? = some job) ∨
    pc'.settled? = none ∨ pc'.settled? = pc.settled? ∧ pc.scheduling? = none := by
  cases h with
  | succeeded hf => exact .inl ⟨_, _, rfl, hf, rfl⟩
  | raised | successFault =>
    exact .inr (.inl (onFailure_cases (P := fun pc => pc.settled? = none) _ (fun _ => rfl) fun _ => rfl))
  | @emitSuccess job =>
    have hset : (afterSuccess job).settled? = some job ∨ (afterSuccess job).settled? = none :=
      afterSuccess_cases (P := fun pc => pc.settled? = some job ∨ pc.settled? = none) (fun _ => .inl rfl)
        (.inr rfl)
    rcases hset with hset | hset
    · exact .inr (.inr ⟨hset, rfl⟩)
    · exact .inr (.inl hset)
  | recurs => exact .inr (.inr ⟨rfl, rfl⟩)
  | _ => exact .inr (.inl rfl)

theorem Worker.Pc.settled?_of_scheduling? {pc : Pc} {job : LockedJob} (h : pc.scheduling? = some job) :
    pc.settled? = some job := by
  cases pc <;> first | exact h | cases h

/-- A successor is inserted by a worker at that point. -/
theorem scheduling_of_successor? {pid : Nat} {ch : Choice} {p : Proc} {op : Op Proc}
    (hp : s.procs[pid]? = some p) (hop : p.next env pid = some op)
    (hj : (s.successor? env (.run pid ch)).map Prod.fst = some j) :
    ∃ job new, p.ofPc Worker.Pc.scheduling? = some job ∧ job.id = j ∧
      op.call = .scheduleNextOccurrence new := by
  obtain ⟨⟨_, k⟩, hx, rfl⟩ := Option.map_eq_some_iff.mp hj
  obtain ⟨_, _, q, job, new, hrun, hq, hjob, hid, _, hc⟩ := successor?_eq_some hx
  cases hrun
  cases hp.symm.trans hq
  exact ⟨job, new, hjob, hid, congrArg Prod.snd (call?_run_eq hp hop hc).symm⟩

/-- What the call of one worker changes in the sum below. -/
theorem settles_of_goes {pid : Nat} {ch : Choice} {w w' : Worker} {op : Op Proc}
    (hI : s.store.db.LettersAgree) (hf : Fenced env s (.run pid ch)) (h : step env s (.run pid ch) = some s')
    (hp : s.procs[pid]? = some (.worker w)) (hop : (Proc.worker w).next env pid = some op)
    (hg : w.pc.Goes env pid ch s.store s'.store op.call w'.pc) :
    indicator ((s.successor? env (.run pid ch)).map Prod.fst = some j) + Proc.settles j (.worker w') +
      indicator (s.Succeeded j) ≤ Proc.settles j (.worker w) + indicator (s'.Succeeded j) := by
  have hmono : indicator (s.Succeeded j) ≤ indicator (s'.Succeeded j) :=
    indicator_mono (succeeded_step hI hf h)
  rcases Worker.settled?_of_goes hg with ⟨job, v, hc, hfault, hset⟩ | hset | ⟨hset, hsched⟩
  · -- a success: the row was `RUNNING` before, so `j` succeeds here for the first time
    have hnone : (s.successor? env (.run pid ch)).map Prod.fst ≠ some j := by
      intro hj
      obtain ⟨_, _, _, _, hc'⟩ := scheduling_of_successor? hp hop hj
      cases hc.symm.trans hc'
    have hcall : s.call? env (.run pid ch) = some (pid, .markJobSuccess job.id v) := by
      rw [call?_of_no_fault hp (.inl ⟨rfl, hop⟩) hfault, hc]
    have hw : Proc.settles j (.worker w') = indicator (job.id = j) := by
      apply indicator_congr
      rw [Proc.ofPc, hset, Option.map_some, Option.some.injEq]
    rw [indicator_neg hnone]
    by_cases hid : job.id = j
    · subst hid
      obtain ⟨hbefore, hafter⟩ := succeeded_of_written hf h hcall
      rw [indicator_neg hbefore, indicator_pos hafter]
      rw [indicator_pos rfl] at hw
      omega
    · rw [indicator_neg hid] at hw
      omega
  · -- the worker leaves the success branch, in an insert at the latest
    have hw : Proc.settles j (.worker w') = 0 := indicator_neg (by simp [Proc.ofPc, hset])
    have hle : indicator ((s.successor? env (.run pid ch)).map Prod.fst = some j) ≤
        Proc.settles j (.worker w) := by
      refine indicator_mono fun hj => ?_
      obtain ⟨job, _, hjob, hid, _⟩ := scheduling_of_successor? hp hop hj
      rw [Proc.ofPc, Worker.Pc.settled?_of_scheduling? hjob, Option.map_some, hid]
    omega
  · have hnone : (s.successor? env (.run pid ch)).map Prod.fst ≠ some j := by
      intro hj
      obtain ⟨_, _, hjob, _⟩ := scheduling_of_successor? hp hop hj
      cases hsched.symm.trans hjob
    have hw : Proc.settles j (.worker w') = Proc.settles j (.worker w) :=
      indicator_congr (by simp only [Proc.ofPc, hset])
    rw [indicator_neg hnone]
    omega

theorem settling_of_step (hI : s.store.db.LettersAgree) (hf : Fenced env s a) (h : step env s a = some s') :
    indicator ((s.successor? env a).map Prod.fst = some j) + s'.settling j + indicator (s.Succeeded j) ≤
      s.settling j + indicator (s'.Succeeded j) := by
  have hmono : indicator (s.Succeeded j) ≤ indicator (s'.Succeeded j) :=
    indicator_mono (succeeded_step hI hf h)
  cases shifts_of_step (f := Proc.settles j) rfl (fun p => by simp [Proc.settles])
      (fun r => by simp [Proc.settles, Request.ofPc_toProc (f := Worker.Pc.settled?) rfl]) h with
  | quiet hq htally =>
    have hnone : (s.successor? env a).map Prod.fst ≠ some j := by
      intro hj
      obtain ⟨x, hx, _⟩ := Option.map_eq_some_iff.mp hj
      obtain ⟨_, _, _, _, _, rfl, _⟩ := successor?_eq_some hx
      cases hq.runs
    rw [indicator_neg hnone, State.settling, htally, State.settling]
    omega
  | @crashed pid p hp _ htally =>
    have hnone : (s.successor? env (.crash pid)).map Prod.fst ≠ some j := by simp [State.successor?]
    rw [indicator_neg hnone]
    simp only [State.settling]
    omega
  | @ran pid ch p p' op hp hop he htally =>
    simp only [State.settling]
    cases Proc.goes_of_next hop he with
    | @worker w w' _ hnext heq hends =>
      have hg := Worker.goes_of_next hnext hends
      rw [heq] at hg
      have hle := settles_of_goes (j := j) hI hf h hp hop hg
      omega
    | _ =>
      have hnone : (s.successor? env (.run pid ch)).map Prod.fst ≠ some j := by
        intro hj
        obtain ⟨_, _, hjob, _⟩ := scheduling_of_successor? hp hop hj
        cases hjob
      rw [indicator_neg hnone]
      simp only [Proc.settles, Proc.ofPc, Option.map_none, reduceCtorEq, not_false_eq_true,
        indicator_neg] at htally
      omega

/-- The successors of `j` and the workers that may yet insert one are at most as many as its
successes. -/
theorem successors_le {t : Nat} {tr : List (State × Action)} (h : Run (Fenced env) (step env) (.init t) tr s)
    (j : Uuid) : successors env j tr + s.settling j ≤ indicator (s.Succeeded j) := by
  refine h.invariant_trace (I := fun tr s => successors env j tr + s.settling j ≤ indicator (s.Succeeded j))
    (Nat.zero_le _) ?_
  intro tr s a s' hrun hI hok hstep
  have hL := lettersAgree_of_reachable hrun.reachable
  have hadd := settling_of_step (j := j) hL hok hstep
  simp only [successors, total, tally_append, tally_cons, tally_nil] at hI ⊢
  omega

theorem successor_of_mem {tr : List (State × Action)} (h : Successor env tr j k) :
    0 < successors env j tr := by
  obtain ⟨x, hx, hjk⟩ := h
  refine tally_pos.mpr ⟨x, hx, ?_⟩
  show 0 < indicator _
  rw [indicator_pos (by rw [hjk, Option.map_some])]
  exact one_pos

/-- A job that can still run. -/
def State.Active (s : State) (j : Uuid) : Prop :=
  ∃ r ∈ s.store.db.job? j, r.status ≠ .success ∧ r.status ≠ .failed ∧ r.status ≠ .deadLetter

/-- The chain of a recurring job does not fork. -/
structure ChainLaw (env : Env) (ok : State → Action → Prop) : Prop where
  unforked {t : Nat} {s : State} {tr : List (State × Action)} (j : Uuid) :
    Run ok (step env) (.init t) tr s → successors env j tr ≤ 1
  /-- At most one job of a chain is active. -/
  single {t : Nat} {s : State} {tr : List (State × Action)} {j x y : Uuid} :
    Run ok (step env) (.init t) tr s → Relation.ReflTransGen (Successor env tr) j x →
    Relation.ReflTransGen (Successor env tr) j y → s.Active x → s.Active y → x = y

theorem not_active_of_successor {t : Nat} {tr : List (State × Action)}
    (h : Run (Fenced env) (step env) (.init t) tr s) (hk : Successor env tr j k) : ¬ s.Active j := by
  have hle := successors_le h j
  have hpos := successor_of_mem hk
  have hs : s.Succeeded j := by
    by_contra hs
    rw [indicator_neg hs] at hle
    omega
  rintro ⟨r, hr, hne, _⟩
  rw [State.Succeeded, Database.status?_of_job? hr, Option.some.injEq] at hs
  exact hne hs

theorem chainLaw_of_fenced (env : Env) : ChainLaw env (Fenced env) where
  unforked j h := (Nat.le_add_right _ _).trans ((successors_le h j).trans indicator_le_one)
  single {t s tr j x y} h hx hy hax hay := by
    have hunique : Relator.RightUnique (Successor env tr) := by
      rintro i k k' ⟨u, hu, hk⟩ ⟨v, hv, hk'⟩
      have hle : successors env i tr ≤ 1 :=
        (Nat.le_add_right _ _).trans ((successors_le h i).trans indicator_le_one)
      have hpos {x : State × Action} {k : Uuid} (hx : x.1.successor? env x.2 = some (i, k)) :
          0 < indicator ((x.1.successor? env x.2).map Prod.fst = some i) := by
        rw [indicator_pos (by rw [hx, Option.map_some])]
        exact one_pos
      obtain rfl := eq_of_tally_le_one hle hu hv (hpos hk) (hpos hk')
      cases hk.symm.trans hk'
      rfl
    rcases Relation.ReflTransGen.total_of_right_unique hunique hx hy with hxy | hyx
    · rcases hxy.cases_head with heq | ⟨k, hk, _⟩
      · exact heq
      · exact absurd hax (not_active_of_successor h hk)
    · rcases hyx.cases_head with heq | ⟨k, hk, _⟩
      · exact heq.symm
      · exact absurd hay (not_active_of_successor h hk)

/-- A recurring job is reclaimed in its first attempt and succeeds in its second. -/
def recurred : List Action :=
  overrun { report with recurrenceRule := some "* * * * *" } ++ calls 3 4 ++ [.run 3 { freshId := 8 }]

theorem chainLaw_recurred : ∃ tr s, Run (Fenced minutely) (step minutely) (.init 0) tr s ∧
    successors minutely 7 tr = 1 := by
  obtain ⟨tr, s, h, hs⟩ : ∃ tr s, Run (Fenced minutely) (step minutely) (.init 0) tr s ∧ _ :=
    exists_run_of_exec recurred (fun tr _ => 0 < successors minutely 7 tr) (by decide)
  exact ⟨tr, s, h, le_antisymm ((chainLaw_of_fenced minutely).unforked 7 h) (of_decide_eq_true hs)⟩

/-- The worker of the first attempt succeeds too and inserts another successor. -/
theorem not_chainLaw : ¬ ChainLaw minutely fun _ a => NoCancel a := by
  intro law
  obtain ⟨tr, s, h, hs⟩ : ∃ tr s, Run (fun _ a => NoCancel a) (step minutely) (.init 0) tr s ∧ _ :=
    exists_run_of_exec (recurred ++ calls 1 4 ++ [.run 1 { freshId := 9 }])
      (fun tr _ => successors minutely 7 tr = 2) (by decide)
  have hle := law.unforked 7 h
  have htwo := of_decide_eq_true hs
  omega

end DistribuQ
