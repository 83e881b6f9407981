import DistribuQ.Proofs.Loss
import DistribuQ.Proofs.Announcements

/-! What a cancel request takes out of the queues when it does not cancel. -/

namespace DistribuQ
open Transition
variable {env : Env} {s s' : State} {a : Action} {pid : Nat} {ch : Choice} {st st' : Store} {j : Uuid}
  {pc pc' : Cancel.Pc}

/-- The job whose id a cancel request has still to remove. -/
def Cancel.Pc.removing? : Cancel.Pc → Option Uuid
  | .lrem _ _ record | .zrem record => some record.id
  | _ => none

def Proc.removing? : Proc → Option Uuid
  | cancel pc => pc.removing?
  | _ => none

/-- No step makes a job `PENDING` again while a cancel request has its id still to remove. -/
def NoReturnUnderRemoval (env : Env) (s : State) (a : Action) : Prop :=
  ∀ p ∈ s.procs, ∀ j ∈ p.removing?, ¬ s.Turns env a j .pending

instance : Decidable (NoReturnUnderRemoval env s a) :=
  inferInstanceAs (Decidable (∀ p ∈ s.procs, _))

/-- What a cancel request knows of its job at its next call. -/
def Cancel.Pc.Sound (db : Database) : Cancel.Pc → Prop
  | .update j record => record.id = j ∧ ∃ x, db.status? j = some x
  | .lrem _ _ record | .zrem record => ∃ x, db.status? record.id = some x ∧ x ≠ .pending
  | _ => True

/-- Every cancel request that comes to its removals has found the job, or left it, in another status than
`PENDING`. -/
def RemovesSettled (s : State) : Prop :=
  ∀ (i : Nat) (pc : Cancel.Pc), s.procs[i]? = some (.cancel pc) → pc.Sound s.store.db

theorem status?_of_step {x : JobStatus} (h : step env s a = some s') (hx : s.store.db.status? j = some x) :
    ∃ x', s'.store.db.status? j = some x' := by
  obtain ⟨r, hr, _⟩ := Option.map_eq_some_iff.mp hx
  obtain ⟨r', hr', _⟩ := step_origin h hr
  exact ⟨_, Database.status?_of_job? hr'⟩

/-- What a request knows stays true in the steps of the others. -/
theorem Cancel.Pc.Sound.step {i : Nat} (hs : pc.Sound s.store.db) (hp : s.procs[i]? = some (.cancel pc))
    (ha : NoReturnUnderRemoval env s a) (h : step env s a = some s') : pc.Sound s'.store.db := by
  have hremoving (record : CancelRecord) (hr : pc.removing? = some record.id)
      (hs : ∃ x, s.store.db.status? record.id = some x ∧ x ≠ .pending) :
      ∃ x, s'.store.db.status? record.id = some x ∧ x ≠ .pending := by
    obtain ⟨x, hx, hne⟩ := hs
    obtain ⟨x', hx'⟩ := status?_of_step h hx
    refine ⟨x', hx', ?_⟩
    rintro rfl
    exact ha _ (List.mem_of_getElem? hp) _ hr ⟨⟨x, hx, hne⟩, s', h, hx'⟩
  cases pc with
  | select | emit | finished => trivial
  | update i record =>
    obtain ⟨hid, x, hx⟩ := hs
    exact ⟨hid, status?_of_step h hx⟩
  | lrem q qs record => exact hremoving record rfl hs
  | zrem record => exact hremoving record rfl hs

theorem Cancel.sound_of_next {op : Op Cancel.Pc} (hs : pc.Sound st.db) (hop : Cancel.next pc = some op)
    (he : op.Ends env ch st st' pc') (hkept : pc.Sound st'.db) : pc'.Sound st'.db := by
  cases pc with
  | finished => cases hop
  | select j =>
    cases hop
    cases he with
    | raised | lost => trivial
    | @returned _ record _ hr =>
      cases hr
      cases hrow : st.db.cancelSelect j with
      | none => trivial
      | some record =>
        obtain ⟨r, hr, rfl⟩ := Database.cancelSelect_eq_some hrow
        have hid := Database.id_of_job? hr
        subst hid
        dsimp only
        split_ifs with hpending
        · exact ⟨rfl, _, Database.status?_of_job? hr⟩
        · exact ⟨_, Database.status?_of_job? hr, hpending⟩
  | update j record =>
    cases hop
    cases he with
    | raised | lost => trivial
    | @returned _ x hf hr =>
      obtain ⟨rfl, y, hy⟩ := hs
      have hx : (st.db.cancelUpdate st.clock record.id).2 = x := congrArg Prod.snd (Option.some.inj hr)
      by_cases hpending : st.db.status? record.id = some .pending
      · obtain ⟨r, hrow, hstatus, hupdated⟩ := Database.cancelUpdate_eq_some st.clock hpending
        have hid := Database.id_of_job? hrow
        have hrow' := Call.run_job?_of_update hr hrow rfl (by simp [hid, hstatus])
        rw [hupdated] at hx
        subst hx
        refine ⟨.failed, ?_, by decide⟩
        rw [show r.cancel.toCancelRecord.id = record.id from hid]
        exact Database.status?_of_job? hrow'
      · rw [Database.cancelUpdate_of_not_pending st.clock hpending] at hx
        subst hx
        have hst : st'.db = st.db := by
          refine (congrArg (fun x => x.1.db) (Option.some.inj hr)).symm.trans ?_
          exact congrArg Prod.fst (Database.cancelUpdate_of_not_pending st.clock hpending)
        refine ⟨y, ?_, fun h => hpending (h ▸ hy)⟩
        rwa [hst]
  | lrem q qs record =>
    cases hop
    cases he with
    | raised | lost => trivial
    | returned =>
      cases qs with
      | nil => exact hkept
      | cons => exact hkept
  | zrem record =>
    cases hop
    cases he <;> trivial
  | emit record =>
    cases hop
    cases he <;> trivial

theorem removesSettled_step (hI : RemovesSettled s) (ha : NoReturnUnderRemoval env s a)
    (h : step env s a = some s') : RemovesSettled s' := by
  intro i pc' hp'
  cases became_of_step h hp' with
  | kept hp => exact (hI i pc' hp).step hp ha h
  | spawned r hr =>
    cases r with
    | cancel j =>
      cases hr
      trivial
    | _ => cases hr
  | signalled p hp hr =>
    cases p <;> cases hr
    exact (hI i pc' hp).step hp ha h
  | crashed hr => cases hr
  | ran hp hop he =>
    cases Proc.goes_of_next hop he with
    | cancel hnext _ hends => exact Cancel.sound_of_next (hI i _ hp) hnext hends ((hI i _ hp).step hp ha h)

theorem RemovesSettled.not_pending (hI : RemovesSettled s) {p : Proc} (hp : s.procs[pid]? = some p)
    (hj : p.removing? = some j) : s.store.db.status? j ≠ some .pending := by
  cases p with
  | cancel pc =>
    have hs := hI pid pc hp
    cases pc <;> cases hj
    all_goals
      obtain ⟨x, hx, hne⟩ := hs
      rw [hx]
      exact fun h => hne (Option.some.inj h)
  | _ => cases hj

/-! The removals touch the copies of the one job. -/

namespace Redis
variable {r : Redis} {q : Queue} {i : Uuid}

theorem copies_lrem (hij : i ≠ j) : (r.lrem q i).copies j = r.copies j := by
  have hset := copies_setList (r := r) (q := q) (l := (r.lists q).filter fun k => k ≠ i) (j := j)
  rw [List.count_filter (by simpa using hij.symm)] at hset
  exact Nat.add_right_cancel hset

theorem copies_zrem (hij : i ≠ j) : (r.zrem i).copies j = r.copies j := by
  have hmem : j ∈ (r.scheduled.remove i).members ↔ j ∈ r.scheduled.members := by
    simp only [SortedSet.mem_members, SortedSet.mem_entries_remove]
    exact exists_congr fun _ => and_iff_left hij.symm
  unfold copies
  rw [SortedSet.count_members, SortedSet.count_members]
  simp only [zrem, hmem]

end Redis

theorem Cancel.copies_of_next {op : Op Cancel.Pc} {x : op.call.Ret} (hop : Cancel.next pc = some op)
    (hx : op.call.run env ch st = some (st', x)) (hr : op.call.removes = true) (hj : pc.removing? ≠ some j) :
    st'.redis.copies j = st.redis.copies j := by
  cases pc with
  | update i record =>
    cases hop
    cases hx
    rfl
  | lrem q qs record =>
    cases hop
    cases hx
    exact Redis.copies_lrem fun h => hj (congrArg some h)
  | zrem record =>
    cases hop
    cases hx
    exact Redis.copies_zrem fun h => hj (congrArg some h)
  | select | emit =>
    cases hop
    cases hr
  | finished => cases hop

theorem tokens_of_removes {c : Call} (hf : NoFault a) (h : step env s a = some s')
    (hc : s.call? env a = some (pid, c)) (hr : c.removes = true)
    (hj : ∀ p ∈ s.procs[pid]?, p.removing? ≠ some j) : s'.tokens j = s.tokens j := by
  cases shifts_of_step (f := Proc.holds j) rfl (fun _ => Proc.holds_signal) Proc.holds_toProc h with
  | quiet hq =>
    obtain ⟨n, rfl⟩ := hq.call pid c hc
    cases hr
  | crashed => cases hc
  | @ran i ch p p' op hp hop he htally =>
    cases hc.symm.trans (call?_of_no_fault hp (.inl ⟨rfl, hop⟩) hf)
    obtain ⟨pc, rfl⟩ : ∃ pc, p = .cancel pc := by
      have hm := Proc.makes_of_next hop
      generalize op.call = c at hm hr
      cases hm with
      | other hplain => exact hplain.remove hr
      | _ => cases hr
    obtain ⟨x, hx, rfl⟩ := he.of_no_fault hf
    obtain ⟨op, hnext, rfl⟩ := Option.map_eq_some_iff.mp hop
    have hcopies := Cancel.copies_of_next hnext hx hr (hj _ hp)
    have hhand (pc : Cancel.Pc) : (Proc.cancel pc).holds j = 0 := rfl
    rw [hhand, show ((op.map Proc.cancel).resume (.ok x)).holds j = 0 from rfl] at htally
    unfold State.tokens
    omega

/-- Where no job comes back under a removal no `PENDING` job gets out of reach. -/
theorem pendingKept_of_step (hI : RemovesSettled s) (hk : PendingKept s) (hf : NoFault a) (hc : CrashesSpare s a)
    (h : step env s a = some s') : PendingKept s' := by
  by_cases hr : ∀ x ∈ s.call? env a, x.2.removes = false
  · exact pendingKept_step hk hr hf hc h
  · simp only [not_forall, Bool.not_eq_false] at hr
    obtain ⟨⟨pid, c⟩, hcall, hr⟩ := hr
    intro j hj
    obtain ⟨ch, x, hx⟩ := run_of_call? h hcall
    have hbefore : s.store.db.status? j = some .pending := by
      by_contra hs
      have hfresh := Call.mem_fresh_of_pending hx hs hj
      cases c <;> cases hr <;> exact List.not_mem_nil hfresh
    rw [tokens_of_removes hf h hcall hr fun p hp hremoving => hI.not_pending hp hremoving hbefore]
    exact hk j hbefore

/-- A request that has not moved its job to `FAILED` takes no copy of its id away while the job is `PENDING`,
and every `PENDING` job a worker can still come by. Where nothing makes a job `PENDING` again under a removal, the
first holds as no job is `PENDING` there, which is what `RemovesSettled` says; the second is left to show. -/
def CancelTakesNothing (env : Env) (ok : State → Action → Prop) : Prop :=
  ∀ t tr s, Run ok (step env) (.init t) tr s →
    (∀ a s' pid j, ok s a → step env s a = some s' → a.runs? = some pid →
      (∃ p ∈ s.procs[pid]?, p.removing? = some j) → (∀ x ∈ tr, ¬ x.1.Becomes env x.2 pid j .failed) →
      s.store.db.status? j = some .pending →
        (∀ q, (s'.store.redis.lists q).count j = (s.store.redis.lists q).count j) ∧
          (j ∈ s'.store.redis.scheduled.members ↔ j ∈ s.store.redis.scheduled.members)) ∧
    ∀ j, s.store.db.status? j = some .pending → s.Reaches j

theorem removesSettled_of_reachable {ok : State → Action → Prop} {t : Nat}
    (hok : ∀ s a, ok s a → NoReturnUnderRemoval env s a) (h : Reachable ok (step env) (.init t) s) :
    RemovesSettled s := by
  apply h.invariant
  · intro i pc hp
    cases hp
  · intro s a s' hI ha h
    exact removesSettled_step hI (hok s a ha) h

theorem cancelTakesNothing (env : Env) :
    CancelTakesNothing env fun s a => NoFault a ∧ NoCrash a ∧ NoReturnUnderRemoval env s a := by
  intro t tr s h
  refine ⟨fun a s' pid j _ _ _ ⟨p, hp, hj⟩ _ hpending => ?_, fun j hj => ?_⟩
  · -- a request at its removals has found the job settled, and nothing makes it `PENDING` under it
    have hsettled : RemovesSettled s := removesSettled_of_reachable (fun _ _ ha => ha.2.2) h.reachable
    exact absurd hpending (hsettled.not_pending hp hj)
  · have hkept : PendingKept s := by
      apply h.reachable.invariant_with fun _ h => removesSettled_of_reachable (fun _ _ ha => ha.2.2) h
      · intro j hj
        cases hj
      · rintro s a s' hI hk ⟨hf, hc, _⟩ h
        refine pendingKept_of_step hI hk hf ?_ h
        cases a with
        | crash => cases hc
        | _ => trivial
    exact State.tokens_pos.mp (hkept j hj)

/-- Request 2 finds job 7 `RUNNING` and removes its id from wherever it may be; the attempt fails, and when the
retry is due the scheduler pushes the id. -/
def promotedAfterRemoval : List Action :=
  taken report ++ [.spawn (.cancel 7)] ++ calls 2 6 ++ [.run 1 { outcome := .error (.exception "down") }] ++ calls 1 2 ++
    [.tick 61000000, .spawn .scheduler] ++ calls 3 6

theorem cancelTakesNothing_promoted : ∃ tr s,
    Run (fun s a => NoFault a ∧ NoCrash a ∧ NoReturnUnderRemoval minutely s a) (step minutely) (.init 0) tr s ∧
    s.store.db.status? 7 = some .pending ∧ (∃ x ∈ tr, ∃ p ∈ x.1.procs[2]?, p.removing? = some 7) ∧ s.Reaches 7 := by
  obtain ⟨tr, s, h, hs⟩ : ∃ tr s,
      Run (fun s a => NoFault a ∧ NoCrash a ∧ NoReturnUnderRemoval minutely s a) (step minutely) (.init 0) tr s ∧ _ :=
    exists_run_of_exec promotedAfterRemoval (fun tr s => s.store.db.status? 7 = some .pending ∧
      ∃ x ∈ tr, ∃ p ∈ x.1.procs[2]?, p.removing? = some 7) (by decide +kernel)
  obtain ⟨hpending, hremoving⟩ := of_decide_eq_true hs
  exact ⟨tr, s, h, hpending, hremoving, (cancelTakesNothing minutely 0 tr s h).2 7 hpending⟩

/-- The first attempt of job 7 has failed, and request 2 finds it in `RETRYING` and comes to its removals; the
scheduler then promotes the job. -/
def promotedUnderRemoval : List Action :=
  taken report ++ [.run 1 { outcome := .error (.exception "down") }] ++ calls 1 2 ++ [.spawn (.cancel 7), .run 2 {},
    .tick 61000000, .spawn .scheduler] ++ calls 3 6

/-- The request then removes the id that the scheduler has pushed. -/
theorem not_cancelTakesNothing : ¬ CancelTakesNothing minutely fun _ a => NoFault a ∧ NoCrash a ∧ NoReplay a := by
  intro law
  obtain ⟨tr, s, h, hs⟩ : ∃ tr s, Run (fun _ a => NoFault a ∧ NoCrash a ∧ NoReplay a) (step minutely) (.init 0)
      tr s ∧ _ :=
    exists_run_of_exec promotedUnderRemoval (fun tr s => s.store.db.status? 7 = some .pending ∧
      (∀ x ∈ tr, ¬ x.1.Becomes minutely x.2 2 7 .failed) ∧
      (∃ p ∈ s.procs[2]?, p.removing? = some 7) ∧ (s.store.redis.lists .default).count 7 = 1 ∧
      (step minutely s (.run 2 {})).any fun s' => (s'.store.redis.lists .default).count 7 = 0) (by decide +kernel)
  obtain ⟨hpending, hkept, hremoving, hone, hstep⟩ := of_decide_eq_true hs
  obtain ⟨s', hs', hzero⟩ := (Option.any_eq_true _ _).mp hstep
  have hsame := ((law 0 tr s h).1 (.run 2 {}) s' 2 7 ⟨rfl, trivial, trivial⟩ hs' rfl hremoving hkept hpending).1
    .default
  rw [of_decide_eq_true hzero, hone] at hsame
  cases hsame

end DistribuQ
