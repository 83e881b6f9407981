import DistribuQ.Proofs.Carried

/-! Every lock of a job is followed by one execution of its handler, unless the worker crashes before it
or never hears of the lock. -/

namespace DistribuQ
open Transition
variable {env : Env} {s s' : State} {a : Action} {j : Uuid} {r : Job}

def Call.locked? : Call → Option Uuid
  | fetchAndLockJob j _ => some j
  | _ => none

/-- A worker locks `j`. -/
def State.Locks (env : Env) (s : State) (a : Action) (j : Uuid) : Prop :=
  ∃ x ∈ s.call? env a, x.2.locked? = some j ∧ ∃ r ∈ s.store.db.job? j, r.claimable = true

/-- A worker starts to execute the handler of `j`. -/
def State.Starts (s : State) (a : Action) (j : Uuid) : Prop :=
  ∃ pid ∈ a.runs?, ∃ p ∈ s.procs[pid]?, p.starting?.map LockedJob.id = some j

/-- A lock of `j` comes to nothing: its worker crashes before the handler, or the answer is lost. -/
def State.Wastes (env : Env) (s : State) (a : Action) (j : Uuid) : Prop :=
  (∃ pid ∈ a.crashes?, ∃ p ∈ s.procs[pid]?, p.starting?.map LockedJob.id = some j) ∨
  s.Locks env a j ∧ ∃ x ∈ s.op? env a, x.2.1.fault.isLost = true

def State.Replays (env : Env) (s : State) (a : Action) (j : Uuid) : Prop :=
  ∃ x ∈ s.call? env a, x.2.replayed?.map Prod.snd = some j

instance : Decidable (s.Locks env a j) := inferInstanceAs (Decidable (∃ x ∈ s.call? env a, _))
instance : Decidable (s.Starts a j) := inferInstanceAs (Decidable (∃ pid ∈ a.runs?, _))
instance : Decidable (s.Wastes env a j) := inferInstanceAs (Decidable (_ ∨ _))
instance : Decidable (s.Replays env a j) := inferInstanceAs (Decidable (∃ x ∈ s.call? env a, _))

def Proc.awaits (j : Uuid) (p : Proc) : Nat := indicator (p.starting?.map LockedJob.id = some j)

def State.starting (j : Uuid) (s : State) : Nat := tally (Proc.awaits j) s.procs

/-- The number of executions of the handler of `j` that start in a run. -/
def executions (j : Uuid) (tr : List (State × Action)) : Nat :=
  total (fun s a => indicator (s.Starts a j)) tr

theorem Proc.attempt?_of_starting? {p : Proc} {job : LockedJob} (h : p.starting? = some job) :
    p.attempt? = some job := by
  cases p with
  | worker p =>
    obtain ⟨pc, _, _⟩ := p
    cases pc <;> cases h
    rfl
  | _ => cases h

theorem not_locks_of_call? (h : ∀ x, s.call? env a = some x → x.2.locked? ≠ some j) :
    ¬ s.Locks env a j := by
  rintro ⟨x, hx, hl, _⟩
  exact h x hx hl

theorem attempts_of_step (h : step env s a = some s') (hn : ¬ s.Replays env a j)
    (hr : s.store.db.job? j = some r) :
    ∃ r', s'.store.db.job? j = some r' ∧ r'.origin = r.origin ∧
      r'.attempts = r.attempts + indicator (s.Locks env a j) := by
  rcases store_of_step h with ⟨pid, ch, c, x, hc, hx⟩ | ⟨hnone, hdb, _⟩
  · refine ⟨_, Call.run_job? hx hr, Call.origin_rewrite, ?_⟩
    have hid := Database.id_of_job? hr
    have hw : c.Writes s.store r _ := Call.writes_rewrite c
    have hother (hl : c.locked? ≠ some j) : indicator (s.Locks env a j) = 0 := by
      refine indicator_neg (not_locks_of_call? fun y hy => ?_)
      cases hc.symm.trans hy
      exact hl
    generalize c.rewrite s.store r = r' at hw
    subst hid
    cases hw with
    | kept hk =>
      rw [indicator_neg, Nat.add_zero]
      rintro ⟨y, hy, hl, r₀, hr₀, hp⟩
      cases hc.symm.trans hy
      cases hr.symm.trans hr₀
      cases c <;> cases hl
      have hfalse := hk _ rfl
      simp only [decide_true, Bool.true_and] at hfalse
      rw [hfalse] at hp
      cases hp
    | lock w hp =>
      rw [indicator_pos ⟨_, hc, rfl, r, hr, hp⟩]
      rfl
    | reset d => exact absurd ⟨_, hc, rfl⟩ hn
    | _ =>
      rw [hother nofun]
      rfl
  · refine ⟨r, hdb ▸ hr, rfl, ?_⟩
    rw [indicator_neg, Nat.add_zero]
    refine not_locks_of_call? fun y hy => ?_
    cases hnone.symm.trans hy

theorem Proc.Makes.locker {pid : Nat} {p : Proc} {c : Call} (h : p.Makes pid c) (hc : c.locked? = some j) :
    ∃ w, p = .worker w ∧ w.pc = .fetchAndLock j := by
  cases h with
  | lock hpc =>
    cases hc
    exact ⟨_, rfl, hpc⟩
  | other hplain =>
    cases c with
    | fetchAndLockJob => exact absurd rfl (hplain.lock _ _)
    | _ => cases hc
  | _ => cases hc

theorem Worker.starting?_of_goes {w : WorkerId} {ch : Choice} {st st' : Store} {pc pc' : Worker.Pc} {c : Call}
    (h : pc.Goes env w ch st st' c pc') (hc : c.locked? = none) : pc'.starting? = none := by
  cases h with
  | locked => cases hc
  | raised | successFault =>
    exact onFailure_cases (P := fun pc => pc.starting? = none) _ (fun _ => rfl) fun _ => rfl
  | emitSuccess => exact afterSuccess_cases (P := fun pc => pc.starting? = none) (fun _ => rfl) rfl
  | _ => rfl

theorem Worker.locked_of_goes {w : WorkerId} {ch : Choice} {st st' : Store} {pc pc' : Worker.Pc} {c : Call}
    {i : Uuid} (h : pc.Goes env w ch st st' c pc') (hc : c.locked? = some i) :
    (ch.fault = .none ∧ (∃ r, st.db.job? i = some r ∧ r.claimable = true) ∧
      pc'.starting?.map LockedJob.id = some i) ∨
    pc'.starting? = none ∧ (ch.fault = .none → ∀ r, st.db.job? i = some r → r.claimable = false) := by
  cases h with
  | locked hf hr =>
    cases hc
    obtain ⟨r, hr, hp, _, hid, _⟩ := Call.run_fetchAndLockJob_some hr
    exact .inl ⟨hf, ⟨r, hr, hp⟩, congrArg some hid⟩
  | unlocked hf hr =>
    cases hc
    exact .inr ⟨rfl, fun _ r => Call.run_fetchAndLockJob_none hr⟩
  | lockFault hf => exact .inr ⟨rfl, fun h => absurd h hf⟩
  | _ => cases hc

theorem awaits_of_run {pid : Nat} {ch : Choice} {p p' : Proc} {op : Op Proc} {st : Store}
    (hp : s.procs[pid]? = some p) (hop : p.next env pid = some op) (he : op.Ends env ch s.store st p') :
    p'.awaits j + indicator (s.Wastes env (.run pid ch) j) = indicator (s.Locks env (.run pid ch) j) := by
  have hw : s.Wastes env (.run pid ch) j ↔ s.Locks env (.run pid ch) j ∧ ch.fault.isLost = true := by
    have ho := op?_of_makes hp (.inl ⟨rfl, hop⟩ : MakesOp env (.run pid ch) pid ch p op)
    constructor
    · rintro (⟨_, h, _⟩ | ⟨hl, x, hx, hlost⟩)
      · cases h
      · cases ho.symm.trans hx
        exact ⟨hl, hlost⟩
    · exact fun ⟨hl, hlost⟩ => .inr ⟨hl, _, ho, hlost⟩
  -- a step after which the worker is not before a handler locks `j` only where the answer is lost
  have idle (hnone : p'.starting? = none) (hlock : op.call.locked? = some j → ch.fault = .none →
      ∀ r, s.store.db.job? j = some r → r.claimable = false) :
      p'.awaits j + indicator (s.Wastes env (.run pid ch) j) = indicator (s.Locks env (.run pid ch) j) := by
    have hlost (hl : s.Locks env (.run pid ch) j) : ch.fault.isLost = true := by
      obtain ⟨x, hx, hj, r, hr, hclaim⟩ := hl
      cases call?_run_eq hp hop hx
      cases hf : ch.fault with
      | none =>
        rw [hlock hj hf r hr] at hclaim
        cases hclaim
      | raised e =>
        have hlocal : op.call.isLocal = false := by
          revert hj
          generalize op.call = c
          cases c <;> intro hj <;> first | rfl | cases hj
        cases hx.symm.trans (call?_eq_none hp (.inl ⟨rfl, hop⟩) hf hlocal)
      | lost => rfl
    have haw : p'.awaits j = 0 := indicator_neg (by rw [hnone]; nofun)
    rw [haw, Nat.zero_add]
    exact indicator_congr (hw.trans (and_iff_left_of_imp hlost))
  cases Proc.goes_of_next hop he with
  | worker hnext heq hends =>
    have hg := Worker.goes_of_next hnext hends
    rw [heq] at hg
    cases hi : op.call.locked? with
    | none =>
      refine idle (Worker.starting?_of_goes hg hi) fun hj => ?_
      cases hi.symm.trans hj
    | some i =>
      rcases Worker.locked_of_goes hg hi with ⟨hf, ⟨r, hr, hclaim⟩, hstart⟩ | ⟨hnone, hlock⟩
      · have hc : s.call? env (.run pid ch) = some (pid, op.call) :=
          call?_of_no_fault hp (.inl ⟨rfl, hop⟩) hf
        have hlocks : s.Locks env (.run pid ch) j ↔ i = j := by
          constructor
          · rintro ⟨x, hx, hj, _⟩
            cases call?_run_eq hp hop hx
            exact Option.some.inj (hi.symm.trans hj)
          · rintro rfl
            exact ⟨_, hc, hi, r, hr, hclaim⟩
        have hnw : ¬ s.Wastes env (.run pid ch) j := by
          rw [hw, hf]
          exact fun h => Bool.false_ne_true h.2
        rw [indicator_neg hnw, indicator_congr hlocks, Proc.awaits]
        apply indicator_congr
        rw [Proc.starting?, Proc.ofPc, hstart, Option.some.injEq]
      · refine idle hnone fun hj => ?_
        cases hi.symm.trans hj
        exact hlock
  | _ =>
    refine idle rfl fun hj => ?_
    obtain ⟨_, h, _⟩ := (Proc.makes_of_next hop).locker hj
    cases h

/-- Locks begin what starts and wastes end. -/
theorem starting_of_step (h : step env s a = some s') :
    s'.starting j + (indicator (s.Starts a j) + indicator (s.Wastes env a j)) =
      s.starting j + indicator (s.Locks env a j) := by
  cases shifts_of_step (f := Proc.awaits j) rfl (fun p => by simp [Proc.awaits, Proc.starting?])
      (fun r => by simp [Proc.awaits, Proc.starting?, Request.ofPc_toProc (f := Worker.Pc.starting?) rfl]) h with
  | quiet hq htally =>
    have hl : ¬ s.Locks env a j := not_locks_of_call? fun x hx => by
      obtain ⟨n, hc⟩ := hq.call _ _ hx
      rw [hc]
      nofun
    have hs : ¬ s.Starts a j := by
      rintro ⟨_, h, _⟩
      cases hq.runs.symm.trans h
    have hw : ¬ s.Wastes env a j := by
      rintro (⟨_, h, _⟩ | ⟨h, _⟩)
      · cases hq.crashes.symm.trans h
      · exact hl h
    rw [indicator_neg hs, indicator_neg hw, indicator_neg hl, State.starting, htally, State.starting]
  | @crashed pid p hp _ htally =>
    have hl : ¬ s.Locks env (.crash pid) j := not_locks_of_call? nofun
    have hs : ¬ s.Starts (.crash pid) j := by
      rintro ⟨_, h, _⟩
      cases h
    have hw : s.Wastes env (.crash pid) j ↔ p.starting?.map LockedJob.id = some j := by
      constructor
      · rintro (⟨_, h, q, hq, hj⟩ | ⟨h, _⟩)
        · cases h
          cases hp.symm.trans hq
          exact hj
        · exact absurd h hl
      · exact fun hj => .inl ⟨_, rfl, p, hp, hj⟩
    rw [indicator_neg hs, indicator_congr hw, indicator_neg hl]
    simpa [State.starting, Proc.awaits] using htally
  | @ran pid ch p p' op hp hop he htally =>
    have hs : s.Starts (.run pid ch) j ↔ p.starting?.map LockedJob.id = some j := by
      constructor
      · rintro ⟨_, h, q, hq, hj⟩
        cases h
        cases hp.symm.trans hq
        exact hj
      · exact fun hj => ⟨_, rfl, p, hp, hj⟩
    have hbalance := awaits_of_run (j := j) hp hop he
    rw [indicator_congr hs]
    simp only [State.starting, Proc.awaits] at htally hbalance ⊢
    omega

end DistribuQ
