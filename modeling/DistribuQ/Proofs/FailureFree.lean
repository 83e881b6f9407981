import DistribuQ.Proofs.Ledger
import DistribuQ.Proofs.Exclusion
import DistribuQ.Proofs.RetryDelays

/-! Runs without failures: what they exclude, and what holds in them beside the accounts. -/

namespace DistribuQ
open Transition
variable {env : Env} {s s' : State} {a : Action} {pid i : Nat} {j : Uuid}

/-- `_base_delay` is absent or a number that is not negative. -/
def delayNonneg (payload : Payload) : Bool :=
  match payload.lookup "_base_delay" with
  | none => true
  | some (.num q) => 0 ≤ q
  | some _ => false

def DelaysNonneg : Action → Prop
  | .spawn (.submit req) => delayNonneg req.payload = true
  | _ => True

def Call.syncs : Call → Bool
  | getPendingScheduledJobs => true
  | _ => false

/-- `sync_from_db` runs on an empty table only. -/
def SyncsEmpty (env : Env) (s : State) (a : Action) : Prop :=
  ∀ x ∈ s.call? env a, x.2.syncs = true → s.store.db.jobs.rows.isEmpty = true

/-- No worker ends but by a signal, no failing call, no cancel request, no stale reclaim, one replay at a time. -/
structure FailureFree (env : Env) (s : State) (a : Action) : Prop where
  returns : NoFault a
  lives : NoCrash a
  stays : NoExit a
  keeps : NoCancel a
  reclaim : NoReclaim env s a
  replay : NoReplayOverlap s a
  sync : SyncsEmpty env s a
  delay : DelaysNonneg a

instance : Decidable (DelaysNonneg a) := by
  unfold DelaysNonneg
  split <;> infer_instance

instance : Decidable (SyncsEmpty env s a) := inferInstanceAs (Decidable (∀ x ∈ s.call? env a, _))

instance : Decidable (FailureFree env s a) :=
  decidable_of_iff (NoFault a ∧ NoCrash a ∧ NoExit a ∧ NoCancel a ∧ NoReclaim env s a ∧ NoReplayOverlap s a ∧
      SyncsEmpty env s a ∧ DelaysNonneg a)
    ⟨fun ⟨h₁, h₂, h₃, h₄, h₅, h₆, h₇, h₈⟩ => ⟨h₁, h₂, h₃, h₄, h₅, h₆, h₇, h₈⟩,
      fun ⟨h₁, h₂, h₃, h₄, h₅, h₆, h₇, h₈⟩ => ⟨h₁, h₂, h₃, h₄, h₅, h₆, h₇, h₈⟩⟩

theorem NoFault.noLostSql (h : NoFault a) : NoLostSql env s a := by
  intro x hx _
  cases a with
  | run | heartbeat =>
    obtain ⟨_, _, hx⟩ := Option.bind_eq_some_iff.mp hx
    obtain ⟨_, _, hx⟩ := Option.bind_eq_some_iff.mp hx
    cases hx
    rw [show _ = Fault.none from h]
    rfl
  | _ => cases hx

theorem FailureFree.orderly (h : FailureFree env s a) : Orderly env s a := by
  refine ⟨fun x hx n hn r hr hstale => ?_, h.replay, h.returns.noLostSql⟩
  rw [h.reclaim x hx n hn r hr] at hstale
  cases hstale

/-! Every failed attempt finds a time for its retry. -/

namespace Retry

theorem number?_baseDelay {payload : Payload} (h : delayNonneg payload = true) :
    ∃ b, number? (Worker.baseDelay payload) = some b ∧ 0 ≤ b := by
  unfold delayNonneg at h
  unfold Worker.baseDelay
  split at h
  · rename_i hnone
    rw [hnone]
    exact ⟨1, rfl, zero_le_one⟩
  · rename_i q hnum
    rw [hnum]
    exact ⟨q, rfl, of_decide_eq_true h⟩
  · cases h

theorem computeNextRetryAt_ne_none {payload : Payload} {now : Time} (h : delayNonneg payload = true)
    (hnow : 0 ≤ now) (attempt : Int) (u : Draw) :
    computeNextRetryAt now attempt (Worker.baseDelay payload) u ≠ none := by
  obtain ⟨b, hb, hpos⟩ := number?_baseDelay h
  have hdelay : 0 ≤ computeBackoffDelay attempt b 300 true u :=
    computeBackoffDelay_nonneg hpos (by norm_num)
  have hround : 0 ≤ roundHalfEven (computeBackoffDelay attempt b 300 true u * 1000000) :=
    roundHalfEven_nonneg (mul_nonneg hdelay (by norm_num))
  have hle : datetimeMin ≤ now + roundHalfEven (computeBackoffDelay attempt b 300 true u * 1000000) :=
    le_trans (by decide) (add_nonneg hnow hround)
  rw [computeNextRetryAt_eq_some.mpr ⟨b, hb, hle, rfl⟩]
  exact Option.some_ne_none _

end Retry

def Submit.Pc.request? : Pc → Option JobCreateRequest
  | validate req | create req => some req
  | _ => none

structure Delays (s : State) : Prop where
  row : ∀ (j : Uuid) (r : Job), s.store.db.job? j = some r → delayNonneg r.payload = true
  request : ∀ (i : Nat) (pc : Submit.Pc) (req : JobCreateRequest), s.procs[i]? = some (.submit pc) →
    pc.request? = some req → delayNonneg req.payload = true

theorem Submit.request?_of_next {pc pc' : Submit.Pc} {op : Op Submit.Pc} {ch : Choice} {st st' : Store}
    {req : JobCreateRequest} (hop : Submit.next pc = some op) (he : op.Ends env ch st st' pc')
    (hr : pc'.request? = some req) : pc.request? = some req := by
  cases Submit.does_of_next hop with
  | check =>
    cases he with
    | @returned _ r => rcases r with _ | _ <;> first | exact hr | cases hr
    | _ => cases hr
  | uncheck => cases he <;> exact hr
  | create | push | schedule | emit => cases he <;> cases hr

theorem delays_init (t : Nat) : Delays (.init t) where
  row _ _ h := by cases h
  request _ _ _ h := by cases h

theorem delays_step (hI : Delays s) (hC : Carried s) (hd : DelaysNonneg a) (h : step env s a = some s') :
    Delays s' := by
  constructor
  · intro j r' hr'
    cases hr : s.store.db.job? j with
    | some r =>
      obtain ⟨r₁, hr₁, horigin⟩ := step_origin h hr
      cases hr₁.symm.trans hr'
      rw [show r'.payload = r.payload from congrArg NewJob.payload horigin]
      exact hI.row j r hr
    | none =>
      obtain ⟨pid, ch, c, hc, hi, _⟩ := step_job?_none h hr hr'
      rcases makes_of_call? hc with ⟨_, p, _, hp, hm⟩ | ⟨_, _, _, rfl⟩
      · cases hm with
        | create req =>
          cases hi
          exact hI.request pid _ req hp rfl
        | @schedule _ job _ _ hpc =>
          cases hi
          obtain ⟨r₀, hr₀, hrow⟩ := hC pid _ job hp (by rw [Proc.job?, Proc.ofPc, hpc]; rfl)
          have hpayload : job.payload = r₀.payload := congrArg LockedJob.payload hrow
          exact (hpayload ▸ hI.row _ r₀ hr₀ :)
        | other hplain => cases (hplain.inserted _ _).symm.trans hi
        | _ => cases hi
      · cases hi
  · intro i pc' req hp' hreq
    cases became_of_step h hp' with
    | kept hp => exact hI.request i pc' req hp hreq
    | spawned r hr =>
      cases r with
      | submit req' =>
        cases hr
        cases hreq
        exact hd
      | _ => cases hr
    | signalled p hp hr =>
      cases p <;> cases hr
      exact hI.request i pc' req hp hreq
    | crashed hr => cases hr
    | ran hp hop he =>
      cases Proc.goes_of_next hop he with
      | submit hnext _ hends => exact hI.request i _ req hp (Submit.request?_of_next hnext hends hreq)

/-! Under failure-free steps no reaper takes anything out of `queue:processing`. -/

def NoRequeues (s : State) : Prop := ∀ (i : Nat) (p : Proc), s.procs[i]? = some p → p.requeues = false

theorem Call.reclaimed_eq_nil {ch : Choice} {st st' : Store} {n : Nat} {xs : List StaleJob}
    (h : run env ch st (.reclaimStaleJobs n) = some (st', xs))
    (hs : ∀ r ∈ st.db.jobs.rows, st.db.stale st.clock n r = false) : xs = [] := by
  refine List.eq_nil_iff_forall_not_mem.mpr fun x hx => ?_
  obtain ⟨r, hr, hstale, _⟩ := row_of_reclaimed h hx
  rw [hs r (Database.mem_of_job? hr)] at hstale
  cases hstale

theorem Reaper.requeues_of_next {p p' : Reaper} {op : Op Reaper} {ch : Choice} {st st' : Store}
    (hop : p.next = some op) (he : op.Ends env ch st st' p')
    (hs : ∀ n, op.call = .reclaimStaleJobs n → ∀ r ∈ st.db.jobs.rows, st.db.stale st.clock n r = false)
    (hI : (Proc.reaper p).requeues = false) : (Proc.reaper p').requeues = false := by
  obtain ⟨v, b, pc, running⟩ := p
  cases pc with
  | loop =>
    cases hop
    cases running <;> cases he <;> rfl
  | expire =>
    cases hop
    cases he <;> rfl
  | stale =>
    cases hop
    cases he with
    | @returned _ xs _ hr =>
      obtain rfl : xs = [] := Call.reclaimed_eq_nil hr (hs _ rfl)
      rfl
    | _ => rfl
  | retries =>
    cases hop
    cases he with
    | @returned _ xs => cases xs <;> rfl
    | _ => rfl
  | pushRetries x xs =>
    cases hop
    cases he <;> cases xs <;> rfl
  | requeueRem | requeuePush => cases hI
  | stopped => cases hop

theorem noRequeues_step (hI : NoRequeues s) (hf : NoFault a) (hr : NoReclaim env s a)
    (h : step env s a = some s') : NoRequeues s' := by
  intro i p' hp'
  cases became_of_step h hp' with
  | kept hp => exact hI i p' hp
  | spawned r heq =>
    rw [heq]
    cases r <;> rfl
  | signalled p hp heq =>
    have hp := hI i p hp
    rw [heq]
    cases p <;> exact hp
  | crashed heq =>
    rw [heq]
    rfl
  | ran hp hop he =>
    cases Proc.goes_of_next hop he with
    | reaper hnext hcall hends =>
      refine Reaper.requeues_of_next hnext hends (fun n hn => ?_) (hI i _ hp)
      have hc := call?_of_no_fault hp (.inl ⟨rfl, hop⟩) hf
      rw [← hcall, hn] at hc
      exact hr _ hc n rfl
    | _ => rfl

structure Undisturbed (s : State) : Prop where
  exclusive : Exclusive s
  carried : Carried s
  delays : Delays s
  cancels : NoCancels s
  requeues : NoRequeues s
  clock : 0 ≤ s.store.clock

theorem undisturbed_init (t : Nat) : Undisturbed (.init t) where
  exclusive := exclusive_init t
  carried _ _ _ h := by cases h
  delays := delays_init t
  cancels _ _ h := by cases h
  requeues _ _ h := by cases h
  clock := Int.natCast_nonneg t

theorem undisturbed_step (hI : Undisturbed s) (hff : FailureFree env s a) (h : step env s a = some s') :
    Undisturbed s' where
  exclusive := exclusive_step hI.exclusive hff.orderly h
  carried := carried_step hI.carried h
  delays := delays_step hI.delays hI.carried hff.delay h
  cancels := noCancels_step hI.cancels hff.keeps h
  requeues := noRequeues_step hI.requeues hff.returns hff.reclaim h
  clock := hI.clock.trans (clock_le_of_step h)

end DistribuQ
