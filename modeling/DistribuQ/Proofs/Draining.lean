import DistribuQ.Proofs.Attempts
import DistribuQ.Proofs.Ordering
import DistribuQ.Proofs.Sync

/-! A worker by itself, none of whose calls raise, empties the ready lists and attempts every job that waits
there; a handler that raises an `Exception` holds up no other job. -/

namespace DistribuQ
open Transition
variable {env : Env} {w : WorkerId} {ch : Choice} {st st' : Store} {j : Uuid} {r r' : Job} {c : Call}

/-- The worker is at the test of `self.running`, and no id is left in the ready lists. -/
def Exhausted (x : Store × Proc) : Prop := x.2.looping = true ∧ x.1.redis.waiting = []

theorem Redis.mem_waiting {r : Redis} : j ∈ r.waiting ↔ ∃ q, j ∈ r.lists q := by
  simp only [waiting, List.mem_append, List.mem_reverse]
  constructor
  · rintro ((h | h) | h) <;> exact ⟨_, h⟩
  · rintro ⟨q, h⟩
    cases q <;> simp [h]

theorem length_onQueue (l : List (Queue × Uuid)) :
    tally (fun q => (onQueue q l).length) Queue.ordered = l.length := by
  induction l with
  | nil => rfl
  | cons x l ih =>
    obtain ⟨q, i⟩ := x
    simp only [Queue.ordered, tally_cons, tally_nil, onQueue, List.length_cons, List.length_map] at ih ⊢
    cases q <;> simp <;> omega

theorem mem_onQueue {q : Queue} {l : List (Queue × Uuid)} : j ∈ onQueue q l ↔ (q, j) ∈ l := by
  simp [onQueue]

/-- Whenever the worker was at the handler of job `j`, the handler has returned. -/
def HandlerReturns (j : Uuid) (tr : List ((Store × Proc) × Turn)) : Prop :=
  ∀ y ∈ tr, ∀ p job, y.1.2 = .worker p → p.pc = .handler job → job.id = j → ∃ v, y.2.choice.outcome = .ok v

namespace Worker
variable {pc pc' : Pc} {job : LockedJob}

/-- Not in `shutdown`. -/
def Pc.serving : Pc → Bool
  | emitDead | markDead | stopped => false
  | _ => true

/-- The job of an attempt that has not failed. -/
def Pc.promising? : Pc → Option LockedJob
  | emitRunning job | handler job | markSuccess job _ => some job
  | _ => none

/-- What a handler has raised is about to end the worker. -/
def Pc.exiting : Pc → Bool
  | ackExit _ => true
  | _ => false

theorem exiting_onFailure (e : String) : (onFailure job e).exiting = false :=
  onFailure_cases (P := fun pc => pc.exiting = false) e (fun _ => rfl) fun _ => rfl

theorem exiting_afterSuccess : (afterSuccess job).exiting = false :=
  afterSuccess_cases (P := fun pc => pc.exiting = false) (fun _ => rfl) rfl

theorem exiting_of_goes (h : pc.Goes env w ch st st' c pc') (hstays : ch.exits = false) : pc'.exiting = false := by
  cases h with
  | exits hraised => cases hstays.symm.trans (Choice.exits_of_raised hraised)
  | raised | successFault => exact exiting_onFailure _
  | emitSuccess => exact exiting_afterSuccess
  | _ => rfl

/-- A worker goes on until it is told to stop, or until what its handler has raised ends it. -/
theorem running_of_next {p p' : Worker} {op : Op Worker} (hop : p.next w = some op)
    (he : op.Ends env ch st st' p') : p'.running = p.running ∨ p.pc.exiting = true ∧ p'.running = false := by
  have hresume (x : Except String op.call.Ret) :
      (op.resume x).running = p.running ∨ p.pc.exiting = true ∧ (op.resume x).running = false := by
    obtain ⟨pc, running, n⟩ := p
    by_cases hexiting : pc.exiting = true
    · cases pc <;> cases hexiting
      cases hop
      cases x with
      | ok => exact .inr ⟨rfl, rfl⟩
      | error => exact .inl rfl
    left
    cases pc with
    | ackExit => exact absurd rfl hexiting
    | poll qs =>
      cases qs <;> cases hop
      · rcases x with e | _ | ⟨q, j⟩ <;> rfl
      · rcases x with e | _ | j <;> rfl
    | fetchAndLock | computeNextRun | computeRetry =>
      cases hop
      rcases x with e | _ | y <;> rfl
    | handler =>
      cases hop
      rcases x with e | (e | _) | y <;> rfl
    | stopped => cases hop
    | _ =>
      cases hop
      cases x <;> rfl
  cases he <;> exact hresume _

theorem serving_onFailure (e : String) : (onFailure job e).serving = true :=
  onFailure_cases (P := fun pc => pc.serving = true) e (fun _ => rfl) fun _ => rfl

theorem serving_afterSuccess : (afterSuccess job).serving = true :=
  afterSuccess_cases (P := fun pc => pc.serving = true) (fun _ => rfl) rfl

theorem serving_of_next {p p' : Worker} {op : Op Worker} (hop : p.next w = some op)
    (he : op.Ends env ch st st' p') (hpc : p.pc.serving = true) (hrun : p.running = true) :
    p'.pc.serving = true := by
  have hgoes := goes_of_next hop he
  by_cases hloop : p.pc = .loop
  · obtain ⟨pc, running, n⟩ := p
    obtain rfl : pc = .loop := hloop
    obtain rfl : running = true := hrun
    cases hop
    cases he <;> rfl
  · generalize p.pc = pc, p'.pc = pc', op.call = c at hgoes hpc hloop
    cases hgoes with
    | shutdown => exact absurd rfl hloop
    | raised | successFault => exact serving_onFailure _
    | emitSuccess => exact serving_afterSuccess
    | emitDead | markDead => cases hpc
    | _ => rfl

/-- A worker writes a row where it locks the job or writes the outcome of its attempt. -/
theorem writes_of_goes (h : pc.Goes env w ch st st' c pc') (hw : c.Writes st r r') : r' = r ∨
    r.claimable = true ∧ c = .fetchAndLockJob r.id w ∨ ∃ job ∈ pc.attempt?, job.id = r.id := by
  cases hw with
  | kept => exact .inl rfl
  | lock v hclaim =>
    cases h <;> exact .inr (.inl ⟨hclaim, rfl⟩)
  | succeed | retry | bury =>
    generalize hid : r.id = i at h
    cases h <;> exact .inr (.inr ⟨_, rfl, rfl⟩)
  | cancel | reset =>
    generalize r.id = i at h
    cases h
  | release | promote => cases h

/-- It takes none of its attempts back. -/
theorem attempts_le_of_goes (h : pc.Goes env w ch st st' c pc') (hw : c.Writes st r r') :
    r.attempts ≤ r'.attempts := by
  cases hw with
  | lock => exact Nat.le_succ _
  | reset =>
    generalize r.id = i at h
    cases h
  | _ => exact le_rfl

/-- It takes ids off the ready lists and puts none there. -/
theorem lists_of_goes {x : c.Ret} (h : pc.Goes env w ch st st' c pc') (hx : c.run env ch st = some (st', x))
    (q : Queue) : onQueue q (c.takes st.redis) ++ (st'.redis.lists q).reverse = (st.redis.lists q).reverse := by
  have hcall : c.withdraws = false ∧ c.pushes st.redis = [] := by
    cases h <;> exact ⟨rfl, rfl⟩
  have hfifo := (Call.handles_of_run hx).first_out hcall.1 q
  rw [hcall.2] at hfifo
  exact hfifo.trans (List.append_nil _)

/-- An id that waits stays in the lists, or the worker takes it. -/
theorem queued_of_goes {x : c.Ret} (h : pc.Goes env w ch st st' c pc') (hx : c.run env ch st = some (st', x))
    (hf : ch.fault = .none)
    (hj : j ∈ st.redis.waiting ∨ pc.popped? = some j) :
    j ∈ st'.redis.waiting ∨ pc'.popped? = some j ∨ pc'.reserved? = some j := by
  have hhand := returns_of_goes h fun _ => hf
  have htaken : j ∈ pc.popped?.toList ++ (c.takes st.redis).map Prod.snd →
      pc'.popped? = some j ∨ pc'.reserved? = some j := by
    rw [← hhand]
    simp [or_comm]
  rcases hj with hj | hj
  · obtain ⟨q, hq⟩ := Redis.mem_waiting.mp hj
    rw [← List.mem_reverse, ← lists_of_goes h hx q, List.mem_append, mem_onQueue, List.mem_reverse] at hq
    rcases hq with hq | hq
    · exact .inr (htaken (List.mem_append_right _ (List.mem_map_of_mem hq)))
    · exact .inl (Redis.mem_waiting.mpr ⟨q, hq⟩)
  · exact .inr (htaken (List.mem_append_left _ (by simp [hj])))

/-- The job can be locked, and its id waits or is in the hands of the worker. -/
structure Queued (st : Store) (pc : Pc) (j : Uuid) (r : Job) : Prop where
  id : j ∈ st.redis.waiting ∨ pc.popped? = some j ∨ pc.reserved? = some j
  row : st.db.job? j = some r
  claimable : r.claimable = true
  free : ∀ job ∈ pc.attempt?, job.id ≠ j

/-- How a job that was `PENDING` or `RETRYING` has fared, if its handler has not raised. -/
inductive Served (st : Store) (pc : Pc) (j : Uuid) : Prop
  | queued {r : Job} : Queued st pc j r → Served st pc j
  | running {job : LockedJob} {r : Job} : pc.promising? = some job → job.id = j → st.db.job? j = some r →
      Served st pc j
  | done : st.db.status? j = some .success → (∀ job ∈ pc.attempt?, job.id ≠ j) → Served st pc j

theorem Queued.wait {n : ℕ} (h : Queued st pc j r) : Queued (st.wait n) pc j r :=
  ⟨h.id, h.row, h.claimable, h.free⟩

theorem Served.wait {n : ℕ} (h : Served st pc j) : Served (st.wait n) pc j := by
  cases h with
  | queued h => exact .queued h.wait
  | running ha hid hr => exact .running ha hid hr
  | done h hfree => exact .done h hfree

/-- A job that is not in the attempt of a worker comes into it by a lock that finds it `PENDING` or `RETRYING`. -/
theorem free_of_goes (h : pc.Goes env w ch st st' c pc') (hfree : ∀ job ∈ pc.attempt?, job.id ≠ j)
    (hc : c = .fetchAndLockJob j w → ∀ r, st.db.job? j = some r → r.claimable = false) :
    ∀ job ∈ pc'.attempt?, job.id ≠ j := by
  intro job ha
  rcases fromLock_attempt?.2.2 _ _ _ _ _ _ _ _ _ h ha with ha | ⟨k, hc', _, hrun⟩
  · exact hfree job ha
  · rintro rfl
    obtain ⟨r, hr, hclaim, _, hid, _⟩ := Call.run_fetchAndLockJob_some hrun
    subst hid
    cases hclaim.symm.trans (hc hc' r hr)

/-- A worker that has the id locks the job, which has not changed before. -/
theorem Queued.step {x : c.Ret} (hq : Queued st pc j r) (h : pc.Goes env w ch st st' c pc')
    (hx : c.run env ch st = some (st', x)) (hf : ch.fault = .none) : Queued st' pc' j r ∨
    (∃ job, pc' = .emitRunning job ∧ job.id = j) ∧
        st'.db.job? j = some ((r.lock w st.clock).touch st.clock) := by
  have hid : r.id = j := Database.id_of_job? hq.row
  have hr' := Call.run_job? hx hq.row
  by_cases hc : c = .fetchAndLockJob j w
  · right
    subst hc
    cases h with
    | @locked _ job _ hrun =>
      obtain ⟨r₀, hr₀, _, _, hjob, hrow⟩ := Call.run_fetchAndLockJob_some hrun
      cases hq.row.symm.trans hr₀
      exact ⟨⟨job, rfl, hjob⟩, hrow⟩
    | unlocked _ hrun => cases hq.claimable.symm.trans (Call.run_fetchAndLockJob_none hrun hq.row)
    | lockFault hne => exact absurd hf hne
  · left
    have hkept : c.rewrite st r = r := by
      rcases writes_of_goes h (Call.writes_rewrite c) with hkept | ⟨-, hc'⟩ | ⟨job, ha, hjob⟩
      · exact hkept
      · exact absurd (hid ▸ hc') hc
      · exact absurd (hjob.trans hid) (hq.free job ha)
    refine ⟨queued_of_goes h hx hf ?_, hkept ▸ hr', hq.claimable, free_of_goes h hq.free fun h => absurd h hc⟩
    refine (or_assoc.mpr hq.id).resolve_right fun hres => hc ?_
    cases h <;> cases hres
    all_goals rfl

/-- The worker has still to come to the job, or has locked it since it was `r`. -/
def Attempted (st : Store) (pc : Pc) (j : Uuid) (r : Job) : Prop :=
  Queued st pc j r ∨ ∃ r' ∈ st.db.job? j, r.attempts < r'.attempts

theorem Attempted.wait {n : ℕ} (h : Attempted st pc j r) : Attempted (st.wait n) pc j r :=
  h.imp_left Queued.wait

theorem Attempted.step {x : c.Ret} (hs : Attempted st pc j r) (h : pc.Goes env w ch st st' c pc')
    (hx : c.run env ch st = some (st', x)) (hf : ch.fault = .none) : Attempted st' pc' j r := by
  rcases hs with hq | ⟨r', hr', hlt⟩
  · rcases hq.step h hx hf with hq' | ⟨_, hrow⟩
    · exact .inl hq'
    · exact .inr ⟨_, hrow, Nat.lt_succ_self _⟩
  · exact .inr ⟨_, Call.run_job? hx hr', hlt.trans_le (attempts_le_of_goes h (Call.writes_rewrite c))⟩

theorem Served.step {x : c.Ret} (hs : Served st pc j) (h : pc.Goes env w ch st st' c pc')
    (hx : c.run env ch st = some (st', x)) (hf : ch.fault = .none)
    (ho : ∀ job, pc = .handler job → job.id = j → ∃ v, ch.outcome = .ok v) : Served st' pc' j := by
  cases hs with
  | queued hq =>
    rcases hq.step h hx hf with hq' | ⟨⟨job, rfl, hid⟩, hr'⟩
    · exact .queued hq'
    · exact .running rfl hid hr'
  | @running job r ha hid hr =>
    have hr' := Call.run_job? hx hr
    cases h with
    | raised he =>
      cases ha
      obtain ⟨v, hv⟩ := ho _ rfl hid
      cases hv.symm.trans he
    | exits he =>
      cases ha
      obtain ⟨v, hv⟩ := ho _ rfl hid
      cases hv.symm.trans he
    | successFault hne => exact absurd hf hne
    | succeeded =>
      cases ha
      subst hid
      have hrow := Call.run_job?_of_update hx hr rfl (by simpa using Database.id_of_job? hr)
      exact .done (Database.status?_of_job? hrow) nofun
    | emitRunning | returned => exact .running ha hid hr'
    | _ => cases ha
  | done hsuccess hfree =>
    obtain ⟨r, hr, hr₀⟩ := Option.map_eq_some_iff.mp hsuccess
    have hid : r.id = j := Database.id_of_job? hr
    have hr' := Call.run_job? hx hr
    have hclosed : r.claimable = false := by simp [Job.claimable, hr₀]
    refine .done ?_ (free_of_goes h hfree fun _ r₁ h₁ => ?_)
    · have hkept : c.rewrite st r = r := by
        rcases writes_of_goes h (Call.writes_rewrite c) with hkept | ⟨hclaim, -⟩ | ⟨job, ha, hjob⟩
        · exact hkept
        · cases hclaim.symm.trans hclosed
        · exact absurd (hjob.trans hid) (hfree job ha)
      exact (Database.status?_of_job? hr').trans (congrArg some (by rw [hkept, hr₀]))
    · cases hr.symm.trans h₁
      exact hclosed

/-- A bound on the calls that are left until `n` ids are taken off the ready lists and processed. -/
def Pc.remaining (n : ℕ) : Pc → ℕ
  | loop => if n = 0 then 0 else 40 * n + 18
  | poll qs => 40 * n + 14 + qs.length
  | pc => 40 * n + 19 + pc.rank

theorem remaining_le (n : ℕ) (pc : Pc) : pc.remaining n ≤ 40 * n + 19 + pc.rank := by
  cases pc with
  | loop =>
    simp only [Pc.remaining, Pc.rank]
    split_ifs <;> omega
  | poll qs =>
    simp only [Pc.remaining, Pc.rank]
    omega
  | _ => exact le_rfl

/-- Every call makes it smaller. -/
theorem remaining_lt {x : c.Ret} (h : pc.Goes env w ch st st' c pc') (hx : c.run env ch st = some (st', x))
    (hpc' : pc'.serving = true) (hf : ch.fault = .none) (hgo : ¬ (pc = .loop ∧ st.redis.waiting = [])) :
    pc'.remaining st'.redis.waiting.length < pc.remaining st.redis.waiting.length := by
  have hlen : st.redis.waiting.length = st'.redis.waiting.length + (c.takes st.redis).length := by
    have hq (q : Queue) := congrArg List.length (lists_of_goes h hx q)
    simp only [List.length_append, List.length_reverse] at hq
    have hhigh := hq .high
    have hdefault := hq .default
    have hlow := hq .low
    rw [← length_onQueue]
    simp only [Redis.waiting, List.length_append, List.length_reverse, Queue.ordered, tally_cons, tally_nil]
    omega
  have hbound := remaining_le st'.redis.waiting.length pc'
  have hrank := h.rank_lt
  generalize hn' : st'.redis.waiting.length = n' at hlen hbound ⊢
  cases h with
  | pollFault hne | popFault hne | putFault hne | lockFault hne | successFault hne | scheduleFault hne
  | retryFault hne | buryFault hne => exact absurd hf hne
  | shutdown => cases hpc'
  | poll =>
    have hn : st.redis.waiting.length = n' := hlen
    have hne : n' ≠ 0 := fun h => hgo ⟨rfl, List.length_eq_zero_iff.mp (hn.trans h)⟩
    rw [hn]
    simp only [Pc.remaining, if_neg hne]
    simp [Queue.ordered]
  | reserved _ hr =>
    rw [takes_of_rpoplpush hr] at hlen
    simp [Pc.remaining, Pc.rank, hlen]
    omega
  | empty _ hr =>
    rw [takes_of_rpoplpush hr] at hlen
    simp [Pc.remaining, hlen]
  | popped _ hr =>
    rw [takes_of_brpop hr] at hlen
    simp [Pc.remaining, Pc.rank, hlen]
    omega
  | timeout _ hr =>
    -- nothing is left where `BRPOP` finds nothing
    have hnil := Redis.brpop_eq_none_iff.mp (congrArg Prod.snd (Call.run_brpop hr).1)
    have hempty (q : Queue) : st.redis.lists q = [] := hnil q (by cases q <;> decide)
    have hn : st.redis.waiting.length = 0 := by simp [Redis.waiting, hempty]
    have hn' : n' = 0 := by omega
    simp [Pc.remaining, hn']
  | _ =>
    have hlt := hrank (by simp)
    refine hbound.trans_lt ?_
    show _ < 40 * st.redis.waiting.length + 19 + _
    rw [hlen]
    exact Nat.add_lt_add_left hlt _

end Worker

/-- How many calls a worker makes yet before it is idle, at most. -/
def Proc.remaining (st : Store) : Proc → ℕ
  | .worker p => p.pc.remaining st.redis.waiting.length
  | _ => 0

/-- The call returns, and if it is a handler's, raises no more than an `Exception`. -/
def Staying (x : Store × Proc) (m : Turn) : Prop := Returning x m ∧ m.choice.exits = false

theorem staying_of_returned {x : Store × Proc} {m : Turn} (hf : m.choice.fault = .none)
    (ho : m.choice.outcome = .ok .null) : Staying x m :=
  ⟨hf, by rw [Choice.exits, ho]⟩

/-- Worker `w` by itself comes back to its loop with the ready lists empty. -/
abbrev DrainsLists (env : Env) (w : WorkerId) (ok : Store × Proc → Turn → Prop) (st : Store) (p : Worker)
    (Q : List ((Store × Proc) × Turn) → Store × Proc → Prop) : Prop :=
  Eventually Exhausted ok (Solo.step env w) (st, .worker p) Q

theorem HandlerReturns.of_append {tr : List ((Store × Proc) × Turn)} {y : (Store × Proc) × Turn}
    (h : HandlerReturns j (tr ++ [y])) : HandlerReturns j tr ∧ HandlerReturns j [y] :=
  ⟨fun z hz => h z (List.mem_append_left _ hz), fun z hz => h z (List.mem_append_right _ hz)⟩

/-- Whatever the worker has found in the ready lists and whatever the handlers have done, the lists are empty some
time; each job that could be locked and had its id in them has been attempted then, and is `SUCCESS` if its own
handler has returned. -/
theorem drainsLists_of {ok : Store × Proc → Turn → Prop} (hok : ∀ x m, ok x m → Staying x m)
    (hgo : ∀ x, ∃ o u, ∀ m : Turn, m.choice.fault = .none → m.choice.outcome = o → m.choice.draw = u → ok x m)
    (w : WorkerId) (st : Store) {p : Worker} (hpc : p.pc = .loop) (hrun : p.running = true) :
    DrainsLists env w ok st p fun tr x => ∀ j r, j ∈ st.redis.waiting → st.db.job? j = some r →
      r.claimable = true → (∃ r' ∈ x.1.db.job? j, r.attempts < r'.attempts) ∧
        (HandlerReturns j tr → x.1.db.status? j = some .success) := by
  let I : List ((Store × Proc) × Turn) → Store × Proc → Prop := fun tr x => ∃ p' : Worker, x.2 = .worker p' ∧
    p'.running = true ∧ p'.pc.exiting = false ∧ p'.pc.serving = true ∧
    ∀ j r, j ∈ st.redis.waiting → st.db.job? j = some r → r.claimable = true →
      Worker.Attempted x.1 p'.pc j r ∧ (HandlerReturns j tr → Worker.Served x.1 p'.pc j)
  have hstart : I [] (st, .worker p) := by
    refine ⟨p, rfl, hrun, by rw [hpc]; rfl, by rw [hpc]; rfl, fun j r hj hr hclaim => ?_⟩
    have hq : Worker.Queued st p.pc j r := ⟨.inl hj, hr, hclaim, by rw [hpc]; nofun⟩
    exact ⟨.inl hq, fun _ => .queued hq⟩
  have hall : Eventually Exhausted ok (Solo.step env w) (st, .worker p) fun tr x => Exhausted x ∧ I tr x := by
    refine Eventually.of_variant Nat.lt_wfRel.wf (fun x => x.2.remaining x.1) hstart ?_ ?_
    · rintro tr ⟨st₁, q⟩ ⟨p₁, rfl, _, _, hserving, _⟩ _
      have hne : p₁.pc ≠ .stopped := fun h => by rw [h] at hserving; cases hserving
      obtain ⟨op, hop⟩ := Worker.exists_next (w := w) hne
      obtain ⟨o, u, hm⟩ := hgo (st₁, .worker p₁)
      obtain ⟨m, x, _, hf, ho, hu, hs⟩ := Solo.exists_step (Worker.next_proc env hop) o u st₁
      exact ⟨m, x, hm m hf ho hu, hs⟩
    · rintro tr ⟨st₁, q⟩ m ⟨st₂, q'⟩ ⟨p₁, rfl, hrun₁, hexiting, hserving, hjobs⟩ hstop hm hs
      obtain ⟨hf, hstays⟩ := hok _ _ hm
      obtain ⟨op', hop', he⟩ := Solo.ends_of_step hs
      obtain ⟨op, hop, rfl⟩ := Option.map_eq_some_iff.mp hop'
      obtain ⟨p₂, rfl, hends⟩ := he.of_map
      have hgoes := Worker.goes_of_next hop hends
      have hserving' := Worker.serving_of_next hop hends hserving hrun₁
      have hrun₂ : p₂.running = true := by
        rcases Worker.running_of_next hop hends with hrun₂ | ⟨hexits, _⟩
        · exact hrun₂.trans hrun₁
        · cases hexiting.symm.trans hexits
      obtain ⟨x, hx, _⟩ := hends.of_no_fault hf
      refine ⟨⟨p₂, rfl, hrun₂, Worker.exiting_of_goes hgoes hstays, hserving',
        fun j r hj hr hclaim => ?_⟩, ?_⟩
      · obtain ⟨hattempted, hserved⟩ := hjobs j r hj hr hclaim
        refine ⟨hattempted.wait.step hgoes hx hf, fun hret => ?_⟩
        obtain ⟨hret, hlast⟩ := hret.of_append
        refine (hserved hret).wait.step hgoes hx hf fun job hpc hid => ?_
        exact hlast _ List.mem_cons_self p₁ job rfl hpc hid
      · have hlt := Worker.remaining_lt hgoes hx hserving' hf fun h => hstop ⟨looping_iff.mpr h.1, h.2⟩
        exact hlt
  refine hall.mono fun tr x h j r hj hr hclaim => ?_
  obtain ⟨⟨hloop, hempty⟩, p', hp', _, _, _, hjobs⟩ := h
  rw [hp', looping_iff] at hloop
  obtain ⟨hattempted, hserved⟩ := hjobs j r hj hr hclaim
  rw [hloop] at hattempted hserved
  -- at the loop, with nothing waiting, the worker has no id left to come to
  have hnone (r : Job) : ¬ Worker.Queued x.1 .loop j r := by
    rintro ⟨hid, _⟩
    rw [hempty] at hid
    rcases hid with hid | hid | hid <;> cases hid
  refine ⟨hattempted.resolve_left (hnone r), fun hret => ?_⟩
  cases hserved hret with
  | queued hq => exact absurd hq (hnone _)
  | running ha => cases ha
  | done h => exact h

/-- The same for every run in which no call raises and no handler ends the worker. -/
theorem drainsLists (env : Env) (w : WorkerId) (st : Store) {p : Worker} (hpc : p.pc = .loop)
    (hrun : p.running = true) : DrainsLists env w Staying st p fun tr x =>
      ∀ j r, j ∈ st.redis.waiting → st.db.job? j = some r → r.claimable = true →
        (∃ r' ∈ x.1.db.job? j, r.attempts < r'.attempts) ∧
          (HandlerReturns j tr → x.1.db.status? j = some .success) :=
  drainsLists_of (fun _ _ h => h) (fun _ => ⟨.ok .null, default, fun _ hf ho _ => staying_of_returned hf ho⟩) w st
    hpc hrun

/-- Job 7 of a request, `PENDING` and in its ready list. -/
def submitted (req : JobCreateRequest) : Store where
  db := { Database.empty with jobs := .single (req.toNewJob.toJob 0 7) }
  redis := Redis.empty.lpush (Queue.ofPriority req.priority) 7
  clock := 0

theorem drainsLists_report : DrainsLists minutely 1 Staying (submitted report) {} fun tr x =>
    HandlerReturns 7 tr → x.1.db.status? 7 = some .success :=
  (drainsLists minutely 1 (submitted report) rfl rfl).mono fun _ _ h =>
    (h 7 _ (by decide) rfl rfl).2

end DistribuQ
