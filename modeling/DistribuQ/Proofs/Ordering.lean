import DistribuQ.Proofs.Reservation
import DistribuQ.Proofs.Solo

/-! In which order `priority_reserve_job` takes what `enqueue_job` pushes. -/

namespace DistribuQ
open Transition
variable {env : Env} {s s' : State} {a : Action} {pid : Nat} {q q' : Queue} {j : Uuid}
  {tr : List (State × Action)}

/-- The tiers that come before `q`. -/
def Queue.above (q : Queue) : List Queue := Queue.ordered.takeWhile fun q' => q' ≠ q

/-- No call of `priority_reserve_job` crashes or raises. -/
def CallsReturn (s : State) : Action → Prop
  | .crash pid => ∀ p ∈ s.procs[pid]?, p.reserving = false
  | .run pid ch => ∀ p ∈ s.procs[pid]?, p.reserving = true → ch.fault = .none
  | _ => True

/-- The ready lists are pushed and popped only. -/
def Reserving (env : Env) (s : State) (a : Action) : Prop :=
  CallsReturn s a ∧ ∀ x ∈ s.call? env a, x.2.withdraws = false

instance (s : State) : (a : Action) → Decidable (CallsReturn s a)
  | .crash pid => inferInstanceAs (Decidable (∀ p ∈ s.procs[pid]?, p.reserving = false))
  | .run pid ch => inferInstanceAs (Decidable (∀ p ∈ s.procs[pid]?, p.reserving = true → ch.fault = .none))
  | .tick _ | .spawn _ | .heartbeat .. | .signal _ => isTrue trivial

instance : Decidable (Reserving env s a) := inferInstanceAs (Decidable (_ ∧ _))

namespace State

def NoneReserving (s : State) : Prop := ∀ p ∈ s.procs, p.reserving = false

/-- What worker `pid` has popped and not yet put into `queue:processing`. -/
def popped? (pid : Nat) (s : State) : Option Uuid := (s.procs[pid]?).bind (Proc.ofPc Worker.Pc.popped?)

end State

def Worker.Pc.reserved? : Worker.Pc → Option Uuid
  | fetchAndLock j => some j
  | _ => none

namespace State

/-- What a call of `priority_reserve_job` of worker `pid` has returned. -/
def reserved? (pid : Nat) (s : State) : Option Uuid := (s.procs[pid]?).bind (Proc.ofPc Worker.Pc.reserved?)

/-- What a call of worker `pid` returns in this step. -/
def returns (env : Env) (pid : Nat) (s : State) (a : Action) : List Uuid :=
  if a.runs? = some pid then ((step env s a).bind (reserved? pid)).toList else []

/-- What the call of any worker returns in this step. -/
def returned (env : Env) (s : State) (a : Action) : List Uuid := a.runs?.elim [] fun pid => s.returns env pid a

/-- What a call of worker `pid` pops in this step. -/
def takesBy (env : Env) (pid : Nat) (s : State) (a : Action) : List Uuid :=
  if a.runs? = some pid then (s.takes env a).map Prod.snd else []

def At (pid : Nat) (pc : Worker.Pc) (s : State) : Prop := ∃ w, s.procs[pid]? = some (.worker w) ∧ w.pc = pc

/-- Worker `pid` has these keys left to poll. -/
def Polls (pid : Nat) (qs : List Queue) (s : State) : Prop := s.At pid (.poll qs)

end State

theorem first_out_of_step (hr : Reserving env s a) (h : step env s a = some s') (q : Queue) :
    onQueue q (s.takes env a) ++ (s'.store.redis.lists q).reverse =
      (s.store.redis.lists q).reverse ++ onQueue q (s.pushes env a) := by
  rcases store_of_step h with ⟨pid, ch, c, x, hc, hx⟩ | ⟨hnone, _, hredis⟩
  · rw [State.takes, State.pushes, hc]
    exact (Call.handles_of_run hx).first_out (hr.2 _ hc) q
  · rw [State.takes, State.pushes, hnone, hredis]
    exact (List.append_nil _).symm

section
variable {ch : Choice} {st st' : Store}

theorem Call.run_rpoplpush {o : Option Uuid} (h : Call.run env ch st (.rpoplpush q) = some (st', o)) :
    st.redis.rpoplpush q = (st'.redis, o) ∧ st' = { st with redis := st'.redis } := by
  simp only [Call.run, Option.some.injEq, Prod.mk.injEq] at h
  obtain ⟨rfl, rfl⟩ := h
  exact ⟨rfl, rfl⟩

theorem Call.run_brpop {qs : List Queue} {o : Option (Queue × Uuid)}
    (h : Call.run env ch st (.brpop qs) = some (st', o)) :
    st.redis.brpop qs = (st'.redis, o) ∧ st' = { st with redis := st'.redis } := by
  simp only [Call.run, Option.some.injEq, Prod.mk.injEq] at h
  obtain ⟨rfl, rfl⟩ := h
  exact ⟨rfl, rfl⟩

theorem takes_of_rpoplpush {o : Option Uuid} (h : Call.run env ch st (.rpoplpush q) = some (st', o)) :
    (Call.rpoplpush q).takes st.redis = (o.map fun j => (q, j)).toList := by
  obtain ⟨_, hpop, _⟩ := Redis.rpop_of_rpoplpush (Call.run_rpoplpush h).1
  rw [Call.takes, hpop]

theorem takes_of_brpop {qs : List Queue} {o : Option (Queue × Uuid)}
    (h : Call.run env ch st (.brpop qs) = some (st', o)) : (Call.brpop qs).takes st.redis = o.toList := by
  rw [Call.takes, (Call.run_brpop h).1]

end

namespace Worker

theorem reserved?_onFailure (job : LockedJob) (e : String) :
    (onFailure job e).reserved? = none ∧ (onFailure job e).popped? = none :=
  onFailure_cases (P := fun pc => pc.reserved? = none ∧ pc.popped? = none) e (fun _ => ⟨rfl, rfl⟩)
    fun _ => ⟨rfl, rfl⟩

theorem reserved?_afterSuccess (job : LockedJob) :
    (afterSuccess job).reserved? = none ∧ (afterSuccess job).popped? = none :=
  afterSuccess_cases (P := fun pc => pc.reserved? = none ∧ pc.popped? = none) (fun _ => ⟨rfl, rfl⟩) ⟨rfl, rfl⟩

theorem returns_of_goes {w : WorkerId} {ch : Choice} {st st' : Store} {pc pc' : Pc} {c : Call}
    (h : pc.Goes env w ch st st' c pc') (hf : pc.reserving = true → ch.fault = .none) :
    pc'.reserved?.toList ++ pc'.popped?.toList = pc.popped?.toList ++ (c.takes st.redis).map Prod.snd := by
  cases h with
  | pollFault hne | popFault hne | putFault hne => exact absurd (hf rfl) hne
  | reserved _ hr | empty _ hr =>
    rw [takes_of_rpoplpush hr]
    rfl
  | popped _ hr | timeout _ hr =>
    rw [takes_of_brpop hr]
    rfl
  | raised | successFault =>
    rw [(reserved?_onFailure _ _).1, (reserved?_onFailure _ _).2]
    rfl
  | emitSuccess =>
    rw [(reserved?_afterSuccess _).1, (reserved?_afterSuccess _).2]
    rfl
  | _ => rfl

end Worker

theorem takes_of_not_reserves {c : Call} (hc : c.reserves = false) (r : Redis) : c.takes r = [] := by
  cases c <;> first | rfl | cases hc

theorem takesBy_of_run {ch : Choice} {p : Proc} {op : Op Proc} (hp : s.procs[pid]? = some p)
    (hop : p.next env pid = some op) (hf : p.reserving = true → ch.fault = .none) :
    s.takesBy env pid (.run pid ch) = (op.call.takes s.store.redis).map Prod.snd := by
  have ha : (Action.run pid ch).runs? = some pid := rfl
  rw [State.takesBy, if_pos ha, State.takes]
  cases hres : op.call.reserves with
  | true =>
    obtain ⟨w, rfl, hw⟩ := reserver_of_next hop hres
    rw [call?_of_no_fault hp (.inl ⟨rfl, hop⟩) (hf hw)]
    rfl
  | false =>
    rw [takes_of_not_reserves hres]
    cases hc : s.call? env (.run pid ch) with
    | none => rfl
    | some x =>
      rw [call?_run_eq hp hop hc, Option.elim_some, takes_of_not_reserves hres]

theorem popped?_of_not_reserving {p : Proc} (h : p.reserving = false) : p.ofPc Worker.Pc.popped? = none := by
  cases p with
  | worker w =>
    obtain ⟨pc, _, _⟩ := w
    cases pc <;> first | rfl | cases h
  | _ => rfl

def Proc.popping (j : Uuid) (p : Proc) : Nat := indicator (p.ofPc Worker.Pc.popped? = some j)

theorem Proc.count_popped? (p : Proc) : (p.ofPc Worker.Pc.popped?).toList.count j = p.popping j := by
  unfold popping
  cases p.ofPc Worker.Pc.popped? with
  | none => simp
  | some i => simp [List.count_singleton, indicator]

theorem popped?_of_idle (hu : CallsReturn s a) (h : step env s a = some s') (ha : a.runs? ≠ some pid) :
    s'.popped? pid = s.popped? pid := by
  unfold State.popped?
  cases hp' : s'.procs[pid]? with
  | none =>
    cases hp : s.procs[pid]? with
    | none => rfl
    | some p =>
      obtain ⟨_, hp₁⟩ := exists_proc_of_step h hp
      cases hp'.symm.trans hp₁
  | some p' =>
    cases became_of_step h hp' with
    | kept hp => rw [hp]
    | spawned r hr hi =>
      rw [hi, List.getElem?_eq_none le_rfl, hr]
      exact Request.ofPc_toProc rfl r
    | signalled p hp hr => rw [hp, hr, Option.bind_some, Option.bind_some, Proc.ofPc_signal]
    | crashed hr =>
      cases hp : s.procs[pid]? with
      | none => rw [hr]; rfl
      | some p =>
        rw [hr, Option.bind_some, Option.bind_some, popped?_of_not_reserving (hu p hp)]
        rfl
    | ran => exact absurd rfl ha

/-- A worker returns what it has popped: at once, or after it has put it into `queue:processing`. -/
theorem returns_of_step (hr : Reserving env s a) (h : step env s a = some s') :
    s.returns env pid a ++ (s'.popped? pid).toList = (s.popped? pid).toList ++ s.takesBy env pid a := by
  by_cases ha : a.runs? = some pid
  · cases a with
    | run i ch =>
      obtain rfl : i = pid := Option.some.inj ha
      rw [State.returns, if_pos ha, h, Option.bind_some]
      obtain ⟨p, p', op, hp, hop, he, _, hp'⟩ := ran_of_step h
      have hf := hr.1 p hp
      rw [takesBy_of_run hp hop hf]
      simp only [State.reserved?, State.popped?, hp, hp', Option.bind_some]
      have hidle (hw : ∀ w, p ≠ .worker w) : op.call.takes s.store.redis = [] := by
        refine takes_of_not_reserves (Bool.eq_false_iff.mpr fun hres => ?_) _
        obtain ⟨w, rfl, _⟩ := reserver_of_next hop hres
        exact hw w rfl
      cases Proc.goes_of_next hop he with
      | worker hnext hcall hends =>
        have hreturns := Worker.returns_of_goes (Worker.goes_of_next hnext hends) hf
        rw [hcall] at hreturns
        exact hreturns
      | _ =>
        rw [hidle fun w hw => by cases hw]
        rfl
    | _ => cases ha
  · rw [State.returns, State.takesBy, if_neg ha, if_neg ha, popped?_of_idle hr.1 h ha, List.append_nil]
    rfl

theorem takes_of_not_run (ha : a.runs? = none) : s.takes env a = [] := by
  unfold State.takes
  cases hc : s.call? env a with
  | none => rfl
  | some x =>
    obtain ⟨n, hx⟩ := heartbeat_of_call? hc fun ch hch => by rw [hch] at ha; cases ha
    rw [Option.elim_some, hx]
    rfl

theorem popping_of_idle (hu : CallsReturn s a) (h : step env s a = some s') (ha : a.runs? = none) :
    tally (Proc.popping j) s'.procs = tally (Proc.popping j) s.procs := by
  cases shifts_of_step (f := Proc.popping j) rfl (fun p => by simp [Proc.popping])
      (fun r => by simp [Proc.popping, Request.ofPc_toProc (f := Worker.Pc.popped?) rfl]) h with
  | quiet _ htally => exact htally
  | @crashed pid p hp _ htally =>
    rw [← htally, Proc.popping, popped?_of_not_reserving (hu p hp)]
    simp
  | ran => cases ha

theorem popping_of_step (hr : Reserving env s a) (h : step env s a = some s') :
    tally (Proc.popping j) s'.procs + (s.returned env a).count j =
      tally (Proc.popping j) s.procs + ((s.takes env a).map Prod.snd).count j := by
  cases ha : a.runs? with
  | none =>
    rw [popping_of_idle hr.1 h ha, takes_of_not_run ha, State.returned, ha]
    rfl
  | some pid =>
    have hreturns : (s.returns env pid a ++ (s'.popped? pid).toList).count j =
        ((s.popped? pid).toList ++ s.takesBy env pid a).count j :=
      congrArg (List.count j) (returns_of_step hr h)
    rw [List.count_append, List.count_append, State.takesBy, if_pos ha] at hreturns
    rw [State.returned, ha, Option.elim_some]
    cases a with
    | run i ch =>
      obtain rfl : i = pid := Option.some.inj ha
      obtain ⟨p, p', _, hp, _, _, hprocs, hp'⟩ := ran_of_step h
      have hset := tally_set (f := Proc.popping j) (b := p') hp
      simp only [State.popped?, hp, hp', Option.bind_some, Proc.count_popped?] at hreturns
      rw [hprocs]
      omega
    | _ => cases ha

/-- Worker `pid` has polled `q` and found it empty, and is in the same call since. -/
def FoundEmpty (pid : Nat) (q : Queue) (tr : List (State × Action)) : Prop :=
  ∃ tr₁ y tr₂, tr = tr₁ ++ y :: tr₂ ∧ y.2.runs? = some pid ∧ (∃ qs, y.1.Polls pid (q :: qs)) ∧
    y.1.store.redis.lists q = [] ∧ ∀ z ∈ tr₂, ∃ qs, z.1.Polls pid qs

theorem FoundEmpty.extend {qs : List Queue} (h : FoundEmpty pid q tr) (hs : s.Polls pid qs) (a : Action) :
    FoundEmpty pid q (tr ++ [(s, a)]) := by
  obtain ⟨tr₁, y, tr₂, rfl, hruns, hpolls, hempty, hafter⟩ := h
  refine ⟨tr₁, y, tr₂ ++ [(s, a)], ?_, hruns, hpolls, hempty, fun z hz => ?_⟩
  · rw [List.append_assoc, List.cons_append]
  · rcases List.mem_append.mp hz with hz | hz
    · exact hafter z hz
    · obtain rfl := List.mem_singleton.mp hz
      exact ⟨qs, hs⟩

theorem poll_of_goes {w : WorkerId} {ch : Choice} {st st' : Store} {pc : Worker.Pc} {c : Call} {qs : List Queue}
    (h : pc.Goes env w ch st st' c (.poll qs)) :
    qs = Queue.ordered ∨ ∃ q, pc = .poll (q :: qs) ∧ st.redis.lists q = [] := by
  generalize hpc : Worker.Pc.poll qs = pc' at h
  cases h with
  | poll =>
    cases hpc
    exact .inl rfl
  | empty _ hr =>
    cases hpc
    obtain ⟨_, hpop, _⟩ := Redis.rpop_of_rpoplpush (Call.run_rpoplpush hr).1
    exact .inr ⟨_, rfl, Redis.lists_of_rpop_eq_none hpop⟩
  | raised | successFault =>
    refine absurd hpc.symm ?_
    exact Worker.onFailure_cases (P := fun pc => pc ≠ .poll qs) _ (fun _ => nofun) fun _ => nofun
  | emitSuccess =>
    refine absurd hpc.symm ?_
    exact Worker.afterSuccess_cases (P := fun pc => pc ≠ .poll qs) (fun _ => nofun) nofun
  | _ => cases hpc

/-- The keys a worker has left are the last ones, and in its call it has found the others empty. -/
def Polled (pid : Nat) (tr : List (State × Action)) (s : State) : Prop :=
  ∀ qs, s.Polls pid qs → qs <:+ Queue.ordered ∧ ∀ q ∈ Queue.ordered, q ∉ qs → FoundEmpty pid q tr

theorem polled_step (hI : Polled pid tr s) (h : step env s a = some s') : Polled pid (tr ++ [(s, a)]) s' := by
  rintro qs ⟨w', hp', hpc'⟩
  have kept (hs : s.Polls pid qs) :
      qs <:+ Queue.ordered ∧ ∀ q ∈ Queue.ordered, q ∉ qs → FoundEmpty pid q (tr ++ [(s, a)]) :=
    ⟨(hI qs hs).1, fun q hq hn => ((hI qs hs).2 q hq hn).extend hs a⟩
  cases became_of_step h hp' with
  | kept hp => exact kept ⟨w', hp, hpc'⟩
  | spawned r hr =>
    cases r <;> cases hr
    cases hpc'
  | signalled p hp hr =>
    cases p <;> cases hr
    exact kept ⟨_, hp, hpc'⟩
  | crashed hr => cases hr
  | @ran p ch op hp hop he =>
    cases Proc.goes_of_next hop he with
    | @worker w _ _ hnext _ hends =>
      have hg := Worker.goes_of_next hnext hends
      rw [hpc'] at hg
      rcases poll_of_goes hg with rfl | ⟨q, hpc, hempty⟩
      · exact ⟨List.suffix_rfl, fun q hq hn => absurd hq hn⟩
      · have hs : s.Polls pid (q :: qs) := ⟨w, hp, hpc⟩
        obtain ⟨hsuffix, hfound⟩ := hI _ hs
        refine ⟨(List.suffix_cons q qs).trans hsuffix, fun q' hq' hn => ?_⟩
        by_cases hqq : q' = q
        · subst hqq
          exact ⟨tr, _, [], rfl, rfl, ⟨qs, hs⟩, hempty, fun z hz => absurd hz List.not_mem_nil⟩
        · exact (hfound q' hq' (by simp [hqq, hn])).extend hs _

theorem NoneReserving.polled (h : s.NoneReserving) : Polled pid [] s := by
  rintro qs ⟨w, hp, hpc⟩
  have hidle : w.pc.reserving = false := h _ (List.mem_of_getElem? hp)
  rw [hpc] at hidle
  cases hidle

theorem NoneReserving.popped? (h : s.NoneReserving) : s.popped? pid = none := by
  unfold State.popped?
  cases hp : s.procs[pid]? with
  | none => rfl
  | some p => exact popped?_of_not_reserving (h p (List.mem_of_getElem? hp))

/-- A `BRPOP` passes over the lists before the one it pops. -/
theorem Redis.brpop_above {r r' : Redis} {qs : List Queue} (h : r.brpop qs = (r', some (q, j))) :
    ∀ q' ∈ qs.takeWhile (fun q' => q' ≠ q), r.lists q' = [] := by
  induction qs with
  | nil => exact fun q' hq' => absurd hq' List.not_mem_nil
  | cons q₁ qs ih =>
    intro q' hq'
    unfold brpop at h
    split at h
    · cases h
      simp at hq'
    · rename_i hr
      by_cases hq : q₁ = q
      · simp [hq] at hq'
      · rw [List.takeWhile_cons_of_pos (by simp [hq])] at hq'
        rcases List.mem_cons.mp hq' with rfl | hq'
        · exact lists_of_rpop_eq_none hr
        · exact ih h q' hq'

theorem above_of_suffix {qs : List Queue} (h : q :: qs <:+ Queue.ordered) :
    ∀ q' ∈ q.above, q' ∈ Queue.ordered ∧ q' ∉ q :: qs := by
  intro q' hq'
  refine ⟨(List.takeWhile_sublist _).subset hq', ?_⟩
  obtain ⟨before, hbefore⟩ := h
  have hnodup : (before ++ q :: qs).Nodup := hbefore ▸ (by decide : Queue.ordered.Nodup)
  have hdisjoint := List.disjoint_of_nodup_append hnodup
  have hne (q₁ : Queue) (hq₁ : q₁ ∈ before) : decide (q₁ ≠ q) = true :=
    decide_eq_true fun heq => hdisjoint hq₁ (heq ▸ List.mem_cons_self)
  have habove : q.above = before := by
    rw [Queue.above, ← hbefore, List.takeWhile_append_of_pos hne, List.takeWhile_cons_of_neg (by simp),
      List.append_nil]
  exact hdisjoint (habove ▸ hq')

/-- A call pops the key it polls, or in its `BRPOP` the first that is not empty. -/
theorem polls_of_takes (hpid : a.runs? = some pid) (ht : (q, j) ∈ s.takes env a) :
    (∃ qs, s.Polls pid (q :: qs)) ∨ ∀ q' ∈ q.above, s.store.redis.lists q' = [] := by
  unfold State.takes at ht
  cases hc : s.call? env a with
  | none =>
    rw [hc] at ht
    cases ht
  | some x =>
    obtain ⟨i, c⟩ := x
    rw [hc] at ht
    have ht : (q, j) ∈ c.takes s.store.redis := ht
    obtain ⟨ch, p, op, hp, ⟨rfl, hop⟩ | ⟨rfl, _⟩, rfl⟩ := call?_eq_some hc
    · obtain rfl : i = pid := Option.some.inj hpid
      have hres : op.call.reserves = true := by
        by_contra hres
        rw [takes_of_not_reserves (Bool.eq_false_iff.mpr hres)] at ht
        cases ht
      obtain ⟨⟨pc, _, _⟩, rfl, hpc⟩ := reserver_of_next hop hres
      cases pc with
      | poll qs =>
        cases qs with
        | cons q₁ qs =>
          cases hop
          obtain ⟨j₁, _, heq⟩ := Option.map_eq_some_iff.mp (Option.mem_toList.mp ht)
          cases heq
          exact .inl ⟨qs, _, hp, rfl⟩
        | nil =>
          cases hop
          exact .inr (Redis.brpop_above (Prod.ext rfl (Option.mem_toList.mp ht)))
      | lpushProcessing =>
        cases hop
        cases ht
      | _ => cases hpc
    · cases hpid

theorem Worker.store_of_poll {w : WorkerId} {ch : Choice} {st st' : Store} {pc pc' : Pc} {c : Call}
    {qs : List Queue} (h : pc.Goes env w ch st st' c pc') (hpc : pc = .poll qs) (hf : ch.fault = .none)
    (hr : pc'.reserved? = none) (hp : pc'.popped? = none) : st' = st := by
  cases h with
  | reserved => cases hr
  | popped => cases hp
  | pollFault hne | popFault hne => exact absurd hf hne
  | empty _ hrun =>
    obtain ⟨hpop, hst⟩ := Call.run_rpoplpush hrun
    rw [hst, Redis.rpoplpush_eq_none hpop]
  | timeout _ hrun =>
    obtain ⟨hpop, hst⟩ := Call.run_brpop hrun
    rw [hst, Redis.brpop_eq_none hpop]
  | _ => cases hpc

theorem State.reserved?_of_at {pc : Worker.Pc} (h : s.At pid pc) :
    s.reserved? pid = pc.reserved? ∧ s.popped? pid = pc.popped? := by
  obtain ⟨w, hp, rfl⟩ := h
  unfold State.reserved? State.popped?
  rw [hp]
  exact ⟨rfl, rfl⟩

/-- A step of a call that neither pops nor returns an id leaves everything as it is. -/
theorem store_of_empty {qs : List Queue} {ch : Choice} (hs : s.Polls pid qs) (hu : CallsReturn s (.run pid ch))
    (h : step env s (.run pid ch) = some s') (hr : s'.reserved? pid = none) (hp : s'.popped? pid = none) :
    s'.store = s.store := by
  obtain ⟨w, hw, hpc⟩ := hs
  obtain ⟨w', op, _, hg, hp', _⟩ := worker_of_step hw h
  have hf : ch.fault = .none := hu _ hw (by rw [Proc.reserving, hpc]; rfl)
  obtain ⟨hreserved, hpopped⟩ := State.reserved?_of_at ⟨w', hp', rfl⟩
  exact Worker.store_of_poll hg hpc hf (hreserved.symm.trans hr) (hpopped.symm.trans hp)

/-- A call of worker `pid` that begins in `s₁` and returns `None` in `s`. -/
structure ReturnsNone (env : Env) (pid : Nat) (s₁ : State) (tr : List (State × Action)) (s : State) : Prop where
  run : Run (Reserving env) (step env) s₁ tr s
  begins : s₁.Polls pid Queue.ordered
  during : ∀ x ∈ tr, ∃ qs, x.1.Polls pid qs
  ends : s.At pid .loop

theorem ReturnsNone.store_eq {s₁ : State} (h : ReturnsNone env pid s₁ tr s) :
    ∀ x ∈ tr, x.2.runs? = some pid → ∀ s', step env x.1 x.2 = some s' → s'.store = x.1.store := by
  have key {tr : List (State × Action)} {s : State} (hrun : Run (Reserving env) (step env) s₁ tr s)
      (hduring : ∀ x ∈ tr, ∃ qs, x.1.Polls pid qs) (hr : s.reserved? pid = none) (hp : s.popped? pid = none) :
      ∀ x ∈ tr, x.2.runs? = some pid → ∀ s', step env x.1 x.2 = some s' → s'.store = x.1.store := by
    induction hrun with
    | nil => exact fun x hx => absurd hx List.not_mem_nil
    | @snoc tr s s' a hrun ha hs ih =>
      obtain ⟨qs, hpolls⟩ := hduring (s, a) (List.mem_append_right _ List.mem_cons_self)
      obtain ⟨hr₁, hp₁⟩ := State.reserved?_of_at hpolls
      intro x hx hruns s'' hs'
      rcases List.mem_append.mp hx with hx | hx
      · exact ih (fun y hy => hduring y (List.mem_append_left _ hy)) hr₁ hp₁ x hx hruns s'' hs'
      · obtain rfl := List.mem_singleton.mp hx
        cases hs.symm.trans hs'
        cases a with
        | run i ch =>
          obtain rfl : i = pid := Option.some.inj hruns
          exact store_of_empty hpolls ha.1 hs hr hp
        | _ => cases hruns
  obtain ⟨hr, hp⟩ := State.reserved?_of_at h.ends
  exact key h.run h.during hr hp

/-! Calls one after the other, with no other process at work. -/

/-- The ids in the ready lists, the oldest of `queue:high` first. -/
def Redis.waiting (r : Redis) : List Uuid :=
  (r.lists .high).reverse ++ (r.lists .default).reverse ++ (r.lists .low).reverse

/-- What a call of `priority_reserve_job` has returned. -/
def Proc.answer? : Proc → Option (Option Uuid)
  | worker p =>
    match p.pc with
    | .fetchAndLock j => some (some j)
    | .loop => some none
    | _ => none
  | _ => none

/-- A call of `priority_reserve_job` by worker `w` alone returns, and then `Q` holds of its answer. -/
abbrev ReservesJob (env : Env) (w : WorkerId) (p : Worker) (st : Store) (Q : Option Uuid → Store → Prop) : Prop :=
  Eventually (fun x => x.2.reserving = false) (fun _ m => m.choice.fault = .none) (Solo.step env w)
    (st, .worker (p.at' (.poll Queue.ordered))) fun _ x => ∃ o, x.2.answer? = some o ∧ Q o x.1

/-- `n` calls, of whatever workers, return one after the other, and then `Q` holds of their answers. -/
def AfterCalls (env : Env) : ℕ → Store → (List (Option Uuid) → Store → Prop) → Prop
  | 0, st, Q => Q [] st
  | n + 1, st, Q => ∀ w p, ReservesJob env w p st fun o st' => AfterCalls env n st' fun os => Q (o :: os)

namespace Redis
variable {r r' : Redis}

/-- The answer to the oldest waiting id, and its move. -/
structure Answers (r : Redis) (o : Option Uuid) (r' : Redis) : Prop where
  answer : o = r.waiting.head?
  waiting : r'.waiting = r.waiting.tail
  processing : r'.processing = o.toList ++ r.processing

theorem waiting_rpop (h : r.rpop q = (r', some j)) (habove : ∀ q' ∈ q.above, r.lists q' = []) :
    r.waiting = j :: r'.waiting := by
  obtain ⟨hl, hr'⟩ := rpop_eq_some h
  have hne (q' : Queue) (hq : q' ≠ q) : r'.lists q' = r.lists q' := by
    rw [hr', lists_setList, Function.update_of_ne hq]
  cases q with
  | high =>
    rw [waiting, waiting, hl, hne .default (by decide), hne .low (by decide)]
    simp
  | default =>
    rw [waiting, waiting, hl, hne .high (by decide), hne .low (by decide), habove .high (by decide)]
    simp
  | low =>
    rw [waiting, waiting, hl, hne .high (by decide), hne .default (by decide), habove .high (by decide),
      habove .default (by decide)]
    simp

theorem answers_rpoplpush (h : r.rpoplpush q = (r', some j)) (habove : ∀ q' ∈ q.above, r.lists q' = []) :
    r.Answers (some j) r' := by
  obtain ⟨r₁, hpop, rfl⟩ := rpoplpush_eq_some h
  have hw := waiting_rpop hpop habove
  exact ⟨by rw [hw]; rfl, by rw [hw]; rfl, congrArg (j :: ·) (processing_rpop hpop)⟩

theorem answers_nil (h : ∀ q ∈ Queue.ordered, r.lists q = []) : r.Answers none r := by
  have hw : r.waiting = [] := by
    rw [waiting, h .high (by decide), h .default (by decide), h .low (by decide)]
    rfl
  exact ⟨by rw [hw]; rfl, by rw [hw]; rfl, rfl⟩

end Redis

theorem reserves_poll (env : Env) (w : WorkerId) (p : Worker) {qs : List Queue} {st : Store}
    (hsuffix : qs <:+ Queue.ordered) (hempty : ∀ q ∈ Queue.ordered, q ∉ qs → st.redis.lists q = []) :
    Eventually (fun x => x.2.reserving = false) (fun _ m => m.choice.fault = .none) (Solo.step env w)
      (st, .worker (p.at' (.poll qs))) fun _ x => ∃ o, x.2.answer? = some o ∧ st.redis.Answers o x.1.redis := by
  induction qs generalizing st with
  | nil =>
    have hop : Worker.next w (p.at' (.poll [])) = some _ := rfl
    have hnil (q : Queue) (hq : q ∈ Queue.ordered) : st.redis.lists q = [] := hempty q hq List.not_mem_nil
    refine Solo.eventually_return (by simp [Proc.reserving, Worker.Pc.reserving, Worker.at'])
      (Worker.next_proc env hop) fun m st' o hrun => ?_
    obtain ⟨hpop, -⟩ := Call.run_brpop hrun
    rw [show (st.wait m.elapsed).redis = st.redis from rfl, Redis.brpop_of_nil hnil] at hpop
    obtain ⟨hredis, rfl⟩ := Prod.mk.inj hpop
    exact .done rfl ⟨none, rfl, hredis ▸ Redis.answers_nil hnil⟩
  | cons q qs ih =>
    have hop : Worker.next w (p.at' (.poll (q :: qs))) = some _ := rfl
    refine Solo.eventually_return (by simp [Proc.reserving, Worker.Pc.reserving, Worker.at'])
      (Worker.next_proc env hop) fun m st' o hrun => ?_
    obtain ⟨hpop, -⟩ := Call.run_rpoplpush hrun
    cases o with
    | none =>
      have hredis : st'.redis = st.redis := Redis.rpoplpush_eq_none hpop
      obtain ⟨_, hq, _⟩ := Redis.rpop_of_rpoplpush hpop
      have hempty' (q' : Queue) (hq' : q' ∈ Queue.ordered) (hn : q' ∉ qs) : st'.redis.lists q' = [] := by
        rw [hredis]
        by_cases hqq : q' = q
        · subst hqq
          exact Redis.lists_of_rpop_eq_none hq
        · exact hempty q' hq' (by simp [hqq, hn])
      have hrest := ih ((List.suffix_cons q qs).trans hsuffix) hempty'
      rw [hredis] at hrest
      exact hrest
    | some j =>
      have habove (q' : Queue) (hq' : q' ∈ q.above) : st.redis.lists q' = [] := by
        obtain ⟨hord, hn⟩ := above_of_suffix hsuffix q' hq'
        exact hempty q' hord hn
      exact .done rfl ⟨some j, rfl, Redis.answers_rpoplpush hpop habove⟩

theorem reservesJob (env : Env) (w : WorkerId) (p : Worker) (st : Store) :
    ReservesJob env w p st fun o st' => st.redis.Answers o st'.redis :=
  reserves_poll env w p List.suffix_rfl fun _ hq hn => absurd hq hn

theorem AfterCalls.mono {n : ℕ} {st : Store} {Q Q' : List (Option Uuid) → Store → Prop} (h : AfterCalls env n st Q)
    (hQ : ∀ os st', Q os st' → Q' os st') : AfterCalls env n st Q' := by
  induction n generalizing st Q Q' with
  | zero => exact hQ _ _ h
  | succ n ih =>
    intro w p
    refine (h w p).mono fun tr x hx => ?_
    obtain ⟨o, ho, hrest⟩ := hx
    exact ⟨o, ho, ih hrest fun os st' => hQ (o :: os) st'⟩

/-- Successive calls return the waiting ids one by one and then `None`, and move just these. -/
theorem afterCalls (env : Env) (n : ℕ) (st : Store) : AfterCalls env n st fun os st' =>
    os = (List.range n).map (fun i => st.redis.waiting[i]?) ∧ st'.redis.waiting = st.redis.waiting.drop n ∧
      st'.redis.processing = (st.redis.waiting.take n).reverse ++ st.redis.processing := by
  induction n generalizing st with
  | zero => exact ⟨rfl, rfl, rfl⟩
  | succ n ih =>
    intro w p
    refine (reservesJob env w p st).mono fun tr x hx => ?_
    obtain ⟨o, ho, hanswer, hwaiting, hprocessing⟩ := hx
    refine ⟨o, ho, (ih x.1).mono fun os st' hos => ?_⟩
    obtain ⟨hos, hw, hp⟩ := hos
    rw [hwaiting] at hos hw hp
    refine ⟨?_, ?_, ?_⟩
    · rw [hos, hanswer, List.range_succ_eq_map, List.map_cons, List.map_map, List.head?_eq_getElem?]
      refine congrArg (List.cons _) (List.map_congr_left fun i _ => ?_)
      exact List.getElem?_tail
    · rw [hw, List.drop_tail]
    · rw [hp, hprocessing, hanswer]
      cases st.redis.waiting <;> simp

/-- The order in which `priority_reserve_job` serves the tiers. -/
structure ReservationOrder (env : Env) : Prop where
  /-- What is popped off a tier, by whatever calls, is what was there and what was pushed, in this order. -/
  fifo {s₀ s : State} {tr : List (State × Action)} (q : Queue) : Run (Reserving env) (step env) s₀ tr s →
    onQueue q (flow (State.takes env) tr) ++ (s.store.redis.lists q).reverse =
      (s₀.store.redis.lists q).reverse ++ onQueue q (flow (State.pushes env) tr)
  /-- What the calls of a worker return is what they have popped, each of it once, but for an id on its way to
  `queue:processing`. -/
  once {s₀ s : State} {tr : List (State × Action)} (pid : Nat) : s₀.NoneReserving →
    Run (Reserving env) (step env) s₀ tr s →
    flow (State.returns env pid) tr ++ (s.popped? pid).toList = flow (State.takesBy env pid) tr
  /-- An id is returned by at most as many calls as it was there and was pushed. -/
  atMostOnce {s₀ s : State} {tr : List (State × Action)} (j : Uuid) : s₀.NoneReserving →
    Run (Reserving env) (step env) s₀ tr s → (flow (State.returned env) tr).count j ≤
      s₀.store.redis.waiting.count j + ((flow (State.pushes env) tr).map Prod.snd).count j
  /-- A call that pops an id has found every higher tier empty, now or in an earlier step. -/
  tiers {s₀ s s' : State} {tr : List (State × Action)} {a : Action} {pid : Nat} {q : Queue} {j : Uuid} :
    s₀.NoneReserving → Run (Reserving env) (step env) s₀ tr s → step env s a = some s' → a.runs? = some pid →
    (q, j) ∈ s.takes env a → ∀ q' ∈ q.above, s.store.redis.lists q' = [] ∨ FoundEmpty pid q' tr
  /-- The steps of a call that returns `None` change nothing. -/
  none {s₁ s : State} {tr : List (State × Action)} {pid : Nat} : ReturnsNone env pid s₁ tr s →
    ∀ x ∈ tr, x.2.runs? = some pid → ∀ s', step env x.1 x.2 = some s' → s'.store = x.1.store
  drain (n : ℕ) (st : Store) : AfterCalls env n st fun os st' =>
    os = (List.range n).map (fun i => st.redis.waiting[i]?) ∧ st'.redis.waiting = st.redis.waiting.drop n ∧
      st'.redis.processing = (st.redis.waiting.take n).reverse ++ st.redis.processing

theorem onQueue_flow {g : State → Action → List (Queue × Uuid)} :
    onQueue q (flow g tr) = flow (fun s a => onQueue q (g s a)) tr := by
  induction tr with
  | nil => rfl
  | cons x tr ih => rw [flow_cons, flow_cons, onQueue_append, ih]

theorem count_onQueue (l : List (Queue × Uuid)) :
    tally (fun q => (onQueue q l).count j) Queue.ordered = (l.map Prod.snd).count j := by
  induction l with
  | nil => rfl
  | cons x l ih =>
    obtain ⟨q, i⟩ := x
    simp only [Queue.ordered, tally_cons, tally_nil, onQueue, List.map_cons, List.count_cons] at ih ⊢
    cases q <;> simp [List.count_cons] <;> omega

section
variable {s₀ : State} (h : Run (Reserving env) (step env) s₀ tr s)
include h

theorem fifo_of_run (q : Queue) : onQueue q (flow (State.takes env) tr) ++ (s.store.redis.lists q).reverse =
    (s₀.store.redis.lists q).reverse ++ onQueue q (flow (State.pushes env) tr) := by
  rw [onQueue_flow, onQueue_flow]
  exact h.first_out fun s a s' ha hs => first_out_of_step ha hs q

theorem once_of_run (h₀ : s₀.NoneReserving) (pid : Nat) :
    flow (State.returns env pid) tr ++ (s.popped? pid).toList = flow (State.takesBy env pid) tr := by
  let queue (s : State) : List Uuid := (s.popped? pid).toList
  have hflow : flow (State.returns env pid) tr ++ queue s = queue s₀ ++ flow (State.takesBy env pid) tr :=
    h.first_out fun s a s' ha hs => returns_of_step ha hs
  rw [show queue s₀ = [] from congrArg Option.toList (NoneReserving.popped? h₀)] at hflow
  exact hflow

theorem tiers_of_run (h₀ : s₀.NoneReserving) (hpid : a.runs? = some pid) (ht : (q, j) ∈ s.takes env a) :
    ∀ q' ∈ q.above, s.store.redis.lists q' = [] ∨ FoundEmpty pid q' tr := by
  intro q' hq'
  have hI : Polled pid tr s := h.invariant_trace (I := fun tr s => Polled pid tr s) (NoneReserving.polled h₀)
    fun _ _ _ _ _ hI _ hs => polled_step hI hs
  rcases polls_of_takes hpid ht with ⟨qs, hpolls⟩ | hempty
  · obtain ⟨hsuffix, hfound⟩ := hI _ hpolls
    obtain ⟨hord, hn⟩ := above_of_suffix hsuffix q' hq'
    exact .inr (hfound q' hord hn)
  · exact .inl (hempty q' hq')

/-- What is popped off the lists together was there or was pushed. -/
theorem count_takes_le (j : Uuid) : ((flow (State.takes env) tr).map Prod.snd).count j ≤
    s₀.store.redis.waiting.count j + ((flow (State.pushes env) tr).map Prod.snd).count j := by
  have hq (q : Queue) := congrArg (List.count j) (fifo_of_run h q)
  simp only [List.count_append, List.count_reverse] at hq
  have hhigh := hq .high
  have hdefault := hq .default
  have hlow := hq .low
  simp only [← count_onQueue, Redis.waiting, List.count_append, List.count_reverse, Queue.ordered, tally_cons,
    tally_nil]
  omega

/-- What all calls have returned and are about to return is what they have popped. -/
theorem count_returned (h₀ : s₀.NoneReserving) (j : Uuid) :
    (flow (State.returned env) tr).count j + tally (Proc.popping j) s.procs =
      ((flow (State.takes env) tr).map Prod.snd).count j := by
  let popping (s : State) : ℕ := tally (Proc.popping j) s.procs
  have hbalance : popping s + total (fun s a => (s.returned env a).count j) tr =
      popping s₀ + total (fun s a => ((s.takes env a).map Prod.snd).count j) tr :=
    h.balance fun s a s' ha hs => popping_of_step ha hs
  have hnone : popping s₀ = 0 := tally_eq_zero fun p hp => by
    rw [Proc.popping, popped?_of_not_reserving (h₀ p hp)]
    exact indicator_neg (Option.some_ne_none j).symm
  rw [map_flow, count_flow, count_flow]
  show total _ tr + popping s = _
  omega

end

theorem reservationOrder (env : Env) : ReservationOrder env where
  fifo q h := fifo_of_run h q
  once pid h₀ h := once_of_run h h₀ pid
  atMostOnce j h₀ h := (Nat.le_add_right _ _).trans ((count_returned h h₀ j).trans_le (count_takes_le h j))
  tiers h₀ h _ hpid ht := tiers_of_run h h₀ hpid ht
  none h := h.store_eq
  drain n st := afterCalls env n st

/-- Job 8 waits in `queue:low` when job 7 comes into `queue:high`; worker 2 takes 7 in its first poll. -/
def takenFirst : List Action :=
  [.spawn (.submit { report with priority := -1 }), .run 0 {}, .run 0 { freshId := 8 }, .run 0 {},
    .spawn (.submit { report with priority := 5 }), .run 1 {}, .run 1 { freshId := 7 }, .run 1 {},
    .spawn .worker] ++ calls 2 2

theorem noneReserving_init (t : Nat) : (State.init t).NoneReserving := fun _ hp => absurd hp List.not_mem_nil

theorem reservationOrder_taken : ∃ tr s, Run (Reserving minutely) (step minutely) (.init 0) tr s ∧
    s.store.redis.lists .low = [8] ∧ onQueue .high (flow (State.takes minutely) tr) = [7] ∧
    flow (State.returns minutely 2) tr = [7] := by
  obtain ⟨tr, s, h, hs⟩ : ∃ tr s, Run (Reserving minutely) (step minutely) (.init 0) tr s ∧ _ :=
    exists_run_of_exec takenFirst (fun tr s => s.store.redis.lists .low = [8] ∧ s.store.redis.lists .high = [] ∧
      onQueue .high (flow (State.pushes minutely) tr) = [7] ∧ flow (State.takesBy minutely 2) tr = [7] ∧
      s.popped? 2 = none) (by decide)
  obtain ⟨hlow, hhigh, hpushed, htaken, hpopped⟩ := of_decide_eq_true hs
  have hfifo := (reservationOrder minutely).fifo .high h
  have honce := (reservationOrder minutely).once 2 (noneReserving_init 0) h
  rw [hhigh, hpushed, List.reverse_nil, List.append_nil] at hfifo
  rw [hpopped, htaken, Option.toList_none, List.append_nil] at honce
  exact ⟨tr, s, h, hlow, hfifo, honce⟩

end DistribuQ
