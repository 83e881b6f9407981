import DistribuQ.Library.Flow
import DistribuQ.Proofs.Promotion

/-! What passes through the ready lists, and where an id is between its push and its acknowledgement. -/

namespace DistribuQ
open Transition
variable {env : Env} {s s' : State} {a : Action} {q : Queue} {i j : Uuid}

namespace Call

/-- What a call pushes onto the ready lists, in order. -/
def pushes (r : Redis) : Call → List (Queue × Uuid)
  | lpush q j => [(q, j)]
  | promoteScheduled q t => (r.scheduled.rangeTo t).map fun j => (q, j)
  | _ => []

/-- What a call pops off the ready lists. -/
def takes (r : Redis) : Call → List (Queue × Uuid)
  | rpoplpush q => ((r.rpop q).2.map fun j => (q, j)).toList
  | brpop qs => (r.brpop qs).2.toList
  | _ => []

/-- The calls that change a ready list other than by a push at its left end or a pop at its right. -/
def withdraws : Call → Bool
  | rpush .. | lrem .. => true
  | _ => false

def acks : Call → Bool
  | lremProcessing _ => true
  | _ => false

/-- The lists a call waits for. -/
def awaits : Call → List Queue
  | brpop qs => qs
  | _ => []

end Call

/-- The ids among the tokens of one queue. -/
def onQueue (q : Queue) (l : List (Queue × Uuid)) : List Uuid := (l.filter fun x => x.1 = q).map Prod.snd

namespace State

def pushes (env : Env) (s : State) (a : Action) : List (Queue × Uuid) :=
  (s.call? env a).elim [] fun x => x.2.pushes s.store.redis

def takes (env : Env) (s : State) (a : Action) : List (Queue × Uuid) :=
  (s.call? env a).elim [] fun x => x.2.takes s.store.redis

end State

section
variable {l l' : List (Queue × Uuid)} {q' : Queue}

@[simp] theorem onQueue_nil : onQueue q [] = [] := rfl

@[simp] theorem onQueue_append : onQueue q (l ++ l') = onQueue q l ++ onQueue q l' := by
  simp [onQueue]

@[simp] theorem onQueue_map_self (js : List Uuid) : onQueue q (js.map fun j => (q, j)) = js := by
  simp [onQueue, List.filter_map, Function.comp_def]

theorem onQueue_map_of_ne (h : q' ≠ q) (js : List Uuid) : onQueue q (js.map fun j => (q', j)) = [] := by
  simp [onQueue, List.filter_map, Function.comp_def, h]

end

namespace Redis
variable {r r' : Redis} {q' : Queue}

/-- What is taken off a list and what is left of it. -/
theorem takes_rpop {o : Option Uuid} (h : r.rpop q' = (r', o)) :
    onQueue q ((o.map fun j => (q', j)).toList) ++ (r'.lists q).reverse = (r.lists q).reverse := by
  cases o with
  | none =>
    rw [rpop_eq_none h]
    rfl
  | some j =>
    obtain ⟨hl, hr'⟩ := rpop_eq_some h
    by_cases hq : q' = q
    · subst hq
      rw [hl, List.reverse_append]
      exact congrArg (· ++ _) (onQueue_map_self [j])
    · rw [hr', lists_setList, Function.update_of_ne (Ne.symm hq)]
      exact congrArg (· ++ _) (onQueue_map_of_ne hq [j])

theorem rpop_of_rpoplpush {o : Option Uuid} (h : r.rpoplpush q = (r', o)) :
    ∃ r₁, r.rpop q = (r₁, o) ∧ r'.lists = r₁.lists := by
  unfold rpoplpush at h
  split at h
  · rename_i r₁ hr
    cases h
    exact ⟨r', hr, rfl⟩
  · rename_i r₁ j hr
    cases h
    exact ⟨r₁, hr, rfl⟩

theorem pushes_setList (js : List Uuid) :
    ((r.setList q' (js.reverse ++ r.lists q')).lists q).reverse =
      (r.lists q).reverse ++ onQueue q (js.map fun j => (q', j)) := by
  by_cases hq : q' = q
  · subst hq
    rw [lists_setList, Function.update_self, List.reverse_append, List.reverse_reverse, onQueue_map_self]
  · rw [lists_setList, Function.update_of_ne (Ne.symm hq), onQueue_map_of_ne hq, List.append_nil]

end Redis

namespace Call
variable {ch : Choice} {st st' : Store} {c : Call}

/-- What a call does to the ready lists and to `queue:processing`. -/
inductive Handles (r r' : Redis) : Call → Prop
  | pushed {c : Call} {q : Queue} (js : List Uuid) : c.pushes r = js.map (fun j => (q, j)) → c.takes r = [] →
      r'.lists = (r.setList q (js.reverse ++ r.lists q)).lists → r'.processing = r.processing →
      c.withdraws = false → Handles r r' c
  | reserved {q : Queue} {o : Option Uuid} : r.rpoplpush q = (r', o) → Handles r r' (rpoplpush q)
  | popped {qs : List Queue} {o : Option (Queue × Uuid)} : r.brpop qs = (r', o) → Handles r r' (brpop qs)
  | put (j : Uuid) : r' = r.lpushProcessing j → Handles r r' (lpushProcessing j)
  | acked (j : Uuid) : r' = r.lremProcessing j → Handles r r' (lremProcessing j)
  | withdrawn {c : Call} : c.withdraws = true → Handles r r' c
  | none {c : Call} : c.pushes r = [] → c.takes r = [] → r'.lists = r.lists → r'.processing = r.processing →
      Handles r r' c

theorem handles_of_run {x : c.Ret} (h : c.run env ch st = some (st', x)) : c.Handles st.redis st'.redis := by
  cases c <;> simp only [run, Option.some.injEq, Option.map_eq_some_iff, Prod.exists] at h
  case lpush q j =>
    cases h
    exact .pushed [j] rfl rfl rfl rfl rfl
  case promoteScheduled q t =>
    cases h
    obtain ⟨hl, _, hp⟩ := Redis.promote_eq (q := q) (st.redis.scheduled.rangeTo t) st.redis
    exact .pushed (st.redis.scheduled.rangeTo t) rfl rfl hl hp rfl
  case rpush | lrem => exact .withdrawn rfl
  case rpoplpush =>
    cases h
    exact .reserved rfl
  case brpop =>
    cases h
    exact .popped rfl
  case lpushProcessing j =>
    cases h
    exact .put j rfl
  case lremProcessing j =>
    cases h
    exact .acked j rfl
  case scheduleNextOccurrence | createJob =>
    obtain ⟨_, _, _, h⟩ := h
    cases h
    exact .none rfl rfl rfl rfl
  case moveToDeadLetter =>
    obtain ⟨_, _, h⟩ := h
    cases h
    exact .none rfl rfl rfl rfl
  all_goals
    cases h
    exact .none rfl rfl rfl rfl

/-- What a call pops off a list was the oldest there, and what it pushes becomes the youngest. -/
theorem Handles.first_out {r r' : Redis} (h : c.Handles r r') (hc : c.withdraws = false) (q : Queue) :
    onQueue q (c.takes r) ++ (r'.lists q).reverse = (r.lists q).reverse ++ onQueue q (c.pushes r) := by
  cases h with
  | pushed js hpushes htakes hlists =>
    rw [hpushes, htakes, hlists, Redis.pushes_setList]
    rfl
  | @reserved q' o hr =>
    obtain ⟨r₁, hpop, hlists⟩ := Redis.rpop_of_rpoplpush hr
    simp only [takes, pushes, hpop, hlists, onQueue_nil, List.append_nil]
    exact Redis.takes_rpop hpop
  | @popped qs o hr =>
    simp only [takes, pushes, hr, onQueue_nil, List.append_nil]
    rcases o with _ | ⟨q', j⟩
    · rw [Redis.brpop_eq_none hr]
      rfl
    · exact Redis.takes_rpop (Redis.brpop_eq_some hr)
  | put _ hr | acked _ hr =>
    rw [hr]
    exact (List.append_nil _).symm
  | withdrawn hw => cases hw.symm.trans hc
  | none hpushes htakes hlists =>
    rw [hpushes, htakes, hlists, onQueue_nil, List.nil_append, List.append_nil]

end Call

namespace Redis
variable {r r' : Redis} {q' : Queue} {l : List Uuid}

/-- The ids in the ready lists and in `queue:processing`. -/
def custody (r : Redis) : Custody Uuid :=
  ⟨(r.lists .high : Multiset Uuid) + r.lists .default + r.lists .low, r.processing⟩

theorem waiting_setList : (r.setList q l).custody.waiting + r.lists q = r.custody.waiting + l := by
  cases q <;> simp only [custody, setList, ne_eq, reduceCtorEq, not_false_eq_true, Function.update_self,
    Function.update_of_ne] <;> abel

theorem custody_congr (hl : r'.lists = r.lists) (hp : r'.processing = r.processing) : r'.custody = r.custody := by
  unfold custody
  rw [hl, hp]

theorem custody_setList (js : List Uuid) (hl : r'.lists = (r.setList q (js.reverse ++ r.lists q)).lists)
    (hp : r'.processing = r.processing) : Custody.Step js r.custody r'.custody := by
  have hw : r'.custody = ⟨r.custody.waiting + js, r.custody.taken⟩ := by
    rw [custody_congr (r := r.setList q (js.reverse ++ r.lists q)) hl hp]
    have hset := waiting_setList (r := r) (q := q) (l := js.reverse ++ r.lists q)
    rw [← Multiset.coe_add, Multiset.coe_reverse, ← add_assoc] at hset
    exact congrArg (Custody.mk · _) (add_right_cancel hset)
  rw [hw]
  exact .push js _ _

/-- A pop takes the id out of both. -/
theorem custody_rpop (h : r.rpop q = (r', some j)) :
    r.custody = ⟨j ::ₘ r'.custody.waiting, r'.custody.taken⟩ := by
  obtain ⟨hl, hr'⟩ := rpop_eq_some h
  have hset := waiting_setList (r := r) (q := q) (l := (r.lists q).dropLast)
  rw [← hr'] at hset
  have hdrop : (r.lists q).dropLast = r'.lists q := by
    rw [hr', lists_setList, Function.update_self]
  rw [hdrop, hl, ← Multiset.coe_add, add_comm (r'.lists q : Multiset Uuid), ← add_assoc] at hset
  have hw := add_right_cancel hset
  rw [Multiset.coe_singleton, add_comm, Multiset.singleton_add] at hw
  have hp : r.custody.taken = r'.custody.taken := by rw [hr']; rfl
  exact congrArg₂ Custody.mk hw.symm hp

end Redis

/-- Where an id is that a worker has popped and not yet put into `queue:processing`. -/
def Worker.Pc.popped? : Worker.Pc → Option Uuid
  | lpushProcessing j => some j
  | _ => none

def State.NonePopped (s : State) : Prop := ∀ p ∈ s.procs, p.ofPc Worker.Pc.popped? = none

/-- The step acknowledges, requeues and cancels nothing. -/
def BeforeAck (env : Env) (s : State) (a : Action) : Prop :=
  ∀ x ∈ s.call? env a, x.2.withdraws = false ∧ x.2.acks = false

/-- A `BRPOP` finds all its lists empty. -/
def PopsNothing (env : Env) (s : State) (a : Action) : Prop :=
  ∀ x ∈ s.call? env a, ∀ q ∈ x.2.awaits, s.store.redis.lists q = []

instance (env : Env) (s : State) (a : Action) : Decidable (BeforeAck env s a) :=
  inferInstanceAs (Decidable (∀ x ∈ s.call? env a, _))

instance (env : Env) (s : State) (a : Action) : Decidable (PopsNothing env s a) :=
  inferInstanceAs (Decidable (∀ x ∈ s.call? env a, _))

/-- The ids pushed by a step. -/
def State.pushed (env : Env) (s : State) (a : Action) : List Uuid := (s.pushes env a).map Prod.snd

/-- In every state of the run what waits and what is in `queue:processing` is together what was there and what
was pushed since, and an id goes from a ready list to `queue:processing` in one step. -/
structure ReservesAtomically (env : Env) (s₀ : State) (tr : List (State × Action)) : Prop where
  kept : ∀ tr' s', tr' <+: tr → Run Unrestricted (step env) s₀ tr' s' →
    s'.store.redis.custody.all = s₀.store.redis.custody.all + flow (State.pushed env) tr'
  moves : ∀ x ∈ tr, ∀ s', step env x.1 x.2 = some s' →
    Custody.Step (x.1.pushed env x.2) x.1.store.redis.custody s'.store.redis.custody

theorem popped?_of_goes {w : WorkerId} {ch : Choice} {st st' : Store} {pc pc' : Worker.Pc} {c : Call}
    (h : pc.Goes env w ch st st' c pc') (hj : pc'.popped? = some j) : ch.fault = .none ∧
      c = .brpop Queue.ordered ∧ ∃ q, (st.redis.brpop Queue.ordered).2 = some (q, j) := by
  cases h with
  | popped hf hr =>
    cases hj
    exact ⟨hf, rfl, _, congrArg Prod.snd (Option.some.inj hr)⟩
  | raised | successFault =>
    have hnone (job : LockedJob) (e : String) : (Worker.onFailure job e).popped? = none :=
      Worker.onFailure_cases (P := fun pc => pc.popped? = none) e (fun _ => rfl) fun _ => rfl
    cases (hnone _ _).symm.trans hj
  | emitSuccess =>
    have hnone (job : LockedJob) : (Worker.afterSuccess job).popped? = none :=
      Worker.afterSuccess_cases (P := fun pc => pc.popped? = none) (fun _ => rfl) rfl
    cases (hnone _).symm.trans hj
  | _ => cases hj

/-- The commands of `priority_reserve_job`. -/
def Call.reserves : Call → Bool
  | rpoplpush _ | brpop _ | lpushProcessing _ => true
  | _ => false

/-- A worker inside `priority_reserve_job`. -/
def Worker.Pc.reserving : Worker.Pc → Bool
  | poll _ | lpushProcessing _ => true
  | _ => false

def Proc.reserving : Proc → Bool
  | worker p => p.pc.reserving
  | _ => false

theorem reserver_of_next {pid : Nat} {p : Proc} {op : Op Proc} (hop : p.next env pid = some op)
    (hc : op.call.reserves = true) : ∃ w, p = .worker w ∧ w.pc.reserving = true := by
  cases p with
  | worker w =>
    refine ⟨w, rfl, ?_⟩
    obtain ⟨pc, _, _⟩ := w
    cases pc with
    | poll | lpushProcessing => rfl
    | _ => cases hop <;> cases hc
  | submit pc =>
    obtain ⟨_, hnext, rfl⟩ := Option.map_eq_some_iff.mp hop
    cases Submit.does_of_next hnext <;> cases hc
  | cancel pc | replay pc => cases pc <;> cases hop <;> cases hc
  | scheduler w =>
    obtain ⟨pc, _, _⟩ := w
    cases pc <;> cases hop <;> cases hc
  | reaper w =>
    obtain ⟨_, _, pc, _⟩ := w
    cases pc <;> cases hop <;> cases hc
  | gone => cases hop

theorem popped?_of_call? {pid : Nat} (h : s.call? env a = some (pid, .lpushProcessing j)) :
    ∃ p ∈ s.procs, p.ofPc Worker.Pc.popped? = some j := by
  obtain ⟨ch, p, op, hp, ⟨rfl, hop⟩ | ⟨rfl, hop⟩, hc⟩ := call?_eq_some h
  · refine ⟨p, List.mem_of_getElem? hp, ?_⟩
    obtain ⟨⟨pc, _, _⟩, rfl, hpc⟩ := reserver_of_next hop (by rw [hc]; rfl)
    cases pc with
    | lpushProcessing i =>
      cases hop
      cases hc
      rfl
    | poll qs => cases qs <;> cases hop <;> cases hc
    | _ => cases hpc
  · obtain ⟨n, rfl⟩ := heartbeat_eq_some hop
    cases hc

theorem Redis.brpop_of_nil {r : Redis} {qs : List Queue} (h : ∀ q ∈ qs, r.lists q = []) :
    r.brpop qs = (r, none) := by
  induction qs with
  | nil => rfl
  | cons q qs ih =>
    rw [List.forall_mem_cons] at h
    rw [brpop, rpop, h.1]
    exact ih h.2

theorem custody_of_step (hp : s.NonePopped) (hb : BeforeAck env s a) (hn : PopsNothing env s a)
    (h : step env s a = some s') :
    Custody.Step (s.pushed env a) s.store.redis.custody s'.store.redis.custody := by
  rcases store_of_step h with ⟨pid, ch, c, x, hc, hx⟩ | ⟨hnone, _, hredis⟩
  · obtain ⟨hwithdraws, hack⟩ := hb _ hc
    have hpushed : s.pushed env a = (c.pushes s.store.redis).map Prod.snd := by
      rw [State.pushed, State.pushes, hc]
      rfl
    rw [hpushed]
    cases Call.handles_of_run hx with
    | pushed js hpushes _ hlists hproc =>
      rw [hpushes, List.map_map]
      have hstep := Redis.custody_setList js hlists hproc
      simpa [Function.comp_def] using hstep
    | @reserved q o hr =>
      cases o with
      | none =>
        rw [Redis.rpoplpush_eq_none hr]
        exact .rest _
      | some j =>
        obtain ⟨r₁, hpop, hput⟩ := Redis.rpoplpush_eq_some hr
        rw [Redis.custody_rpop hpop, hput]
        exact .reserve j _ _
    | @popped qs o hr =>
      have hnil : ∀ q ∈ qs, s.store.redis.lists q = [] := hn _ hc
      rw [Redis.brpop_of_nil hnil] at hr
      obtain ⟨hredis, rfl⟩ := Prod.mk.inj hr
      rw [← hredis]
      exact .rest _
    | put j =>
      obtain ⟨p, hmem, hpop⟩ := popped?_of_call? hc
      cases (hp p hmem).symm.trans hpop
    | acked j => cases hack
    | withdrawn hw => cases hw.symm.trans hwithdraws
    | none hpushes _ hlists hproc =>
      rw [hpushes, Redis.custody_congr hlists hproc]
      exact .rest _
  · rw [State.pushed, State.pushes, hnone, hredis]
    exact .rest _

theorem nonePopped_step (hp : s.NonePopped) (hn : PopsNothing env s a) (h : step env s a = some s') :
    s'.NonePopped := by
  intro p' hmem
  obtain ⟨i, hp'⟩ := List.mem_iff_getElem?.mp hmem
  cases became_of_step h hp' with
  | kept hp₁ => exact hp p' (List.mem_of_getElem? hp₁)
  | spawned r hr =>
    rw [hr]
    exact Request.ofPc_toProc rfl r
  | signalled p₁ hp₁ hr =>
    rw [hr, Proc.ofPc_signal]
    exact hp p₁ (List.mem_of_getElem? hp₁)
  | crashed hr =>
    rw [hr]
    rfl
  | @ran p ch op hp₁ hop he =>
    cases Proc.goes_of_next hop he with
    | @worker w w' _ hnext hcall hends =>
      show w'.pc.popped? = none
      cases hj : w'.pc.popped? with
      | none => rfl
      | some j =>
        obtain ⟨hf, hc, q, hpop⟩ := popped?_of_goes (Worker.goes_of_next hnext hends) hj
        have hmade := call?_of_no_fault hp₁ (.inl ⟨rfl, hop⟩) hf
        rw [← hcall, hc] at hmade
        have hnil : ∀ q ∈ Queue.ordered, s.store.redis.lists q = [] := hn _ hmade
        rw [Redis.brpop_of_nil hnil] at hpop
        cases hpop
    | _ => rfl

theorem Redis.brpop_eq_none_iff {r : Redis} {qs : List Queue} :
    (r.brpop qs).2 = none ↔ ∀ q ∈ qs, r.lists q = [] := by
  refine ⟨fun h => ?_, fun h => by rw [brpop_of_nil h]⟩
  induction qs with
  | nil => exact fun q hq => absurd hq List.not_mem_nil
  | cons q qs ih =>
    unfold brpop at h
    split at h
    · cases h
    · rename_i hr
      exact List.forall_mem_cons.mpr ⟨lists_of_rpop_eq_none hr, ih h⟩

theorem not_moves_of_popped {pid : Nat} {qs : List Queue} (hc : s.call? env a = some (pid, .brpop qs))
    (hne : ¬ ∀ q ∈ qs, s.store.redis.lists q = []) (h : step env s a = some s') :
    ¬ Custody.Step (s.pushed env a) s.store.redis.custody s'.store.redis.custody := by
  intro hmove
  obtain ⟨⟨q, j⟩, hpop⟩ := Option.ne_none_iff_exists'.mp (mt Redis.brpop_eq_none_iff.mp hne)
  obtain ⟨ch, x, hx⟩ := run_of_call? h hc
  have hredis : (s.store.redis.brpop qs).1 = s'.store.redis :=
    congrArg (fun y : Store × _ => y.1.redis) (Option.some.inj hx)
  have htaken := Redis.custody_rpop (Redis.brpop_eq_some (Prod.ext hredis hpop))
  have hpushed : s.pushed env a = [] := by
    rw [State.pushed, State.pushes, hc]
    rfl
  -- the id is gone from what waits and what is held
  have hall := hmove.all_eq
  rw [hpushed, htaken] at hall
  have hcard := congrArg Multiset.card hall
  simp [Custody.all] at hcard

theorem reservesAtomically_iff {s₀ : State} {tr : List (State × Action)}
    (h : Run (BeforeAck env) (step env) s₀ tr s) (hp : s₀.NonePopped) :
    ReservesAtomically env s₀ tr ↔ ∀ x ∈ tr, PopsNothing env x.1 x.2 := by
  constructor
  · rintro law x hx ⟨pid, c⟩ hc q hq
    obtain ⟨_, s', hs⟩ := h.of_mem x hx
    cases c with
    | brpop qs =>
      by_contra hne
      exact not_moves_of_popped hc (fun hall => hne (hall q hq)) hs (law.moves x hx s' hs)
    | _ => cases hq
  · intro hnothing
    let ok (s : State) (a : Action) : Prop := BeforeAck env s a ∧ PopsNothing env s a ∧ s.NonePopped
    have hrun {tr' : List (State × Action)} {s' : State} (hsub : tr' <+: tr)
        (h' : Run Unrestricted (step env) s₀ tr' s') : Run ok (step env) s₀ tr' s' := by
      have hall : Run (fun s a => BeforeAck env s a ∧ PopsNothing env s a) (step env) s₀ tr' s' :=
        h'.of_forall_mem fun x hx => ⟨(h.of_mem x (hsub.subset hx)).1, hnothing x (hsub.subset hx)⟩
      exact hall.strengthen hp (fun s a s' hp ha hs => nonePopped_step hp ha.2 hs)
        fun s a hp ha => ⟨ha.1, ha.2, hp⟩
    refine ⟨fun tr' s' hsub h' => ?_, fun x hx s' hs => ?_⟩
    · let custody (s : State) : Custody Uuid := s.store.redis.custody
      have hmoves (s : State) (a : Action) (s' : State) (ha : ok s a) (hs : step env s a = some s') :
          Custody.Step (s.pushed env a) (custody s) (custody s') := custody_of_step ha.2.2 ha.1 ha.2.1 hs
      exact Custody.all_of_run (hrun hsub h') hmoves
    · have ha := ((hrun List.prefix_rfl (h.mono fun _ _ _ => trivial)).of_mem x hx).1
      exact custody_of_step ha.2.2 ha.1 ha.2.1 hs

theorem nonePopped_init (t : Nat) : (State.init t).NonePopped := fun _ hp => absurd hp List.not_mem_nil

/-- Job 7 is submitted, and worker 1 reserves it in its first pass. -/
theorem reservesAtomically_taken : ∃ tr s, Run (BeforeAck minutely) (step minutely) (.init 0) tr s ∧
    s.store.redis.processing = [7] ∧ ReservesAtomically minutely (.init 0) tr := by
  obtain ⟨tr, s, h, hs⟩ : ∃ tr s, Run (BeforeAck minutely) (step minutely) (.init 0) tr s ∧ _ :=
    exists_run_of_exec (taken report) (fun tr s => s.store.redis.processing = [7] ∧
      ∀ x ∈ tr, PopsNothing minutely x.1 x.2) (by decide)
  obtain ⟨hproc, hnothing⟩ := of_decide_eq_true hs
  exact ⟨tr, s, h, hproc, (reservesAtomically_iff h (nonePopped_init 0)).mpr hnothing⟩

/-- Worker 0 finds the lists empty one after another, then job 7 is pushed, and the worker pops it and
crashes. -/
def poppedAndCrashed : List Action :=
  [.spawn .worker] ++ calls 0 4 ++ [.spawn (.submit report), .run 1 {}, .run 1 { freshId := 7 }, .run 1 {},
    .run 0 {}, .crash 0]

theorem not_reservesAtomically : ∃ tr s, Run (BeforeAck minutely) (step minutely) (.init 0) tr s ∧
    (State.init 0).NonePopped ∧ ¬ ReservesAtomically minutely (.init 0) tr := by
  obtain ⟨tr, s, h, hs⟩ : ∃ tr s, Run (BeforeAck minutely) (step minutely) (.init 0) tr s ∧ _ :=
    exists_run_of_exec poppedAndCrashed (fun tr s => s.store.redis.custody.all ≠
      (State.init 0).store.redis.custody.all + flow (State.pushed minutely) tr) (by decide)
  refine ⟨tr, s, h, nonePopped_init 0, fun law => ?_⟩
  exact of_decide_eq_true hs (law.kept tr s List.prefix_rfl (h.mono fun _ _ _ => trivial))

end DistribuQ
