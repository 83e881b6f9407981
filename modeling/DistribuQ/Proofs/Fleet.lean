import DistribuQ.Library.Simulation
import DistribuQ.Model.Fleet
import DistribuQ.Proofs.Stopping

/-! Kill requests and the workers they reach, while the service goes on. -/

namespace DistribuQ

def KillSubscriber.kills : KillSubscriber → Nat
  | listening inbox => inbox.countP PubSubMessage.isKill
  | _ => 0

def Fault.takesEffect : Fault → Bool
  | raised _ => false
  | _ => true

namespace KillRequest

/-- The worker whose channel is next. -/
def target? : KillRequest → Option WorkerId
  | publish w => some w
  | _ => none

/-- The worker that the answer names. -/
def killed? : KillRequest → Option WorkerId
  | answered killed => killed
  | _ => none

def Names (r : KillRequest) (w : WorkerId) : Prop := r.target? = some w ∨ r.killed? = some w

end KillRequest

namespace Fleet
open Transition
variable {env : Env} {x x' : Fleet} {m : Action} {a : DistribuQ.Action} {s s' : State} {w pid k : Nat}
  {tr : List (Fleet × Action)}

/-- All that a step can do. -/
inductive Moves (env : Env) (x : Fleet) : Action → Fleet → Prop
  | service {a : DistribuQ.Action} {s : State} : DistribuQ.step env x.service (x.effect a) = some s →
      Moves env x (.service a) { x with service := s, subscribers := x.tasks a }
  | subscribed {pid : Nat} : x.subscriber? pid = some .connecting →
      Moves env x (.subscribe pid) (x.subscribe pid (some (.listening [.subscribe])))
  | killed {pid : Nat} {m : PubSubMessage} {inbox : List PubSubMessage} {s : State} :
      x.subscriber? pid = some (.listening (m :: inbox)) → m.isKill = true →
      DistribuQ.step env x.service (.signal pid) = some s →
      Moves env x (.listen pid) { x.subscribe pid none with service := s }
  | read {pid : Nat} {m : PubSubMessage} {inbox : List PubSubMessage} :
      x.subscriber? pid = some (.listening (m :: inbox)) → m.isKill = false →
      Moves env x (.listen pid) (x.subscribe pid (some (.listening inbox)))
  | disconnected {pid : Nat} {reconnects : Bool} {sub : KillSubscriber} : x.subscriber? pid = some sub →
      sub.isRaised = false →
      Moves env x (.disconnect pid reconnects)
        (x.subscribe pid (some (if reconnects then .connecting else .raised)))
  | posted : Moves env x .post { x with requests := x.requests ++ [.select] }
  | selected {k draw : Nat} {order : List WorkerId} {v : WorkerRow} :
      x.requests[k]? = some .select → x.service.store.db.workers.find? v.id = some v → v.status = .alive →
      Moves env x (.select k draw order false) (x.answer k (.publish v.id))
  | refused {k draw : Nat} {order : List WorkerId} {fails : Bool} {r : KillRequest} :
      x.requests[k]? = some .select → r = .answered none ∨ r = .raised →
      Moves env x (.select k draw order fails) (x.answer k r)
  | published {k : Nat} {fault : Fault} {w : WorkerId} {r : KillRequest} : x.requests[k]? = some (.publish w) →
      (∀ e, fault ≠ .raised e) → r = .answered (some w) ∨ r = .raised →
      Moves env x (.publish k fault) ((x.deliver w (.message "kill")).answer k r)
  | unpublished {k : Nat} {e : String} {w : WorkerId} : x.requests[k]? = some (.publish w) →
      Moves env x (.publish k (.raised e)) (x.answer k .raised)

theorem moves_of_step (h : step env x m = some x') : Moves env x m x' := by
  cases m with
  | service a =>
    obtain ⟨s, hs, rfl⟩ := Option.map_eq_some_iff.mp h
    exact .service hs
  | subscribe pid =>
    simp only [step] at h
    split at h
    · cases h
      exact .subscribed ‹_›
    · cases h
  | listen pid =>
    simp only [step] at h
    split at h
    · rename_i m inbox hsub
      by_cases hm : m.isKill = true
      · rw [if_pos hm] at h
        obtain ⟨s, hs, rfl⟩ := Option.map_eq_some_iff.mp h
        exact .killed hsub hm hs
      · rw [if_neg hm] at h
        cases h
        exact .read hsub (Bool.eq_false_iff.mpr hm)
    · cases h
  | disconnect pid reconnects =>
    simp only [step] at h
    split at h
    · cases h
      exact .disconnected ‹_› rfl
    · cases h
      exact .disconnected ‹_› rfl
    · cases h
  | post =>
    cases h
    exact .posted
  | select k draw order fails =>
    simp only [step] at h
    split at h
    · rename_i hk
      by_cases hfails : fails = true
      · rw [if_pos hfails] at h
        cases h
        exact .refused hk (.inr rfl)
      · obtain rfl := Bool.eq_false_iff.mpr hfails
        rw [if_neg hfails] at h
        split at h
        · cases h
          exact .refused hk (.inl rfl)
        · obtain ⟨v, hv, rfl⟩ := Option.map_eq_some_iff.mp h
          obtain ⟨hmem, halive⟩ := List.mem_filter.mp (List.mem_of_getElem? hv)
          have hrow : v ∈ x.service.store.db.workers.rows := by
            have hperm : (x.service.store.db.getWorkers order).Perm x.service.store.db.workers.rows :=
              (List.perm_insertionSort _ _).trans (Table.perm_inOrder _ _)
            exact hperm.subset hmem
          exact .selected hk ((Table.find?_eq_some _).mpr ⟨hrow, rfl⟩) (of_decide_eq_true halive)
    · cases h
  | publish k fault =>
    simp only [step] at h
    split at h
    · rename_i w hk
      cases fault with
      | none =>
        cases h
        exact .published hk (fun e he => by cases he) (.inl rfl)
      | raised e =>
        cases h
        exact .unpublished hk
      | lost e =>
        cases h
        exact .published hk (fun e he => by cases he) (.inr rfl)
    · cases h

/-- The next message of the subscriber of process `pid` is a kill. -/
def takesKill (x : Fleet) (pid : Nat) : Bool :=
  match x.subscriber? pid with
  | some (.listening (m :: _)) => m.isKill
  | _ => false

/-- What a step is for the service: a kill that is taken is a signal. -/
def serviceMove (x : Fleet) : Action → Option DistribuQ.Action
  | .service a => some (x.effect a)
  | .listen pid => if x.takesKill pid then some (.signal pid) else none
  | _ => none

def serviceTrace (tr : List (Fleet × Action)) : List (State × DistribuQ.Action) :=
  tr.filterMap fun y => (y.1.serviceMove y.2).map fun a => (y.1.service, a)

theorem service_of_step (h : step env x m = some x') : x.serviceMove m = none ∧ x'.service = x.service ∨
    ∃ a, x.serviceMove m = some a ∧ DistribuQ.step env x.service a = some x'.service := by
  cases moves_of_step h with
  | service hs => exact .inr ⟨_, rfl, hs⟩
  | killed hsub hm hs =>
    refine .inr ⟨_, ?_, hs⟩
    simp only [serviceMove, takesKill, hsub, hm, if_true]
  | read hsub hm =>
    refine .inl ⟨?_, rfl⟩
    simp [serviceMove, takesKill, hsub, hm]
  | _ => exact .inl ⟨rfl, rfl⟩

/-- What is asked of the steps of the service. -/
def Keeps (ok : State → DistribuQ.Action → Prop) (x : Fleet) (m : Action) : Prop :=
  ∀ a, x.serviceMove m = some a → ok x.service a

/-- With its kill channels the service does nothing that it cannot do under signals and crashes. -/
theorem service_of_run {ok : Fleet → Action → Prop} {ok' : State → DistribuQ.Action → Prop} {x₀ : Fleet}
    (h : Run ok (step env) x₀ tr x) (hok : ∀ x m a, ok x m → x.serviceMove m = some a → ok' x.service a) :
    Run ok' (DistribuQ.step env) x₀.service (serviceTrace tr) x.service := by
  refine h.project (f := Fleet.service) serviceMove fun x m x' hm hs => ?_
  exact (service_of_step hs).imp_right fun ⟨a, ha, hstep⟩ => ⟨a, ha, hok x m a hm ha, hstep⟩

theorem service_of_reachable {ok : State → DistribuQ.Action → Prop} (h : Reachable (Keeps ok) (step env) x x') :
    Reachable ok (DistribuQ.step env) x.service x'.service := by
  obtain ⟨tr, h⟩ := h
  exact (service_of_run h fun _ _ a hm ha => hm a ha).reachable

/-! The subscribers. -/

theorem subscriber?_subscribe {sub : KillSubscriber} {sub' : Option KillSubscriber}
    (h : x.subscriber? pid = some sub)
    (w : Nat) : (x.subscribe pid sub').subscriber? w = if pid = w then sub' else x.subscriber? w := by
  have hlt : pid < x.subscribers.length := by
    exact (List.getElem?_eq_some_iff.mp (Option.join_eq_some_iff.mp h)).1
  unfold subscriber? subscribe
  by_cases hw : pid = w
  · rw [if_pos hw, ← hw, List.getElem?_set_self hlt, Option.join_some]
  · rw [if_neg hw, List.getElem?_set_ne hw]

theorem subscriber?_deliver (w : WorkerId) (m : PubSubMessage) (v : Nat) : (x.deliver w m).subscriber? v =
    if w = v then (x.subscriber? v).map (KillSubscriber.deliver m) else x.subscriber? v := by
  unfold subscriber? deliver
  rw [List.getElem?_modify]
  cases x.subscribers[v]? with
  | none => split_ifs <;> rfl
  | some sub => split_ifs <;> rfl

/-- The subscriber of process `w` comes to its end. -/
def releases (x : Fleet) (w : Nat) : DistribuQ.Action → Bool
  | .run pid _ => pid = w && leaves x.service w
  | .crash pid => pid = w
  | _ => false

def starts (x : Fleet) (w : Nat) : DistribuQ.Action → Bool
  | .spawn .worker => w = x.subscribers.length
  | _ => false

theorem eq_of_starts (h : x.starts w a = true) : a = .spawn .worker ∧ w = x.subscribers.length := by
  unfold starts at h
  split at h
  · exact ⟨rfl, of_decide_eq_true h⟩
  · cases h

theorem subscriber?_tasks (x : Fleet) (a : DistribuQ.Action) (w : Nat) : (x.tasks a)[w]?.join =
    if x.releases w a then none else if x.starts w a then some .connecting else x.subscriber? w := by
  have hset (pid : Nat) :
      (x.subscribers.set pid none)[w]?.join = if pid = w then none else x.subscriber? w := by
    by_cases hw : pid = w
    · rw [if_pos hw, hw, List.getElem?_set, if_pos rfl]
      split_ifs <;> rfl
    · rw [if_neg hw, List.getElem?_set_ne hw, subscriber?]
  cases a with
  | spawn r =>
    have happend (sub : Option KillSubscriber) : (x.subscribers ++ [sub])[w]?.join =
        if w = x.subscribers.length then sub else x.subscriber? w := by
      rcases lt_trichotomy w x.subscribers.length with hw | hw | hw
      · rw [if_neg hw.ne, List.getElem?_append_left hw, subscriber?]
      · rw [if_pos hw, hw, List.getElem?_append_right le_rfl, Nat.sub_self]
        rfl
      · rw [if_neg hw.ne', subscriber?, List.getElem?_eq_none (by simpa using hw), List.getElem?_eq_none hw.le]
    cases r with
    | worker => simpa [tasks, releases, starts, Request.subscriber?] using happend (some .connecting)
    | _ =>
      have hnone : w = x.subscribers.length → x.subscriber? w = none := fun hw => by
        rw [subscriber?, List.getElem?_eq_none hw.ge, Option.join_none]
      simp only [tasks, releases, starts, Request.subscriber?, Bool.false_eq_true, if_false]
      rw [happend]
      split_ifs with hw
      · exact (hnone hw).symm
      · rfl
  | run pid ch =>
    by_cases hw : pid = w
    · subst hw
      by_cases hleaves : leaves x.service pid = true
      · simp [tasks, releases, hleaves, hset]
      · simp [tasks, releases, starts, hleaves, subscriber?]
    · by_cases hleaves : leaves x.service pid = true
      · simpa [tasks, releases, starts, hleaves, hw] using hset pid
      · simp [tasks, releases, starts, hleaves, hw, subscriber?]
  | crash pid => simpa [tasks, releases, starts] using hset pid
  | _ => rfl

theorem exists_of_leaves (h : leaves s w = true) : ∃ p : Worker, s.procs[w]? = some (.worker p) ∧ p.pc = .loop ∧
    p.running = false := by
  unfold leaves at h
  split at h
  · exact ⟨_, ‹_›, rfl, rfl⟩
  · cases h

/-- Only workers in their loop have a subscriber. -/
structure Attached (x : Fleet) : Prop where
  length : x.subscribers.length = x.service.procs.length
  serving : ∀ w sub, x.subscriber? w = some sub → ∃ p : Worker, x.service.procs[w]? = some (.worker p) ∧
    p.pc.serving = true

/-- A worker in its loop goes on there, but for the step that leaves it. -/
theorem serving_of_next {p p' : Worker} {op : Op Worker} {ch : Choice} {st st' : Store}
    (hop : p.next w = some op)
    (he : op.Ends env ch st st' p') (hpc : p.pc.serving = true)
    (hleaves : ¬ (p.pc = .loop ∧ p.running = false)) :
    p'.pc.serving = true := by
  by_cases hrun : p.running = true
  · exact Worker.serving_of_next hop he hpc hrun
  · have hloop : p.pc ≠ .loop := fun h => hleaves ⟨h, Bool.eq_false_iff.mpr hrun⟩
    have hgoes := Worker.goes_of_next hop he
    generalize p.pc = pc, p'.pc = pc', op.call = c at hgoes hpc hloop
    cases hgoes with
    | shutdown => exact absurd rfl hloop
    | raised | successFault => exact Worker.serving_onFailure _
    | emitSuccess => exact Worker.serving_afterSuccess
    | emitDead | markDead => cases hpc
    | _ => rfl

theorem leaves_of {p : Worker} (hp : s.procs[w]? = some (.worker p)) :
    leaves s w = true ↔ p.pc = .loop ∧ p.running = false := by
  obtain ⟨pc, running, n⟩ := p
  unfold leaves
  rw [hp]
  cases pc <;> cases running <;> simp

theorem effect_cases (x : Fleet) (a : DistribuQ.Action) : x.effect a = a ∨
    ∃ pid ch, a = .run pid ch ∧ leaves x.service pid = true ∧
      (x.subscriber? pid).any KillSubscriber.isRaised = true ∧
      x.effect a = .crash pid := by
  cases a with
  | run pid ch =>
    simp only [effect]
    split_ifs with h
    · rw [Bool.and_eq_true] at h
      exact .inr ⟨pid, ch, rfl, h.1, h.2, rfl⟩
    · exact .inl rfl
  | _ => exact .inl rfl

/-- A worker whose subscriber goes on is in its loop after a step of the service as before. -/
theorem serving_of_service {p : Worker} (hp : x.service.procs[w]? = some (.worker p))
    (hpc : p.pc.serving = true)
    (hgo : x.releases w a = false) (h : DistribuQ.step env x.service (x.effect a) = some s) :
    ∃ p' : Worker, s.procs[w]? = some (.worker p') ∧ p'.pc.serving = true := by
  obtain ⟨p', hp'⟩ := exists_proc_of_step h hp
  have hcrash : x.effect a ≠ .crash w := by
    intro hc
    rcases effect_cases x a with ha | ⟨pid, ch, rfl, hleaves, _, ha⟩
    · rw [← ha, hc] at hgo
      simp [releases] at hgo
    · cases ha.symm.trans hc
      simp [releases, hleaves] at hgo
  have hrun (ch : Choice) (ha : x.effect a = .run w ch) : ¬ (p.pc = .loop ∧ p.running = false) := by
    rw [← leaves_of hp]
    rcases effect_cases x a with hsame | ⟨pid, ch', rfl, _, _, hc⟩
    · rw [← hsame, ha] at hgo
      simpa [releases] using hgo
    · cases hc.symm.trans ha
  generalize x.effect a = b at h hcrash hrun
  cases became_of_step h hp' with
  | kept hq => exact ⟨p, hp'.trans (hq.symm.trans hp), hpc⟩
  | spawned r _ hw =>
    have hlt := (List.getElem?_eq_some_iff.mp hp).1
    omega
  | signalled q hq hr =>
    cases hp.symm.trans hq
    subst hr
    exact ⟨_, hp', hpc⟩
  | crashed => exact absurd rfl hcrash
  | ran hq hop he =>
    cases hp.symm.trans hq
    cases Proc.goes_of_next hop he with
    | worker hnext _ hends => exact ⟨_, hp', serving_of_next hnext hends hpc (hrun _ rfl)⟩

theorem length_tasks (h : DistribuQ.step env x.service (x.effect a) = some s)
    (hlen : x.subscribers.length = x.service.procs.length) : (x.tasks a).length = s.procs.length := by
  rcases effect_cases x a with ha | ⟨pid, ch, rfl, hleaves, _, ha⟩
  · rw [ha] at h
    cases move_of_step h with
    | spawn => simp [tasks, hlen]
    | run =>
      simp only [tasks]
      split_ifs <;> simp [hlen]
    | tick | signal | crash | heartbeat => simp [tasks, hlen]
  · rw [ha] at h
    cases move_of_step h with
    | crash => simp [tasks, hleaves, hlen]

theorem attached_step (hI : Attached x) (h : step env x m = some x') : Attached x' := by
  have hsubscribe {pid : Nat} {sub : KillSubscriber} {sub' : Option KillSubscriber}
      (hsub : x.subscriber? pid = some sub) :
      Attached (x.subscribe pid sub') := by
    refine ⟨by simpa [subscribe] using hI.length, fun w sub₁ hw => ?_⟩
    rw [subscriber?_subscribe hsub] at hw
    split_ifs at hw with hpid
    · exact hI.serving w sub (hpid ▸ hsub)
    · exact hI.serving w sub₁ hw
  cases moves_of_step h with
  | @service a s hs =>
    refine ⟨length_tasks hs hI.length, fun w sub hw => ?_⟩
    · change (x.tasks a)[w]?.join = some sub at hw
      rw [subscriber?_tasks] at hw
      split_ifs at hw with hgo hstart
      · obtain ⟨rfl, rfl⟩ := eq_of_starts hstart
        cases hs
        refine ⟨{}, ?_, rfl⟩
        rw [hI.length]
        exact List.getElem?_concat_length
      · obtain ⟨p, hp, hpc⟩ := hI.serving w sub hw
        exact serving_of_service hp hpc (Bool.eq_false_iff.mpr hgo) hs
  | subscribed hsub => exact hsubscribe hsub
  | @killed pid _ _ s hsub _ hs =>
    have hI' : Attached (x.subscribe pid none) := hsubscribe hsub
    have hlen : s.procs.length = x.service.procs.length := by
      cases move_of_step hs
      exact List.length_set
    refine ⟨hI'.length.trans hlen.symm, fun w sub hw => ?_⟩
    obtain ⟨p, hp, hpc⟩ := hI'.serving w sub hw
    obtain ⟨p', hp'⟩ := exists_proc_of_step hs hp
    cases became_of_step hs hp' with
    | kept hq => exact ⟨p, hp'.trans (hq.symm.trans hp), hpc⟩
    | signalled q hq hr =>
      cases hp.symm.trans hq
      subst hr
      exact ⟨_, hp', hpc⟩
  | read hsub => exact hsubscribe hsub
  | disconnected hsub => exact hsubscribe hsub
  | @published k fault v r =>
    refine ⟨by simpa [answer, deliver] using hI.length, fun w sub hw => ?_⟩
    change (x.deliver v _).subscriber? w = some sub at hw
    rw [subscriber?_deliver] at hw
    split_ifs at hw
    · obtain ⟨sub₁, hsub, _⟩ := Option.map_eq_some_iff.mp hw
      exact hI.serving w sub₁ hsub
    · exact hI.serving w sub hw
  | posted | selected | refused | unpublished => exact ⟨hI.length, hI.serving⟩

theorem attached_of_reachable {ok : Fleet → Action → Prop} {t : Nat} (h : Reachable ok (step env) (init t) x) :
    Attached x :=
  h.invariant ⟨rfl, fun _ _ hw => by cases hw⟩ fun _ _ _ hI _ hs => attached_step hI hs

/-! The kills on their way. -/

/-- The kills that worker `w` has not read yet. -/
def kills (x : Fleet) (w : WorkerId) : Nat := (x.subscriber? w).elim 0 KillSubscriber.kills

/-- Worker `w` takes a kill. -/
def obeys (w : WorkerId) (x : Fleet) : Action → Nat
  | .listen pid => indicator (pid = w ∧ x.takesKill w = true)
  | _ => 0

/-- A kill is published on the channel of worker `w`. -/
def sends (w : WorkerId) (x : Fleet) : Action → Nat
  | .publish k fault =>
    indicator ((x.requests[k]?).bind KillRequest.target? = some w ∧ fault.takesEffect = true)
  | _ => 0

/-- Worker `w` has its subscriber, or is not there yet. -/
def listens (x : Fleet) (w : WorkerId) : Nat :=
  indicator (x.subscribers.length ≤ w ∨ (x.subscriber? w).isSome = true)

/-- How many requests have answered that they have killed worker `w`. -/
def reports (x : Fleet) (w : WorkerId) : Nat := tally (fun r => indicator (r.killed? = some w)) x.requests

theorem obeys_of_read {msg : PubSubMessage} {inbox : List PubSubMessage}
    (hsub : x.subscriber? pid = some (.listening (msg :: inbox))) (hm : msg.isKill = false) :
    obeys w x (.listen pid) = 0 := by
  refine indicator_neg fun h => ?_
  obtain ⟨rfl, htakes⟩ := h
  simp only [takesKill, hsub, hm, Bool.false_eq_true] at htakes

theorem kills_deliver (v : WorkerId) :
    (x.deliver v (.message "kill")).kills w ≤ x.kills w + indicator (v = w) := by
  unfold kills
  rw [subscriber?_deliver]
  by_cases hv : v = w
  · rw [if_pos hv, indicator_pos hv]
    cases x.subscriber? w with
    | none => exact Nat.zero_le _
    | some sub =>
      cases sub with
      | listening inbox => simp [KillSubscriber.deliver, KillSubscriber.kills, PubSubMessage.isKill]
      | _ => exact Nat.zero_le _
  · rw [if_neg hv]
    exact Nat.le_add_right _ _

theorem kills_tasks (x : Fleet) (a : DistribuQ.Action) (s : State) (w : WorkerId) :
    kills { x with service := s, subscribers := x.tasks a } w ≤ x.kills w := by
  unfold kills
  change ((x.tasks a)[w]?.join).elim 0 KillSubscriber.kills ≤ _
  rw [subscriber?_tasks]
  split_ifs
  · exact Nat.zero_le _
  · exact Nat.zero_le _
  · exact le_rfl

/-- No worker takes a kill that has not been published for it. -/
theorem kills_step (h : step env x m = some x') : x'.kills w + obeys w x m ≤ x.kills w + sends w x m := by
  have hsubscribe {pid : Nat} {sub : KillSubscriber} {sub' : Option KillSubscriber}
      (hsub : x.subscriber? pid = some sub)
      (hle : sub'.elim 0 KillSubscriber.kills ≤ sub.kills) : (x.subscribe pid sub').kills w ≤ x.kills w := by
    unfold kills
    rw [subscriber?_subscribe hsub]
    split_ifs with hpid
    · rw [← hpid, hsub]
      exact hle
    · exact le_rfl
  cases moves_of_step h with
  | service => exact kills_tasks _ _ _ _
  | subscribed hsub => exact hsubscribe hsub le_rfl
  | @killed pid m inbox s hsub hm =>
    by_cases hpid : pid = w
    · subst hpid
      have htakes : obeys pid x (.listen pid) ≤ 1 := indicator_le_one
      have hbefore : x.kills pid = inbox.countP PubSubMessage.isKill + 1 := by
        rw [kills, hsub, Option.elim_some, KillSubscriber.kills, List.countP_cons_of_pos hm]
      have hafter : (x.subscribe pid none).kills pid = 0 := by
        rw [kills, subscriber?_subscribe hsub, if_pos rfl, Option.elim_none]
      have hnone : sends pid x (.listen pid) = 0 := rfl
      change (x.subscribe pid none).kills pid + _ ≤ _
      omega
    · have hobeys : obeys w x (.listen pid) = 0 := indicator_neg fun h => hpid h.1
      rw [hobeys]
      exact hsubscribe hsub (Nat.zero_le _)
  | @read pid m inbox hsub hm =>
    rw [obeys_of_read hsub hm]
    refine hsubscribe hsub ?_
    simp only [Option.elim_some, KillSubscriber.kills]
    exact List.Sublist.countP_le (List.sublist_cons_self _ _)
  | disconnected hsub =>
    refine hsubscribe hsub ?_
    split_ifs <;> exact Nat.zero_le _
  | @published k fault v r hk hf =>
    have hsends : sends w x (.publish k fault) = indicator (v = w) := by
      have htakes : fault.takesEffect = true := by
        cases fault with
        | raised e => exact absurd rfl (hf e)
        | _ => rfl
      exact indicator_congr (by simp [hk, htakes, KillRequest.target?])
    rw [hsends]
    exact kills_deliver v
  | posted | selected | refused | unpublished => exact Nat.le_add_right _ _

/-- It takes one at most. -/
theorem listens_step (h : step env x m = some x') : obeys w x m + x'.listens w ≤ x.listens w := by
  have hmono {y : Fleet} (hlen : x.subscribers.length ≤ y.subscribers.length)
      (hsub : (y.subscriber? w).isSome = true → x.subscribers.length ≤ w ∨ (x.subscriber? w).isSome = true) :
      y.listens w ≤ x.listens w := by
    refine indicator_mono fun hy => ?_
    rcases hy with hy | hy
    · exact .inl (hlen.trans hy)
    · exact hsub hy
  have hsubscribe {pid : Nat} {sub : KillSubscriber} {sub' : Option KillSubscriber}
      (hsub : x.subscriber? pid = some sub) :
      (x.subscribe pid sub').listens w ≤ x.listens w := by
    refine hmono List.length_set.ge fun hy => .inr ?_
    rw [subscriber?_subscribe hsub] at hy
    split_ifs at hy with hpid
    · rw [← hpid, hsub, Option.isSome_some]
    · exact hy
  cases moves_of_step h with
  | @service a s hs =>
    refine (Nat.zero_add _).trans_le (hmono ?_ fun hy => ?_)
    · change _ ≤ (x.tasks a).length
      cases a with
      | spawn => simp [tasks]
      | run =>
        simp only [tasks]
        split_ifs <;> simp
      | crash => simp [tasks]
      | _ => exact le_rfl
    · change ((x.tasks a)[w]?.join).isSome = true at hy
      rw [subscriber?_tasks] at hy
      split_ifs at hy with hgo hstart
      · cases hy
      · exact .inl (eq_of_starts hstart).2.ge
      · exact .inr hy
  | subscribed hsub | disconnected hsub => exact (Nat.zero_add _).trans_le (hsubscribe hsub)
  | @killed pid m inbox s hsub hm =>
    have hafter : (x.subscribe pid none).listens pid = 0 := by
      have hlt : pid < x.subscribers.length :=
        (List.getElem?_eq_some_iff.mp (Option.join_eq_some_iff.mp hsub)).1
      refine indicator_neg fun hy => ?_
      rcases hy with hy | hy
      · rw [subscribe, List.length_set] at hy
        exact absurd hlt (not_lt.mpr hy)
      · rw [subscriber?_subscribe hsub, if_pos rfl] at hy
        cases hy
    by_cases hpid : pid = w
    · subst hpid
      have htakes : obeys pid x (.listen pid) ≤ 1 := indicator_le_one
      have hbefore : x.listens pid = 1 := indicator_pos (.inr (by rw [hsub, Option.isSome_some]))
      change _ + (x.subscribe pid none).listens pid ≤ _
      omega
    · have hobeys : obeys w x (.listen pid) = 0 := indicator_neg fun h => hpid h.1
      rw [hobeys]
      exact (Nat.zero_add _).trans_le (hsubscribe hsub)
  | @read pid m inbox hsub hm =>
    rw [obeys_of_read hsub hm]
    exact (Nat.zero_add _).trans_le (hsubscribe hsub)
  | @published k fault v r =>
    refine (Nat.zero_add _).trans_le (hmono (y := (x.deliver v _).answer k r) ?_ fun hy => .inr ?_)
    · simp [answer, deliver]
    change ((x.deliver v _).subscriber? w).isSome = true at hy
    rw [subscriber?_deliver] at hy
    split_ifs at hy
    · rwa [Option.isSome_map] at hy
    · exact hy
  | posted | selected | refused | unpublished => exact (Nat.zero_add _).le

theorem reports_eq_count (x : Fleet) (w : WorkerId) :
    x.reports w = (x.requests.filterMap KillRequest.killed?).count w := by
  unfold reports
  induction x.requests with
  | nil => rfl
  | cons r l ih =>
    rw [tally_cons, ih]
    cases hr : r.killed? with
    | none => rw [List.filterMap_cons_none hr, indicator_neg nofun, Nat.zero_add]
    | some v =>
      rw [List.filterMap_cons_some hr, List.count_cons, Nat.add_comm]
      simp [indicator]

theorem sublist_filterMap_set {α β : Type} {g : α → Option β} {l : List α} {b : α}
    (h : ∀ a, l[k]? = some a → g a = none) : (l.filterMap g).Sublist ((l.set k b).filterMap g) := by
  induction l generalizing k with
  | nil => exact .refl _
  | cons a l ih =>
    cases k with
    | zero =>
      rw [List.filterMap_cons_none (h a rfl), List.set_cons_zero]
      exact (List.sublist_cons_self b l).filterMap g
    | succ k =>
      rw [List.set_cons_succ]
      have hrest := ih fun a ha => h a ha
      cases ha : g a with
      | none => rwa [List.filterMap_cons_none ha, List.filterMap_cons_none ha]
      | some c =>
        rw [List.filterMap_cons_some ha, List.filterMap_cons_some ha]
        exact hrest.cons_cons c

theorem requests_step (h : step env x m = some x') : x'.requests = x.requests ∨
    x'.requests = x.requests ++ [.select] ∨ ∃ k r r', x.requests[k]? = some r ∧ r.killed? = none ∧
      x'.requests = x.requests.set k r' := by
  cases moves_of_step h with
  | posted => exact .inr (.inl rfl)
  | selected hk | refused hk | published hk | unpublished hk => exact .inr (.inr ⟨_, _, _, hk, rfl, rfl⟩)
  | service | subscribed | killed | read | disconnected => exact .inl rfl

theorem length_requests_le (h : step env x m = some x') : x.requests.length ≤ x'.requests.length := by
  rcases requests_step h with hsame | hsame | ⟨k, r, r', _, _, hsame⟩ <;> simp [hsame]

/-- An answer stays. -/
theorem killed_step {n : Nat} (h : step env x m = some x') (hn : n ≤ x.requests.length) :
    ((x.requests.take n).filterMap KillRequest.killed?).Sublist
      ((x'.requests.take n).filterMap KillRequest.killed?) := by
  rcases requests_step h with hsame | hsame | ⟨k, r, r', hk, hr, hsame⟩
  · rw [hsame]
  · rw [hsame, List.take_append_of_le_length hn]
  · rw [hsame, List.take_set]
    refine sublist_filterMap_set fun r₁ hr₁ => ?_
    have hget : x.requests[k]? = some r₁ := by
      rw [List.getElem?_take] at hr₁
      split_ifs at hr₁
      exact hr₁
    cases hk.symm.trans hget
    exact hr

/-- No kill is reported that has not been published. -/
theorem reports_step (h : step env x m = some x') : x'.reports w ≤ x.reports w + sends w x m := by
  have hanswer {k : Nat} {r r' : KillRequest} (hk : x.requests[k]? = some r) (hr : r.killed? = none) :
      (x.answer k r').reports w = x.reports w + indicator (r'.killed? = some w) := by
    have hset := tally_set (f := fun r => indicator (r.killed? = some w)) (b := r') hk
    have hzero : indicator (r.killed? = some w) = 0 := indicator_neg fun h => by cases hr.symm.trans h
    rw [hzero] at hset
    exact hset
  cases moves_of_step h with
  | posted =>
    rw [reports, tally_append, tally_cons, tally_nil]
    exact le_rfl
  | selected hk => exact (hanswer hk rfl).le
  | refused hk hr =>
    rcases hr with rfl | rfl <;> exact (hanswer hk rfl).le
  | @published k fault v r hk hf hr =>
    have hle : indicator (r.killed? = some w) ≤ sends w x (.publish k fault) := by
      have htakes : fault.takesEffect = true := by
        cases fault with
        | raised e => exact absurd rfl (hf e)
        | _ => rfl
      refine indicator_mono fun hw => ?_
      rcases hr with rfl | rfl
      · exact ⟨by rw [hk]; exact hw, htakes⟩
      · cases hw
    exact (hanswer hk rfl).trans_le (Nat.add_le_add_left hle _)
  | unpublished hk => exact (hanswer hk rfl).le.trans (Nat.le_add_right _ _)
  | service | subscribed | killed | read | disconnected => exact Nat.le_add_right _ _

/-- A kill waits for worker `w`, or the worker has been told to stop. -/
def Alerted (x : Fleet) (w : WorkerId) : Prop := 0 < x.kills w ∨ x.service.Stopping w

theorem stopping_of_step (h : step env x m = some x') (hI : x.service.Stopping w) : x'.service.Stopping w := by
  rcases service_of_step h with ⟨_, hsame⟩ | ⟨a, _, hs⟩
  · rwa [hsame]
  · exact (stopping_step hI hs).1

/-- Only a lost connection loses a kill that waits. -/
theorem alerted_step (hA : Attached x) (hI : x.Alerted w) (hm : ∀ b, m ≠ .disconnect w b)
    (h : step env x m = some x') : x'.Alerted w := by
  rcases hI with hI | hI
  · have hsubscribe {pid : Nat} {sub : KillSubscriber} {sub' : Option KillSubscriber}
        (hsub : x.subscriber? pid = some sub)
        (hle : pid = w → sub.kills ≤ sub'.elim 0 KillSubscriber.kills) :
        0 < (x.subscribe pid sub').kills w := by
      refine hI.trans_le ?_
      unfold kills
      rw [subscriber?_subscribe hsub]
      split_ifs with hpid
      · rw [← hpid, hsub]
        exact hle hpid
      · exact le_rfl
    obtain ⟨sub, hsub⟩ : ∃ sub, x.subscriber? w = some sub := by
      cases hsub : x.subscriber? w with
      | none =>
        rw [kills, hsub] at hI
        cases hI
      | some sub => exact ⟨sub, rfl⟩
    obtain ⟨p, hp, _⟩ := hA.serving w sub hsub
    cases moves_of_step h with
    | @service a s hs =>
      by_cases hgo : x.releases w a = true
      · right
        cases a with
        | run pid ch =>
          simp only [releases, Bool.and_eq_true, decide_eq_true_eq] at hgo
          obtain ⟨rfl, hleaves⟩ := hgo
          obtain ⟨q, hq, _, hrun⟩ := exists_of_leaves hleaves
          exact (stopping_step (.inr ⟨q, hq, hrun⟩) hs).1
        | crash pid =>
          obtain rfl : pid = w := of_decide_eq_true hgo
          have hs : DistribuQ.step env x.service (.crash pid) = some s := hs
          cases move_of_step hs with
          | crash => exact .inl (List.getElem?_set_self (List.getElem?_eq_some_iff.mp hp).1)
        | _ => cases hgo
      · left
        have hlt : w < x.subscribers.length :=
          (List.getElem?_eq_some_iff.mp (Option.join_eq_some_iff.mp hsub)).1
        refine hI.trans_le ?_
        change x.kills w ≤ ((x.tasks a)[w]?.join).elim 0 KillSubscriber.kills
        rw [subscriber?_tasks, if_neg hgo, if_neg fun hstart => absurd (eq_of_starts hstart).2 hlt.ne]
        exact le_rfl
    | @subscribed pid hsub' =>
      refine .inl (hsubscribe hsub' fun hpid => Nat.zero_le _)
    | @killed pid _ _ s hsub' _ hs =>
      by_cases hpid : pid = w
      · subst hpid
        cases move_of_step hs with
        | signal hq =>
          cases hp.symm.trans hq
          exact .inr (.inr ⟨_, List.getElem?_set_self (List.getElem?_eq_some_iff.mp hp).1, rfl⟩)
      · exact .inl (hsubscribe hsub' fun h => absurd h hpid)
    | @read pid msg inbox hsub' hmsg =>
      refine .inl (hsubscribe hsub' fun _ => ?_)
      simp [KillSubscriber.kills, hmsg]
    | @disconnected pid b _ hsub' =>
      refine .inl (hsubscribe hsub' fun hpid => absurd rfl (hpid ▸ hm b))
    | @published k fault v r => 
      left
      refine hI.trans_le ?_
      change x.kills w ≤ (x.deliver v _).kills w
      unfold kills
      rw [subscriber?_deliver]
      split_ifs
      · rw [hsub]
        cases sub with
        | listening inbox => simp [KillSubscriber.deliver, KillSubscriber.kills]
        | _ => exact Nat.zero_le _
      · exact le_rfl
    | posted | selected | refused | unpublished => exact .inl hI
  · exact .inr (stopping_of_step h hI)

/-! Which workers a request names. -/

/-- Request `k` reads the workers, and the row of worker `w` says `ALIVE`. -/
def Finds (x : Fleet) (k : Nat) (w : WorkerId) (m : Action) : Prop :=
  (∃ draw order, m = .select k draw order false) ∧
    ∃ v, x.service.store.db.workers.find? w = some v ∧ v.status = .alive

theorem names_step {r' : KillRequest} (h : step env x m = some x') (hr : x'.requests[k]? = some r')
    (hn : r'.Names w) : (∃ r, x.requests[k]? = some r ∧ r.Names w) ∨ x.Finds k w m := by
  have hanswer {i : Nat} {r r₁ : KillRequest} (hi : x.requests[i]? = some r)
      (hget : (x.answer i r₁).requests[k]? = some r') (hnew : r₁.Names w → r.Names w ∨ x.Finds i w m) :
      (∃ r, x.requests[k]? = some r ∧ r.Names w) ∨ x.Finds k w m := by
    rcases getElem?_set_cases hget with ⟨rfl, rfl⟩ | ⟨_, hk⟩
    · exact (hnew hn).imp_left fun h => ⟨r, hi, h⟩
    · exact .inl ⟨r', hk, hn⟩
  cases moves_of_step h with
  | posted =>
    rcases getElem?_append_cases hr with hk | ⟨_, rfl⟩
    · exact .inl ⟨r', hk, hn⟩
    · rcases hn with hn | hn <;> cases hn
  | selected hi hv halive =>
    refine hanswer hi hr fun hnew => .inr ?_
    rcases hnew with hnew | hnew <;> cases hnew
    exact ⟨⟨_, _, rfl⟩, _, hv, halive⟩
  | refused hi hnew =>
    refine hanswer hi hr fun hw => ?_
    rcases hnew with rfl | rfl <;> rcases hw with hw | hw <;> cases hw
  | published hi _ hnew =>
    refine hanswer hi hr fun hw => .inl ?_
    rcases hnew with rfl | rfl <;> rcases hw with hw | hw <;> cases hw
    exact .inl rfl
  | unpublished hi =>
    refine hanswer hi hr fun hw => ?_
    rcases hw with hw | hw <;> cases hw
  | service | subscribed | killed | read | disconnected => exact .inl ⟨r', hr, hn⟩

/-- The request that names a worker has found it alive. -/
theorem finds_of_run {ok : Fleet → Action → Prop} {t : Nat} {r : KillRequest}
    (h : Run ok (step env) (init t) tr x) (hr : x.requests[k]? = some r) (hn : r.Names w) :
    ∃ y ∈ tr, y.1.Finds k w y.2 := by
  have hall : ∀ (k : Nat) (r : KillRequest), x.requests[k]? = some r → r.Names w →
      ∃ y ∈ tr, y.1.Finds k w y.2 := by
    refine h.invariant_trace (I := fun tr x =>
      ∀ (k : Nat) (r : KillRequest), x.requests[k]? = some r → r.Names w → ∃ y ∈ tr, y.1.Finds k w y.2) ?_ ?_
    · intro k r hr
      cases hr
    · intro tr x m x' _ hI _ hs k r' hr' hn
      rcases names_step hs hr' hn with ⟨r, hr, hn⟩ | hfinds
      · obtain ⟨y, hy, hfinds⟩ := hI k r hr hn
        exact ⟨y, List.mem_append_left _ hy, hfinds⟩
      · exact ⟨(x, m), List.mem_append_right _ (List.mem_singleton_self _), hfinds⟩
  exact hall k r hr hn

/-- A worker whose row says `DEAD` for good is not named any more. -/
theorem names_of_silent {ok : Fleet → Action → Prop} {r : KillRequest} {v : WorkerRow}
    (h : Reachable ok (step env) x x') (hI : x.service.Silent w)
    (hv : x.service.store.db.workers.find? w = some v) (hdead : v.status = .dead)
    (hr : x'.requests[k]? = some r) (hn : r.Names w) : ∃ r, x.requests[k]? = some r ∧ r.Names w := by
  have hall : (x'.service.Silent w ∧ x'.service.store.db.workers.find? w = some v) ∧
      ∀ (k : Nat) (r : KillRequest), x'.requests[k]? = some r → r.Names w →
        ∃ r, x.requests[k]? = some r ∧ r.Names w := by
    refine h.invariant (I := fun y => (y.service.Silent w ∧ y.service.store.db.workers.find? w = some v) ∧
      ∀ (k : Nat) (r : KillRequest), y.requests[k]? = some r → r.Names w →
        ∃ r, x.requests[k]? = some r ∧ r.Names w)
      ⟨⟨hI, hv⟩, fun _ r hr hn => ⟨r, hr, hn⟩⟩ ?_
    rintro y m y' ⟨⟨hsilent, hrow⟩, hnames⟩ _ hs
    refine ⟨?_, fun k r' hr' hn => ?_⟩
    · rcases service_of_step hs with ⟨_, hsame⟩ | ⟨a, _, hs⟩
      · rw [hsame]
        exact ⟨hsilent, hrow⟩
      · exact ⟨silent_step hsilent hs, settled_step hsilent hrow hdead hs⟩
    · rcases names_step hs hr' hn with ⟨r, hr, hn⟩ | ⟨_, u, hu, halive⟩
      · exact hnames k r hr hn
      · cases hrow.symm.trans hu
        cases hdead.symm.trans halive
  exact hall.2 k r hr hn

/-! A subscriber that has raised. -/

/-- The worker goes on, but will not come to its `shutdown`. -/
def Broken (x : Fleet) (w : WorkerId) : Prop :=
  x.subscriber? w = some .raised ∨ x.service.procs[w]? = some .gone

theorem broken_step (hI : x.Broken w) (h : step env x m = some x') : x'.Broken w := by
  rcases hI with hI | hI
  · have hsubscribe {pid : Nat} {sub : KillSubscriber} {sub' : Option KillSubscriber}
        (hsub : x.subscriber? pid = some sub)
        (hraised : sub.isRaised = false) : (x.subscribe pid sub').subscriber? w = some .raised := by
      rw [subscriber?_subscribe hsub, if_neg, hI]
      rintro rfl
      cases hsub.symm.trans hI
      cases hraised
    cases moves_of_step h with
    | @service a s hs =>
      by_cases hgo : x.releases w a = true
      · right
        have hcrash : x.effect a = .crash w := by
          cases a with
          | run pid ch =>
            simp only [releases, Bool.and_eq_true, decide_eq_true_eq] at hgo
            obtain ⟨rfl, hleaves⟩ := hgo
            simp [effect, hleaves, hI, KillSubscriber.isRaised]
          | crash pid =>
            obtain rfl : pid = w := of_decide_eq_true hgo
            rfl
          | _ => cases hgo
        rw [hcrash] at hs
        cases move_of_step hs with
        | crash hp => exact List.getElem?_set_self (List.getElem?_eq_some_iff.mp hp).1
      · left
        have hlt : w < x.subscribers.length := (List.getElem?_eq_some_iff.mp (Option.join_eq_some_iff.mp hI)).1
        change (x.tasks a)[w]?.join = _
        rw [subscriber?_tasks, if_neg hgo, if_neg fun hstart => absurd (eq_of_starts hstart).2 hlt.ne]
        exact hI
    | subscribed hsub => exact .inl (hsubscribe hsub rfl)
    | killed hsub => exact .inl (hsubscribe hsub rfl)
    | read hsub => exact .inl (hsubscribe hsub rfl)
    | disconnected hsub hraised => exact .inl (hsubscribe hsub hraised)
    | published =>
      left
      change (x.deliver _ _).subscriber? w = _
      rw [subscriber?_deliver, hI]
      split_ifs <;> rfl
    | posted | selected | refused | unpublished => exact .inl hI
  · right
    rcases service_of_step h with ⟨_, hsame⟩ | ⟨a, _, hs⟩
    · rwa [hsame]
    · rcases workerAt_step (P := fun _ => False) (.inl hI) (fun _ _ _ _ _ _ _ h => h) hs with hgone | ⟨_, _, hfalse⟩
      · exact hgone
      · exact hfalse.elim

/-- It does not write its own end. -/
theorem call?_of_broken (hA : Attached x) (hI : x.Broken w) :
    x.service.call? env a ≠ some (w, .markWorkerDead w) := by
  intro hc
  obtain ⟨_, hp, _, p, rfl, hpc⟩ := calledBy_of_call? hc
  rcases hI with hI | hI
  · obtain ⟨q, hq, hserving⟩ := hA.serving w _ hI
    cases hp.symm.trans hq
    rw [hpc] at hserving
    cases hserving
  · cases hp.symm.trans hI

theorem counted_of_run {ok : Fleet → Action → Prop} {t : Nat} (w : WorkerId)
    (h : Run ok (step env) (init t) tr x) :
    total (obeys w) tr + x.listens w ≤ 1 ∧ x.kills w + total (obeys w) tr ≤ total (sends w) tr ∧
      x.reports w ≤ total (sends w) tr := by
  induction h with
  | nil => exact ⟨(Nat.zero_add _).trans_le indicator_le_one, le_rfl, le_rfl⟩
  | snoc _ _ hs ih =>
    have hlistens := listens_step (w := w) hs
    have hkills := kills_step (w := w) hs
    have hreports := reports_step (w := w) hs
    simp only [total, tally_append, tally_cons, tally_nil] at ih ⊢
    omega

theorem alerted_of_publish {fault : Fault} {inbox : List PubSubMessage}
    (hsub : x.subscriber? w = some (.listening inbox)) (hk : x.requests[k]? = some (.publish w))
    (hf : fault.takesEffect = true) (h : step env x (.publish k fault) = some x') : x'.Alerted w := by
  cases moves_of_step h with
  | @published _ _ v r hk' =>
    cases hk.symm.trans hk'
    left
    change 0 < (x.deliver w _).kills w
    rw [kills, subscriber?_deliver, if_pos rfl, hsub]
    simp [KillSubscriber.deliver, KillSubscriber.kills, PubSubMessage.isKill]
  | unpublished => cases hf

/-- What the kill channels do, in any run of the service with them. -/
structure FleetLaw (env : Env) : Prop where
  /-- The service does nothing that it cannot do under signals and crashes. -/
  service {ok : Fleet → Action → Prop} {t : Nat} {tr : List (Fleet × Action)} {x : Fleet} :
    Run ok (step env) (init t) tr x →
    Run Unrestricted (DistribuQ.step env) (.init t) (serviceTrace tr) x.service
  /-- A worker takes one kill at most, and none that has not been published for it; none is reported that has not. -/
  counted {ok : Fleet → Action → Prop} {t : Nat} {tr : List (Fleet × Action)} {x : Fleet} (w : WorkerId) :
    Run ok (step env) (init t) tr x → total (obeys w) tr ≤ 1 ∧
      x.kills w + total (obeys w) tr ≤ total (sends w) tr ∧ x.reports w ≤ total (sends w) tr
  /-- A worker that a request names was alive by its row when this request read the workers. -/
  named {ok : Fleet → Action → Prop} {t k : Nat} {tr : List (Fleet × Action)} {x : Fleet} {r : KillRequest}
      {w : WorkerId} : Run ok (step env) (init t) tr x → x.requests[k]? = some r → r.Names w →
    ∃ y ∈ tr, y.1.Finds k w y.2
  /-- A kill that is published while the worker listens waits, unless the connection is lost, until the worker has
  been told to stop, has left its loop for what a handler raised, or has crashed. -/
  delivered {ok : Fleet → Action → Prop} {t k : Nat} {x x' x'' : Fleet} {w : WorkerId}
      {inbox : List PubSubMessage} {fault : Fault} :
    Reachable ok (step env) (init t) x → x.subscriber? w = some (.listening inbox) →
    x.requests[k]? = some (.publish w) → fault.takesEffect = true → step env x (.publish k fault) = some x' →
    Reachable (fun _ m => ∀ b, m ≠ .disconnect w b) (step env) x' x'' → x''.Alerted w
  /-- A worker that has been told to stop makes at most twenty more calls and takes at most one more id, whatever
  the others do and however its calls end. -/
  stops {ok ok' : Fleet → Action → Prop} {t : Nat} {tr : List (Fleet × Action)} {x x' : Fleet} {w : WorkerId} :
    Reachable ok (step env) (init t) x → x.service.Stopping w → Run ok' (step env) x tr x' →
    x'.service.Stopping w ∧ callsOf w (serviceTrace tr) ≤ 20 ∧
      (flow (State.takesBy env w) (serviceTrace tr)).length ≤ 1
  /-- Once a worker has written its end, no request picks it any more. -/
  retired {ok : Fleet → Action → Prop} {k pid : Nat} {x x' x'' : Fleet} {m : Action} {a : DistribuQ.Action}
      {w : WorkerId} {v : WorkerRow} {r : KillRequest} : step env x m = some x' → x.serviceMove m = some a →
    x.service.call? env a = some (pid, .markWorkerDead w) → x'.service.store.db.workers.find? w = some v →
    Reachable ok (step env) x' x'' → x''.requests[k]? = some r → r.Names w →
    ∃ r, x'.requests[k]? = some r ∧ r.Names w
  /-- A worker whose subscriber has raised never writes its end. -/
  unannounced {ok ok' : Fleet → Action → Prop} {t : Nat} {tr : List (Fleet × Action)} {x x' : Fleet}
    {w : WorkerId} :
    Reachable ok (step env) (init t) x → x.subscriber? w = some .raised → Run ok' (step env) x tr x' →
    ∀ y ∈ serviceTrace tr, y.1.call? env y.2 ≠ some (w, .markWorkerDead w)

theorem fleetLaw (env : Env) : FleetLaw env where
  service h := service_of_run h fun _ _ _ _ _ => trivial
  counted w h := by
    obtain ⟨hone, hkills, hreports⟩ := counted_of_run w h
    exact ⟨by omega, hkills, hreports⟩
  named h hr hn := finds_of_run h hr hn
  delivered {ok t k x x' x'' w inbox fault} h hsub hk hf hs h' := by
    have hx' : x'.Alerted w := alerted_of_publish hsub hk hf hs
    have hboth : Attached x'' ∧ x''.Alerted w :=
      h'.invariant (I := fun x => Attached x ∧ x.Alerted w) ⟨attached_step (attached_of_reachable h) hs, hx'⟩
        fun _ _ _ hI hm hs => ⟨attached_step hI.1 hs, alerted_step hI.1 hI.2 hm hs⟩
    exact hboth.2
  stops {ok ok' t tr x x' w} h hI hrun := by
    obtain ⟨tr₀, h₀⟩ := h
    have hservice : Run Unrestricted (DistribuQ.step env) x.service (serviceTrace tr) x'.service :=
      service_of_run hrun fun _ _ _ _ _ => trivial
    have hstart : Run Unrestricted (DistribuQ.step env) (.init t) (serviceTrace tr₀) x.service :=
      service_of_run h₀ fun _ _ _ _ _ => trivial
    obtain ⟨hI', hcalls, htakes⟩ := stopping_of_run hI hservice
    have hle : x.service.callsLeft w ≤ 20 := callsLeft_le hstart.reachable
    have hone : x.service.takesLeft w ≤ 1 := indicator_le_one
    exact ⟨hI', by omega, by omega⟩
  retired {ok k pid x x' x'' m a w v r} h hm hc hv h' hr hn := by
    obtain ⟨hsilent, hdead⟩ : x'.service.Silent w ∧ v.status = .dead := by
      rcases service_of_step h with ⟨hnone, _⟩ | ⟨b, hb, hs⟩
      · cases hm.symm.trans hnone
      · cases hm.symm.trans hb
        exact retired_of_call hc hs hv
    exact names_of_silent h' hsilent hv hdead hr hn
  unannounced {ok ok' t tr x x' w} h hI hrun y hy := by
    obtain ⟨z, hz, hmove⟩ := List.mem_filterMap.mp hy
    obtain ⟨a, _, rfl⟩ := Option.map_eq_some_iff.mp hmove
    have hbefore := (hrun.through hz).1
    have hA : Attached z.1 :=
      hbefore.invariant (attached_of_reachable h) fun _ _ _ hA _ hs => attached_step hA hs
    have hB : z.1.Broken w := hbefore.invariant (.inl hI) fun _ _ _ hB _ hs => broken_step hB hs
    exact call?_of_broken hA hB

/-- Worker 0 is at work and its subscriber listens; request 0 has drawn it. -/
def drawn : List Action :=
  [.service (.spawn .worker), .subscribe 0, .service (.heartbeat 0 {}), .post, .select 0 0 [] false]

/-- The kill is published, and the subscriber reads its two messages. -/
theorem fleetLaw_killed : ∃ tr x, Run (fun _ _ => True) (step minutely) (init 0) tr x ∧ x.service.Stopping 0 ∧
    (∃ y ∈ tr, y.1.Finds 0 0 y.2) ∧ 1 ≤ total (sends 0) tr := by
  obtain ⟨tr, x, h, hx⟩ : ∃ tr x, Run (fun _ _ => True) (step minutely) (init 0) tr x ∧ _ :=
    exists_run_of_exec drawn (fun _ x => (step minutely x (.listen 0)).isSome = true ∧
      (∃ r ∈ x.requests[0]?, r.target? = some 0) ∧ ∃ x₁ ∈ step minutely x (.publish 0 .none),
        ∃ x₂ ∈ step minutely x₁ (.listen 0), ∃ x₃ ∈ step minutely x₂ (.listen 0),
          x₃.kills 0 = 0 ∧ x₃.reports 0 = 1 ∧ ∃ r ∈ x₃.requests[0]?, r.killed? = some 0) (by decide)
  obtain ⟨hlistens, ⟨r, hr, htarget⟩, x₁, hx₁, x₂, hx₂, x₃, hx₃, hnone, hone, r₃, hr₃, hkilled⟩ :=
    of_decide_eq_true hx
  obtain ⟨inbox, hsub⟩ : ∃ inbox, x.subscriber? 0 = some (.listening inbox) := by
    obtain ⟨x', hx'⟩ := Option.isSome_iff_exists.mp hlistens
    cases moves_of_step hx' with
    | killed hsub | read hsub => exact ⟨_, hsub⟩
  have hpublish : x.requests[0]? = some (.publish 0) := by
    cases r with
    | publish w =>
      cases htarget
      exact hr
    | _ => cases htarget
  have hrun := ((h.snoc trivial hx₁).snoc trivial hx₂).snoc trivial hx₃
  have hheard : Reachable (fun _ m => ∀ b, m ≠ Action.disconnect 0 b) (step minutely) x₁ x₃ :=
    (Reachable.refl.next (fun b hb => by cases hb) hx₂).next (fun b hb => by cases hb) hx₃
  have halerted := (fleetLaw minutely).delivered h.reachable hsub hpublish rfl hx₁ hheard
  refine ⟨_, x₃, hrun, halerted.resolve_left hnone.not_gt, (fleetLaw minutely).named hrun hr₃ (.inr hkilled), ?_⟩
  exact hone.symm.trans_le ((fleetLaw minutely).counted 0 hrun).2.2

end Fleet
end DistribuQ
