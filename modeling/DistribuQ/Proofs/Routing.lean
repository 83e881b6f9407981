import DistribuQ.Proofs.Delay

/-! The ready list of a job is that of its priority, where no job of another priority comes to
`queue:default` by a promotion, a reaper or a replay. -/

namespace DistribuQ
open Transition
variable {env : Env} {s s' : State} {a : Action} {i : Nat} {j : Uuid} {q : Queue} {n : Int}

def Queue.Admits : Queue → Int → Prop
  | high, n => 0 < n
  | default, n => n = 0
  | low, n => n < 0

theorem Queue.ofPriority_eq_iff : Queue.ofPriority n = q ↔ q.Admits n := by
  unfold Queue.ofPriority
  split_ifs with hpos hneg <;> cases q <;>
    simp only [Queue.Admits, reduceCtorEq, false_iff, true_iff] <;> omega

/-- A process that reads the priority of a job before it pushes the id. -/
def Proc.routes : Proc → Bool
  | replay _ | reaper _ | gone => false
  | _ => true

/-- The ids that a call of process `pid` puts into a ready list whatever their priority. -/
def State.unrouted (s : State) (pid : Nat) : Call → List Uuid
  | .promoteScheduled _ t => s.store.redis.scheduled.rangeTo t
  | .lpush _ j | .rpush _ j => if (s.procs[pid]?).any (!·.routes) then [j] else []
  | _ => []

/-- Only jobs of priority 0 are pushed without regard to their priority. -/
def DefaultsUnrouted (env : Env) (s : State) (a : Action) : Prop :=
  ∀ x ∈ s.call? env a, ∀ j ∈ s.unrouted x.1 x.2, ∀ r ∈ s.store.db.job? j, r.priority = 0

instance : Decidable (DefaultsUnrouted env s a) := inferInstanceAs (Decidable (∀ x ∈ s.call? env a, _))

def Store.Routes (st : Store) (q : Queue) (j : Uuid) : Prop :=
  ∃ r, st.db.job? j = some r ∧ q.Admits r.priority

theorem Store.Routes.step (hr : s.store.Routes q j) (h : step env s a = some s') : s'.store.Routes q j := by
  obtain ⟨r, hr, hq⟩ := hr
  obtain ⟨r', hr', horigin⟩ := step_origin h hr
  refine ⟨r', hr', ?_⟩
  rwa [show r'.priority = r.priority from congrArg NewJob.priority horigin]

/-- The ids in the ready lists, and those that a process is about to push by their priority. -/
structure Routed (s : State) : Prop where
  ready : ∀ q, ∀ j ∈ s.store.redis.lists q, s.store.Routes q j
  hand : ∀ (i : Nat) (p : Proc) (q : Queue) (j : Uuid), s.procs[i]? = some p → p.routes = true →
    .push q j ∈ p.hand → s.store.Routes q j

theorem routes_ofPriority {st : Store} {r : Job} (hr : st.db.job? j = some r) :
    st.Routes (Queue.ofPriority r.priority) j := ⟨r, hr, Queue.ofPriority_eq_iff.mp rfl⟩

theorem Proc.push_default {p : Proc} (hp : p.routes = false) (h : .push q j ∈ p.hand) : q = .default := by
  cases p with
  | replay pc =>
    cases pc with
    | push =>
      cases List.mem_singleton.mp h
      rfl
    | _ => cases h
  | reaper p =>
    obtain ⟨_, _, pc, _⟩ := p
    cases pc with
    | requeueRem | requeuePush | pushRetries =>
      obtain ⟨_, _, heq⟩ := List.mem_map.mp h
      cases heq
      rfl
    | _ => cases h
  | gone => cases h
  | _ => cases hp

theorem routes_of_step {p p' : Proc} (h : step env s a = some s') (hp : s.procs[i]? = some p)
    (hp' : s'.procs[i]? = some p') (hr : p'.routes = true) : p.routes = true := by
  cases became_of_step h hp' with
  | kept hq =>
    cases hp.symm.trans hq
    exact hr
  | spawned _ _ hi => exact absurd (List.getElem?_eq_some_iff.mp hp).1 (hi ▸ lt_irrefl _)
  | signalled q hq heq =>
    cases hp.symm.trans hq
    rw [heq] at hr
    cases p <;> exact hr
  | crashed heq =>
    rw [heq] at hr
    cases hr
  | ran hq hop he =>
    cases hp.symm.trans hq
    cases Proc.goes_of_next hop he <;> exact hr

namespace Routed

theorem ready_step (hT : Timely s) (hI : Routed s) (hd : DefaultsUnrouted env s a)
    (h : step env s a = some s') (hj : j ∈ s'.store.redis.lists q) : s'.store.Routes q j := by
  refine Store.Routes.step ?_ h
  rcases store_of_step h with ⟨pid, ch, c, x, hc, hx⟩ | ⟨_, _, hredis⟩
  · have unrouted {r : Job} (hr : s.store.db.job? j = some r) (hmem : j ∈ s.unrouted pid c) :
        s.store.Routes .default j := ⟨r, hr, hd _ hc j hmem r hr⟩
    rcases Call.mem_lists_of_run hx hj with hold | htoken | ⟨t, rfl, hdue⟩
    · exact hI.ready q j hold
    · obtain ⟨p, hp, hmem⟩ := mem_hand_of_call? hc htoken
      cases hroutes : p.routes with
      | true => exact hI.hand pid p q j hp hroutes hmem
      | false =>
        obtain ⟨r, hr, _⟩ := hT.hand pid p hp _ hmem
        obtain rfl := Proc.push_default hroutes hmem
        apply unrouted hr
        have hany : (s.procs[pid]?).any (!·.routes) = true := by rw [hp, Option.any_some, hroutes]; rfl
        cases c <;> cases htoken <;> exact List.mem_of_mem_head? (by rw [State.unrouted, if_pos hany]; rfl)
    · obtain ⟨_, _, _, rfl⟩ := promoter_of_call? hc
      obtain ⟨_, _, he⟩ := SortedSet.mem_rangeTo.mp hdue
      obtain ⟨r, hr, _⟩ := hT.scheduled _ he
      exact unrouted hr hdue
  · exact hI.ready q j (hredis ▸ hj)

theorem hand_step (hI : Routed s) (h : step env s a = some s') {p' : Proc} (hp' : s'.procs[i]? = some p')
    (hroutes : p'.routes = true) (hx : .push q j ∈ p'.hand) : s'.store.Routes q j := by
  rcases hand_of_step h hp' hx with ⟨p, hp, hx⟩ | ⟨p, ch, c, hp, hissue⟩
  · exact (hI.hand i p q j hp (routes_of_step h hp hp' hroutes) hx).step h
  · have hr := routes_of_step h hp hp' hroutes
    generalize hpush : Token.push q j = x at hissue
    cases hissue with
    | @create req row hrun =>
      obtain ⟨hrow, hnew⟩ := Call.row_of_inserted hrun
      unfold JobCreateRequest.token at hpush
      split at hpush <;> cases hpush
      rw [show req.priority = row.priority by rw [hnew]; rfl]
      exact routes_ofPriority hrow
    | promoted hrun hmem =>
      cases hpush
      obtain ⟨r, hrow, _, rfl⟩ := Call.row_of_promoted hrun hmem
      exact Store.Routes.step (routes_ofPriority (r := r) hrow) h
    | reclaimed hrun hmem =>
      cases hpush
      obtain ⟨r, hrow, _, rfl⟩ := Call.row_of_reclaimed hrun hmem
      exact Store.Routes.step (routes_ofPriority (r := r) hrow) h
    | replayed | reaped | retried => cases hr
    | _ => cases hpush

end Routed

theorem routed_init (t : Nat) : Routed (.init t) where
  ready _ _ hj := by cases hj
  hand _ _ _ _ hp := by cases hp

theorem routed_of_reachable {t : Nat} (h : Reachable (DefaultsUnrouted env) (step env) (.init t) s) :
    Routed s := by
  apply h.invariant_with (fun s h => timely_of_reachable h) (routed_init t)
  intro s a s' hT hI hd h
  constructor
  · exact fun _ _ hj => hI.ready_step hT hd h hj
  · exact fun _ _ _ _ hp hr hx => hI.hand_step h hp hr hx

/-- Every ready list holds jobs of its own priority only. -/
def RoutingLaw (env : Env) (ok : State → Action → Prop) : Prop :=
  ∀ (t : Nat) (s : State) (q : Queue) (j : Uuid), Reachable ok (step env) (.init t) s →
    j ∈ s.store.redis.lists q → ∃ r, s.store.db.job? j = some r ∧ q.Admits r.priority

theorem routingLaw_of_defaults (env : Env) : RoutingLaw env (DefaultsUnrouted env) :=
  fun _ _ q j h hj => (routed_of_reachable h).ready q j hj

def urgent (scheduledFor : Option Time) : JobCreateRequest :=
  { report with priority := 5, scheduledFor := scheduledFor }

/-- An urgent job that fails goes back to `queue:high` for its retry. -/
theorem routingLaw_retried : ∃ s r, Reachable (DefaultsUnrouted minutely) (step minutely) (.init 0) s ∧
    7 ∈ s.store.redis.lists .high ∧ s.store.db.job? 7 = some r ∧ r.attempts = 1 ∧ 0 < r.priority := by
  obtain ⟨s, h, hs⟩ : ∃ s, Reachable (DefaultsUnrouted minutely) (step minutely) (.init 0) s ∧ _ :=
    exists_reachable_of_exec ([.spawn (.submit (urgent none)), .run 0 {}, .run 0 { freshId := 7 }] ++
        calls 0 2 ++ [.spawn .worker] ++ calls 1 4 ++ [.run 1 { outcome := .error (.exception "down") }] ++ calls 1 2 ++
        [.tick 300000000, .spawn .scheduler] ++ calls 2 6)
      (fun s => 7 ∈ s.store.redis.lists .high ∧ ∃ r ∈ s.store.db.job? 7, r.attempts = 1) (by decide +kernel)
  obtain ⟨hmem, r, hr, hn⟩ := of_decide_eq_true hs
  obtain ⟨r', hr', hq⟩ := routingLaw_of_defaults minutely 0 s .high 7 h hmem
  cases hr.symm.trans hr'
  exact ⟨s, r, h, hmem, hr, hn, hq⟩

/-- An urgent job that is delayed comes to `queue:default`. -/
theorem not_routingLaw : ¬ RoutingLaw minutely Unrestricted := by
  intro law
  obtain ⟨s, h, hs⟩ : ∃ s, Reachable Unrestricted (step minutely) (.init 0) s ∧ _ :=
    exists_reachable_of_exec ([.spawn (.submit (urgent (some 0))), .run 0 {}, .run 0 { freshId := 7 }] ++
        calls 0 2 ++ [.spawn .scheduler] ++ calls 1 5)
      (fun s => 7 ∈ s.store.redis.lists .default ∧ ∃ r ∈ s.store.db.job? 7, r.priority = 5) (by decide)
  obtain ⟨hmem, r, hr, hn⟩ := of_decide_eq_true hs
  obtain ⟨r', hr', hq⟩ := law 0 s .default 7 h hmem
  cases hr.symm.trans hr'
  exact absurd (hn.symm.trans hq) (by decide)

end DistribuQ
