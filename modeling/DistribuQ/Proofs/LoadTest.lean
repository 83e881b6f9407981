import DistribuQ.Proofs.Posting
import DistribuQ.Proofs.Reports

/-! What the load test measures: each index is posted once, and the jobs it reports on are those it has submitted. -/

namespace DistribuQ
namespace LoadTest
open Transition
variable {env : Env} {test : LoadTest} {x x' : Bench} {s s' : State} {a : DistribuQ.Action} {m : Action}
  {i k : Nat} {j : Uuid} {db db' : Database} {task : Task}

/-- The index that a task has in hand. -/
def Task.index? : Task → Option Nat
  | posting i _ _ | answered i _ _ => some i
  | _ => none

/-- All that a step can do. -/
inductive Moves (env : Env) (test : LoadTest) (x : Bench) : Action → Bench → Prop
  | service {a : DistribuQ.Action} {s : State} : DistribuQ.step env x.service a = some s →
      Moves env test x (.service a) { x with service := s, tasks := x.tasks.map (Task.hear x.service s) }
  | ended {k : Nat} {now : Time} : x.tasks[k]? = some .loop → x.queue = [] →
      Moves env test x (.resume k now) { x with tasks := x.tasks.set k .returned }
  | posted {k i : Nat} {now : Time} {queue : List Nat} : x.tasks[k]? = some .loop → x.queue = i :: queue →
      Moves env test x (.resume k now) { x with
        service := { x.service with procs := x.service.procs ++ [(Request.submit (test.request i)).toProc] }
        queue := queue
        tasks := x.tasks.set k (.posting i now x.service.procs.length) }
  | created {k i : Nat} {now t₀ : Time} {e : String} {j : Uuid} : x.tasks[k]? = some (.answered i t₀ (some j)) →
      Moves env test x (.receive k now e) (x.append k (.submitted j (now - t₀)))
  | refused {k i : Nat} {now t₀ : Time} {e : String} : x.tasks[k]? = some (.answered i t₀ none) →
      Moves env test x (.receive k now e) (x.append k (.failed e))
  | disconnected {k i : Nat} {e : String} {task : Task} : x.tasks[k]? = some task →
      (task.index? = some i) → Moves env test x (.disconnect k e) (x.append k (.failed e))
  | gathered : x.phase = .submitting → (∀ task ∈ x.tasks, task = .returned) →
      Moves env test x .gather { x with phase := if x.jobIds = [] then .noneSubmitted else .draining none }
  | polled {counts : Option Counts} : x.phase = .draining counts →
      Moves env test x (.poll true none) { x with
        phase := if x.jobIds.length ≤ completed (statusCounts x.service.store.db x.jobIds)
          then .fetching (statusCounts x.service.store.db x.jobIds) true
          else .draining (some (statusCounts x.service.store.db x.jobIds)) }
  | timedOut {counts : Counts} {fault : Option String} : x.phase = .draining (some counts) →
      Moves env test x (.poll false fault) { x with phase := .fetching counts false }
  | fetched {counts : Counts} {completedAll : Bool} {order : List Uuid} :
      x.phase = .fetching counts completedAll →
      Moves env test x (.fetch order none) { x with
        phase := .finished counts completedAll (fetchLatencies x.service.store.db x.jobIds order) }
  | raised {m : Action} {e : String} : (∃ counts, x.phase = .draining counts) ∨
      (∃ counts completedAll, x.phase = .fetching counts completedAll) →
      Moves env test x m { x with phase := .raised e }

theorem moves_of_step (h : step env test x m = some x') : Moves env test x m x' := by
  cases m with
  | service a =>
    obtain ⟨s, hs, rfl⟩ := Option.map_eq_some_iff.mp h
    exact .service hs
  | resume k now =>
    simp only [step] at h
    split at h
    · rename_i hk hq
      cases h
      exact .ended hk hq
    · rename_i i queue hk hq
      cases h
      exact .posted hk hq
    · cases h
  | receive k now e =>
    simp only [step] at h
    split at h
    · rename_i hk
      cases h
      exact .created hk
    · rename_i hk
      cases h
      exact .refused hk
    · cases h
  | disconnect k e =>
    simp only [step] at h
    split at h
    · rename_i hk
      cases h
      exact .disconnected hk rfl
    · rename_i hk
      cases h
      exact .disconnected hk rfl
    · cases h
  | gather =>
    simp only [step] at h
    split at h
    · rename_i hphase
      by_cases hall : x.tasks.all Task.isReturned = true
      · rw [if_pos hall] at h
        cases h
        refine .gathered hphase fun task ht => ?_
        have hreturned := List.all_eq_true.mp hall task ht
        cases task <;> first | rfl | cases hreturned
      · rw [if_neg hall] at h
        cases h
    · cases h
  | poll beforeDeadline fault =>
    simp only [step] at h
    split at h
    · rename_i counts hphase
      cases beforeDeadline with
      | true =>
        cases fault with
        | none =>
          cases h
          exact .polled hphase
        | some e =>
          cases h
          exact .raised (.inl ⟨_, hphase⟩)
      | false =>
        cases counts with
        | none =>
          cases h
          exact .raised (.inl ⟨_, hphase⟩)
        | some counts =>
          cases h
          exact .timedOut hphase
    · cases h
  | fetch order fault =>
    simp only [step] at h
    split at h
    · rename_i counts completedAll hphase
      cases fault with
      | none =>
        cases h
        exact .fetched hphase
      | some e =>
        cases h
        exact .raised (.inr ⟨_, _, hphase⟩)
    · cases h

/-! The submissions. -/

/-- Job `j` has been created for index `i`. -/
def Created (test : LoadTest) (db : Database) (i : Nat) (j : Uuid) : Prop := (test.request i).Created db j

/-- The index can be read off the payload. -/
theorem eq_of_payload (i k : Nat) (h : (test.request i).payload = (test.request k).payload) : i = k := by
  have hlast := List.append_inj_right' h rfl
  simpa using hlast

/-- What a task stands for. -/
def Task.Sound (test : LoadTest) (s : State) : Task → Prop
  | .posting i _ pid => ∃ pc, s.procs[pid]? = some (.submit pc) ∧ Submit.Serves (test.request i) s.store.db pc
  | .answered i _ (some j) => Created test s.store.db i j
  | _ => True

theorem Task.Sound.append (h : task.Sound test s) (p : Proc) :
    task.Sound test { s with procs := s.procs ++ [p] } := by
  cases task with
  | posting i t₀ pid =>
    obtain ⟨pc, hp, hserves⟩ := h
    refine ⟨pc, ?_, hserves⟩
    rw [List.getElem?_append_left (List.getElem?_eq_some_iff.mp hp).1]
    exact hp
  | answered _ _ jobId => cases jobId <;> exact h
  | _ => exact h

theorem sound_hear (h : task.Sound test s) (hs : DistribuQ.step env s a = some s') :
    (task.hear s s').Sound test s' := by
  cases task with
  | loop | returned => trivial
  | answered i t₀ jobId =>
    cases jobId with
    | none => trivial
    | some j => exact JobCreateRequest.Created.step h hs
  | posting i t₀ pid =>
    obtain ⟨pc, hp, hserves⟩ := h
    obtain ⟨p', hp', hnext⟩ := Submit.served_step hp hserves hs
    have hhear : Task.hear s s' (.posting i t₀ pid) =
        (answer? (.submit pc) p').elim (.posting i t₀ pid) (.answered i t₀) := by
      simp [Task.hear, hp, hp']
    rw [hhear]
    rcases hnext with ⟨pc', rfl, hserves', hnone⟩ | ⟨jobId, hsome, hcreated⟩
    · rw [hnone]
      exact ⟨pc', hp', hserves'⟩
    · rw [hsome]
      cases jobId with
      | none => trivial
      | some j => exact hcreated j rfl

theorem index?_hear (task : Task) (s s' : State) : (task.hear s s').index? = task.index? := by
  cases task with
  | posting i t₀ pid =>
    rw [Task.hear]
    cases (do answer? (← s.procs[pid]?) (← s'.procs[pid]?)) <;> rfl
  | _ => rfl

/-- Each index is still queued, in the hands of a task, or done with a result of its own. -/
structure Account (test : LoadTest) (x : Bench) : Prop where
  tasks : ∀ task ∈ x.tasks, task.Sound test x.service
  indices : ∃ done : List Nat,
    List.Forall₂ (fun i result => ∀ j, Result.jobId? result = some j → Created test x.service.store.db i j)
      done x.results ∧
    (x.queue ++ (x.tasks.filterMap Task.index? ++ done)).Perm (List.range test.totalJobs)
  returned : Task.returned ∈ x.tasks → x.queue = []

theorem filterMap_set_perm {α β : Type} {f : α → Option β} {l : List α} {a b : α} (h : l[k]? = some a) :
    ((f a).toList ++ (l.set k b).filterMap f).Perm ((f b).toList ++ l.filterMap f) := by
  induction l generalizing k with
  | nil => simp at h
  | cons c l ih =>
    cases k with
    | zero =>
      obtain rfl : c = a := by simpa using h
      cases hc : f c <;> cases hb : f b <;> simp [hc, hb, List.Perm.swap]
    | succ k =>
      have hl : l[k]? = some a := by simpa using h
      have hperm := ih hl
      cases hc : f c with
      | none => simpa [hc] using hperm
      | some y =>
        have hswap (u v : List β) : (u ++ y :: v).Perm (y :: (u ++ v)) := List.perm_middle
        simp only [List.set_cons_succ, List.filterMap_cons, hc]
        exact (hswap _ _).trans ((hperm.cons y).trans (hswap _ _).symm)

theorem mem_of_mem_set {l : List Task} {task task' : Task} (h : task ∈ l.set k task') :
    task ∈ l ∨ task = task' :=
  List.mem_or_eq_of_mem_set h

/-- A result is recorded for the index that its task had in hand. -/
theorem Account.append {result : Result} (hI : Account test x) (hk : x.tasks[k]? = some task)
    (hi : task.index? = some i) (hresult : ∀ j, result.jobId? = some j → Created test x.service.store.db i j) :
    Account test (x.append k result) := by
  obtain ⟨done, hdone, hperm⟩ := hI.indices
  refine ⟨fun task' ht => ?_, ⟨done ++ [i], ?_, ?_⟩, fun hr => ?_⟩
  · rcases mem_of_mem_set ht with ht | rfl
    · exact hI.tasks task' ht
    · trivial
  · exact List.rel_append hdone (.cons hresult .nil)
  · have hset := filterMap_set_perm (f := Task.index?) (b := .loop) hk
    rw [hi] at hset
    refine .trans ?_ hperm
    refine List.Perm.append_left _ ?_
    have hmove : ((x.append k result).tasks.filterMap Task.index? ++ (done ++ [i])).Perm
        ((i :: (x.append k result).tasks.filterMap Task.index?) ++ done) := by
      rw [← List.append_assoc]
      exact List.perm_append_comm
    exact hmove.trans (hset.append_right done)
  · rcases mem_of_mem_set hr with hr | hr
    · exact hI.returned hr
    · cases hr

theorem eq_returned_of_hear (h : task.hear s s' = .returned) : task = .returned := by
  cases task with
  | posting i t₀ pid =>
    rw [Task.hear] at h
    cases hx : (do answer? (← s.procs[pid]?) (← s'.procs[pid]?)) <;> rw [hx] at h <;> cases h
  | returned => rfl
  | _ => cases h

theorem account_step (hI : Account test x) (h : step env test x m = some x') : Account test x' := by
  have hsame {phase : Phase} : Account test { x with phase := phase } := ⟨hI.tasks, hI.indices, hI.returned⟩
  cases moves_of_step h with
  | @service _ s hs =>
    obtain ⟨done, hdone, hperm⟩ := hI.indices
    refine ⟨fun task ht => ?_, ⟨done, hdone.imp fun _ _ hj j hres => (hj j hres).step hs, ?_⟩, fun hr => ?_⟩
    · obtain ⟨task₀, ht₀, rfl⟩ := List.mem_map.mp ht
      exact sound_hear (hI.tasks task₀ ht₀) hs
    · have hindex : (x.tasks.map (Task.hear x.service s)).filterMap Task.index? =
        x.tasks.filterMap Task.index? := by
        rw [List.filterMap_map]
        exact congrArg (fun f => x.tasks.filterMap f) (funext fun task => index?_hear task x.service s)
      exact (congrArg (fun l => x.queue ++ (l ++ done)) hindex) ▸ hperm
    · obtain ⟨task₀, ht₀, heq⟩ := List.mem_map.mp hr
      exact hI.returned (eq_returned_of_hear heq ▸ ht₀)
  | @ended k _ hk hq =>
    obtain ⟨done, hdone, hperm⟩ := hI.indices
    refine ⟨fun task ht => ?_, ⟨done, hdone, ?_⟩, fun _ => hq⟩
    · rcases mem_of_mem_set ht with ht | rfl
      · exact hI.tasks task ht
      · trivial
    · have hset := filterMap_set_perm (f := Task.index?) (b := .returned) hk
      exact (List.Perm.append_left _ (hset.append_right done)).trans hperm
  | @posted k i now queue hk hq =>
    obtain ⟨done, hdone, hperm⟩ := hI.indices
    refine ⟨fun task ht => ?_, ⟨done, hdone, ?_⟩, fun hr => ?_⟩
    · rcases mem_of_mem_set ht with ht | rfl
      · exact (hI.tasks task ht).append _
      · refine ⟨.validate (test.request i), ?_, rfl⟩
        simp [Request.toProc]
    · have hset := filterMap_set_perm (f := Task.index?) (b := .posting i now x.service.procs.length) hk
      rw [hq] at hperm
      have hmiddle : (queue ++ (i :: x.tasks.filterMap Task.index? ++ done)).Perm
          (i :: (queue ++ (x.tasks.filterMap Task.index? ++ done))) := List.perm_middle
      exact ((List.Perm.append_left _ (hset.append_right done)).trans hmiddle).trans hperm
    · rcases mem_of_mem_set hr with hr | hr
      · rw [hI.returned hr] at hq
        cases hq
      · cases hr
  | created hk =>
    refine hI.append hk rfl fun j hj => ?_
    cases hj
    exact hI.tasks _ (List.mem_of_getElem? hk)
  | refused hk => exact hI.append hk rfl nofun
  | disconnected hk hi => exact hI.append hk hi nofun
  | gathered | polled | timedOut | fetched | raised => exact hsame

theorem account_init (test : LoadTest) (s : State) : Account test (init test s) where
  tasks task ht := by
    obtain ⟨_, rfl⟩ := List.mem_replicate.mp ht
    trivial
  indices := by
    have hnone : (List.replicate test.concurrency Task.loop).filterMap Task.index? = [] := by
      rw [List.filterMap_replicate_of_none rfl]
    refine ⟨[], .nil, ?_⟩
    show (List.range test.totalJobs ++ ((List.replicate test.concurrency Task.loop).filterMap _ ++ [])).Perm _
    rw [hnone, List.append_nil, List.append_nil]
  returned hr := by
    obtain ⟨_, hr⟩ := List.mem_replicate.mp hr
    cases hr

theorem account_of_reachable {ok : Bench → Action → Prop} (h : Reachable ok (step env test) (init test s) x) :
    Account test x :=
  h.invariant (account_init test s) fun _ _ _ hI _ hs => account_step hI hs

/-- From `asyncio.gather` on every task has returned. -/
structure Gathered (test : LoadTest) (x : Bench) : Prop where
  count : x.tasks.length = test.concurrency
  returned : x.phase ≠ .submitting → ∀ task ∈ x.tasks, task = .returned

theorem Gathered.submitting (hI : Gathered test x) (hk : x.tasks[k]? = some task) (hne : task ≠ .returned) :
    x.phase = .submitting := by
  by_contra hphase
  exact hne (hI.returned hphase task (List.mem_of_getElem? hk))

theorem gathered_step (hI : Gathered test x) (h : step env test x m = some x') : Gathered test x' := by
  have hset {k : Nat} {task task' : Task} (hk : x.tasks[k]? = some task) (hne : task ≠ .returned) {x' : Bench}
      (htasks : x'.tasks = x.tasks.set k task') (hphase : x'.phase = x.phase) : Gathered test x' := by
    refine ⟨?_, fun hp => absurd (hphase.trans (hI.submitting hk hne)) hp⟩
    rw [htasks, List.length_set]
    exact hI.count
  cases moves_of_step h with
  | service hs =>
    refine ⟨(List.length_map _).trans hI.count, fun hp task ht => ?_⟩
    obtain ⟨task₀, ht₀, rfl⟩ := List.mem_map.mp ht
    rw [hI.returned hp task₀ ht₀]
    rfl
  | ended hk | posted hk => exact hset hk nofun rfl rfl
  | created hk | refused hk => exact hset hk nofun rfl rfl
  | disconnected hk hi =>
    refine hset hk (fun hr => ?_) rfl rfl
    rw [hr] at hi
    cases hi
  | gathered hp hall => exact ⟨hI.count, fun _ => hall⟩
  | polled hp | timedOut hp | fetched hp => exact ⟨hI.count, fun _ => hI.returned (by rw [hp]; nofun)⟩
  | raised hp =>
    refine ⟨hI.count, fun _ => hI.returned ?_⟩
    rcases hp with ⟨_, hp⟩ | ⟨_, _, hp⟩ <;> rw [hp] <;> nofun

theorem gathered_of_reachable {ok : Bench → Action → Prop} (h : Reachable ok (step env test) (init test s) x) :
    Gathered test x :=
  h.invariant (I := Gathered test) ⟨List.length_replicate, fun hp => absurd rfl hp⟩
    fun _ _ _ hI _ hs => gathered_step hI hs

theorem nodup_jobIds (hI : Account test x) : x.jobIds.Nodup ∧
    ∀ j ∈ x.jobIds, ∃ i < test.totalJobs, Created test x.service.store.db i j := by
  obtain ⟨done, hdone, hperm⟩ := hI.indices
  have hall := hperm.nodup_iff.mpr List.nodup_range
  have hnodup : done.Nodup := (List.nodup_append.mp (List.nodup_append.mp hall).2.1).2.1
  obtain ⟨hids, hsource⟩ := JobCreateRequest.nodup_of_created eq_of_payload hdone hnodup
  refine ⟨hids, fun j hj => ?_⟩
  obtain ⟨i, hi, hcreated⟩ := hsource j hj
  have hmem : i ∈ x.queue ++ (x.tasks.filterMap Task.index? ++ done) := by simp [hi]
  exact ⟨i, List.mem_range.mp (hperm.mem_iff.mp hmem), hcreated⟩

/-- When the tasks have returned there is one result for each index. -/
theorem length_results (hI : Account test x) (hG : Gathered test x) (hpos : 0 < test.concurrency)
    (hphase : x.phase ≠ .submitting) : x.results.length = test.totalJobs := by
  obtain ⟨done, hdone, hperm⟩ := hI.indices
  have hreturned := hG.returned hphase
  have hqueue : x.queue = [] := by
    obtain ⟨task, ht⟩ := List.exists_mem_of_length_pos (hG.count ▸ hpos)
    exact hI.returned (hreturned task ht ▸ ht)
  have hidle : x.tasks.filterMap Task.index? = [] := by
    refine List.filterMap_eq_nil_iff.mpr fun task ht => ?_
    rw [hreturned task ht]
    rfl
  rw [hqueue, hidle, List.nil_append, List.nil_append] at hperm
  rw [← hdone.length_eq, hperm.length_eq, List.length_range]

/-! The drain. -/

section
variable {ids : List Uuid} {x : JobStatus}

/-- The rows of a batch, by the ids. -/
theorem select_perm (hids : ids.Nodup) (p : Job → Bool) :
    ((db.jobs.select fun r => r.id ∈ ids && p r).map Job.id).Perm (ids.filter fun j => (db.job? j).any p) := by
  refine (List.perm_ext_iff_of_nodup (db.jobs.nodup_select _) (hids.filter _)).mpr fun j => ?_
  rw [List.mem_map, List.mem_filter, Option.any_eq_true]
  constructor
  · rintro ⟨r, hr, rfl⟩
    obtain ⟨hfind, hp⟩ := (Table.mem_select _ _).mp hr
    rw [Bool.and_eq_true, decide_eq_true_eq] at hp
    exact ⟨hp.1, r, hfind, hp.2⟩
  · rintro ⟨hj, r, hfind, hp⟩
    obtain rfl := Database.id_of_job? hfind
    refine ⟨r, (Table.mem_select _ _).mpr ⟨hfind, ?_⟩, rfl⟩
    rw [Bool.and_eq_true, decide_eq_true_eq]
    exact ⟨hj, hp⟩

theorem any_status (db : Database) (j : Uuid) (x : JobStatus) :
    (db.job? j).any (fun r => r.status = x) = decide (db.status? j = some x) := by
  rw [Database.status?]
  cases db.job? j <;> simp

theorem get_statusCounts (hids : ids.Nodup) (x : JobStatus) :
    (statusCounts db ids).get x = ids.countP fun j => db.status? j = some x := by
  have hselect : (batch db ids).filter (fun r => r.status = x) = db.jobs.select fun r =>
      r.id ∈ ids && r.status = x := by
    rw [batch, Table.select, Table.select, List.filter_filter]
    exact List.filter_congr fun r _ => Bool.and_comm _ _
  have hperm : ((db.jobs.select fun r => r.id ∈ ids && r.status = x).map Job.id).Perm _ := select_perm hids _
  have hlen := hperm.length_eq
  rw [List.length_map, ← hselect] at hlen
  rw [statusCounts, Counts.get, Job.lookup_groupByStatus, List.countP_eq_length_filter, hlen,
    ← List.countP_eq_length_filter]
  exact List.countP_congr fun j _ => by rw [any_status]

/-- The statuses that `wait_for_queue_drain` counts as completed. -/
def isOver : JobStatus → Bool
  | .success | .deadLetter | .failed => true
  | _ => false

theorem completed_statusCounts (hids : ids.Nodup) :
    completed (statusCounts db ids) = ids.countP fun j => (db.status? j).any isOver := by
  simp only [completed, get_statusCounts hids]
  clear hids
  induction ids with
  | nil => rfl
  | cons j ids ih =>
    simp only [List.countP_cons, ← ih]
    cases db.status? j with
    | none =>
      simp
    | some x =>
      cases x <;> simp [isOver] <;> omega

/-- When as many are completed as were submitted, all are. -/
theorem over_of_le (hids : ids.Nodup) (h : ids.length ≤ completed (statusCounts db ids)) :
    ∀ j ∈ ids, (db.status? j).any isOver = true := by
  rw [completed_statusCounts hids] at h
  exact List.countP_eq_length.mp (le_antisymm List.countP_le_length h)

end

theorem exists_over (h : (db.status? j).any isOver = true) : ∃ r, db.job? j = some r ∧ isOver r.status = true := by
  obtain ⟨x, hx, hover⟩ := (Option.any_eq_true _ _).mp h
  obtain ⟨r, hr, rfl⟩ := Option.map_eq_some_iff.mp hx
  exact ⟨r, hr, hover⟩

/-- A job that is over is left as it is, until it is replayed. -/
theorem job?_of_over {r : Job} (hL : s.store.db.LettersAgree) (hf : Fenced env s a)
    (h : DistribuQ.step env s a = some s') (hn : ¬ s.Replays env a j) (hr : s.store.db.job? j = some r)
    (hover : isOver r.status = true) : s'.store.db.job? j = some r := by
  rcases guarded_step hL hf h hr with hsame | ⟨pid, c, r', hc, hr', hg⟩
  · exact hsame
  · obtain rfl := Database.id_of_job? hr
    cases hg with
    | kept => exact hr'
    | lock hclaim =>
      cases hs : r.status <;> simp [isOver, Job.claimable, hs] at hover hclaim
    | reset => exact absurd ⟨_, hc, rfl⟩ hn
    | succeed _ hs | retry _ _ hs | bury _ _ hs | release _ hs | promote hs | cancel hs =>
      rw [hs] at hover
      cases hover

/-- The milliseconds from the creation of a job to its last update. -/
def duration (r : Job) : ℚ := ((r.updatedAt - r.createdAt : Int) : ℚ) / 1000

/-- The jobs of a batch that have succeeded. -/
def succeeded (db : Database) (ids : List Uuid) : List Job :=
  db.jobs.select fun r => r.id ∈ ids && r.status = .success

theorem fetchLatencies_perm (db : Database) (ids order : List Uuid) :
    (fetchLatencies db ids order).Perm ((succeeded db ids).map duration) :=
  (Table.perm_inOrder _ _).map _

theorem length_fetchLatencies {ids : List Uuid} (hids : ids.Nodup) (order : List Uuid) :
    (fetchLatencies db ids order).length = ids.countP fun j => db.status? j = some .success := by
  have hperm : ((db.jobs.select fun r => r.id ∈ ids && r.status = .success).map Job.id).Perm _ :=
      select_perm hids _
  have hlen := hperm.length_eq
  rw [List.length_map] at hlen
  rw [(fetchLatencies_perm db ids order).length_eq, List.length_map, succeeded, hlen,
    ← List.countP_eq_length_filter]
  exact List.countP_congr fun j _ => by rw [any_status]

/-- Rows that are the same have the same latencies. -/
theorem succeeded_perm {ids : List Uuid} (h : ∀ j ∈ ids, db'.job? j = db.job? j) :
    (succeeded db' ids).Perm (succeeded db ids) := by
  have hnodup (db : Database) : (succeeded db ids).Nodup := .of_map Job.id (db.jobs.nodup_select _)
  refine (List.perm_ext_iff_of_nodup (hnodup db') (hnodup db)).mpr fun r => ?_
  rw [succeeded, succeeded, Table.mem_select, Table.mem_select, Bool.and_eq_true, decide_eq_true_eq]
  constructor
  · rintro ⟨hr, hid, hs⟩
    exact ⟨(h r.id hid).symm.trans hr, hid, hs⟩
  · rintro ⟨hr, hid, hs⟩
    exact ⟨(h r.id hid).trans hr, hid, hs⟩

theorem duration_nonneg {ok : State → DistribuQ.Action → Prop} {t : Nat}
    (h : Reachable ok (DistribuQ.step env) (.init t) s) {ids order : List Uuid} :
    ∀ v ∈ fetchLatencies s.store.db ids order, 0 ≤ v := by
  intro v hv
  obtain ⟨r, hr, rfl⟩ := List.mem_map.mp ((fetchLatencies_perm _ _ _).mem_iff.mp hv)
  have hdated := dated_of_reachable h ((Table.mem_select _ _).mp hr).1
  have hnonneg : (0 : Int) ≤ r.updatedAt - r.createdAt := Int.sub_nonneg.mpr hdated.created
  exact div_nonneg (by exact_mod_cast hnonneg) (by norm_num)

/-- The counts are those of jobs that are all over. -/
def Settled (db : Database) (ids : List Uuid) (counts : Counts) : Prop :=
  (∀ j ∈ ids, (db.status? j).any isOver = true) ∧ ∀ x, counts.get x = ids.countP fun j => db.status? j = some x

/-- No more is counted of what is over than there is. -/
def Counted (db : Database) (ids : List Uuid) (counts : Counts) : Prop :=
  ∀ x, isOver x = true → counts.get x ≤ ids.countP fun j => db.status? j = some x

/-- What the test has measured so far. -/
def Measured (db : Database) (ids : List Uuid) : Phase → Prop
  | .draining (some counts) => Counted db ids counts
  | .fetching counts completedAll => Counted db ids counts ∧ (completedAll = true → Settled db ids counts)
  | .finished counts completedAll latencies =>
    counts.get .success ≤ latencies.length ∧
      (completedAll = true → Settled db ids counts ∧ latencies.Perm ((succeeded db ids).map duration))
  | _ => True

section
variable {ids : List Uuid} {counts : Counts} {phase : Phase}

theorem Settled.kept (h : Settled db ids counts) (hkept : ∀ j ∈ ids, db'.job? j = db.job? j) :
    Settled db' ids counts := by
  have hstatus (j : Uuid) (hj : j ∈ ids) : db'.status? j = db.status? j :=
      congrArg (Option.map Job.status) (hkept j hj)
  refine ⟨fun j hj => by rw [hstatus j hj]; exact h.1 j hj, fun x => ?_⟩
  rw [h.2 x]
  exact List.countP_congr fun j hj => by rw [hstatus j hj]

theorem Counted.mono (h : Counted db ids counts)
    (hkept : ∀ j ∈ ids, (db.status? j).any isOver = true → db'.job? j = db.job? j) : Counted db' ids counts := by
  intro x hx
  refine (h x hx).trans (List.countP_mono_left fun j hj hs => ?_)
  have hs : db.status? j = some x := of_decide_eq_true hs
  have hjob := hkept j hj (by rw [hs]; exact hx)
  exact decide_eq_true ((congrArg (Option.map Job.status) hjob).trans hs)

/-- What is measured stays true while the jobs that are over are left as they are. -/
theorem Measured.mono (h : Measured db ids phase)
    (hkept : ∀ j ∈ ids, (db.status? j).any isOver = true → db'.job? j = db.job? j) : Measured db' ids phase := by
  cases phase with
  | draining counts =>
    cases counts with
    | none => trivial
    | some counts => exact Counted.mono h hkept
  | fetching counts completedAll =>
    exact ⟨h.1.mono hkept, fun hall => (h.2 hall).kept fun j hj => hkept j hj ((h.2 hall).1 j hj)⟩
  | finished counts completedAll latencies =>
    refine ⟨h.1, fun hall => ?_⟩
    obtain ⟨hsettled, hperm⟩ := h.2 hall
    have hsame (j : Uuid) (hj : j ∈ ids) : db'.job? j = db.job? j := hkept j hj (hsettled.1 j hj)
    exact ⟨hsettled.kept hsame, hperm.trans ((succeeded_perm hsame).map duration).symm⟩
  | _ => trivial

theorem counted_statusCounts (hids : ids.Nodup) : Counted db ids (statusCounts db ids) :=
  fun x _ => (get_statusCounts hids x).le

end

/-- Outcomes are written under the lock only, and no job of the test is replayed. -/
def Steady (env : Env) (x : Bench) (m : Action) : Prop :=
  ∀ a, m = .service a → Fenced env x.service a ∧ ∀ j ∈ x.jobIds, ¬ x.service.Replays env a j

instance (env : Env) (x : Bench) : (m : Action) → Decidable (Steady env x m)
  | .service a => decidable_of_iff (Fenced env x.service a ∧ ∀ j ∈ x.jobIds, ¬ x.service.Replays env a j)
      ⟨fun h _ ha => by cases ha; exact h, fun h => h a rfl⟩
  | .resume .. | .receive .. | .disconnect .. | .gather | .poll .. | .fetch .. =>
    isTrue fun _ ha => by cases ha

/-- The service takes a step of its own, or none. -/
theorem service_of_step (h : step env test x m = some x') : x'.service = x.service ∨
    (∃ a, m = .service a ∧ DistribuQ.step env x.service a = some x'.service) ∨
    ∃ r, DistribuQ.step env x.service (.spawn r) = some x'.service := by
  cases moves_of_step h with
  | service hs => exact .inr (.inl ⟨_, rfl, hs⟩)
  | posted => exact .inr (.inr ⟨_, rfl⟩)
  | _ => exact .inl rfl

/-- What a run of the test does to the service is a run of the service. -/
theorem service_of_reachable {ok : Bench → Action → Prop} {okService : State → DistribuQ.Action → Prop} {s₀ : State}
    (hspawn : ∀ s r, okService s (.spawn r)) (hservice : ∀ x a, ok x (.service a) → okService x.service a)
    (h : Reachable ok (step env test) (init test s₀) x) :
    Reachable okService (DistribuQ.step env) s₀ x.service := by
  refine h.invariant (I := fun x => Reachable okService (DistribuQ.step env) s₀ x.service) .refl ?_
  intro x m x' hI hm hs
  rcases service_of_step hs with hsame | ⟨a, rfl, ha⟩ | ⟨r, hr⟩
  · rwa [hsame]
  · exact hI.next (hservice x a hm) ha
  · exact hI.next (hspawn _ r) hr

/-- No latency that the test has fetched is negative. -/
def NonNegative : Phase → Prop
  | .finished _ _ latencies => ∀ v ∈ latencies, 0 ≤ v
  | _ => True

theorem nonNegative_step {t : Nat} {ok : State → DistribuQ.Action → Prop}
    (hR : Reachable ok (DistribuQ.step env) (.init t) x.service) (hI : NonNegative x.phase)
    (h : step env test x m = some x') : NonNegative x'.phase := by
  cases moves_of_step h with
  | service | ended | posted | created | refused | disconnected => exact hI
  | gathered =>
    by_cases hnone : x.jobIds = []
    · rw [if_pos hnone]
      trivial
    · rw [if_neg hnone]
      trivial
  | polled =>
    by_cases hall : x.jobIds.length ≤ completed (statusCounts x.service.store.db x.jobIds)
    · rw [if_pos hall]
      trivial
    · rw [if_neg hall]
      trivial
  | timedOut | raised => trivial
  | fetched => exact duration_nonneg hR

theorem nonNegative_of_reachable {t : Nat} {s₀ : State}
    (h₀ : Reachable Unrestricted (DistribuQ.step env) (.init t) s₀)
    (h : Reachable (fun _ _ => True) (step env test) (init test s₀) x) : NonNegative x.phase := by
  have hservice (x : Bench) (h : Reachable (fun _ _ => True) (step env test) (init test s₀) x) :
      Reachable Unrestricted (DistribuQ.step env) (.init t) x.service :=
    h₀.trans (service_of_reachable (fun _ _ => trivial) (fun _ _ _ => trivial) h)
  refine h.invariant_with (I := fun x => NonNegative x.phase) hservice ?_ ?_
  · exact trivial
  · intro x m x' hR hI _ hs
    exact nonNegative_step hR hI hs

theorem measured_step (hA : Account test x) (hG : Gathered test x) (hL : x.service.store.db.LettersAgree)
    (hI : Measured x.service.store.db x.jobIds x.phase) (hm : Steady env x m)
    (h : step env test x m = some x') :
    Measured x'.service.store.db x'.jobIds x'.phase := by
  have hids := (nodup_jobIds hA).1
  have hsubmitting {k : Nat} {task : Task} (hk : x.tasks[k]? = some task) (hne : task ≠ .returned)
      (hphase : x'.phase = x.phase) : Measured x'.service.store.db x'.jobIds x'.phase := by
    rw [hphase, hG.submitting hk hne]
    trivial
  cases moves_of_step h with
  | @service a s hs =>
    obtain ⟨hf, hreplays⟩ := hm a rfl
    refine Measured.mono hI fun j hj hover => ?_
    obtain ⟨r, hr, hover⟩ := exists_over hover
    exact (job?_of_over hL hf hs (hreplays j hj) hr hover).trans hr.symm
  | ended hk | posted hk | created hk | refused hk => exact hsubmitting hk nofun rfl
  | disconnected hk hi =>
    refine hsubmitting hk (fun hr => ?_) rfl
    rw [hr] at hi
    cases hi
  | gathered =>
    by_cases hnone : x.jobIds = []
    · rw [if_pos hnone]
      trivial
    · rw [if_neg hnone]
      trivial
  | polled =>
    by_cases hall : x.jobIds.length ≤ completed (statusCounts x.service.store.db x.jobIds)
    · rw [if_pos hall]
      exact ⟨counted_statusCounts hids, fun _ => ⟨over_of_le hids hall, get_statusCounts hids⟩⟩
    · rw [if_neg hall]
      exact counted_statusCounts hids
  | timedOut hp =>
    rw [hp] at hI
    exact ⟨hI, nofun⟩
  | fetched hp =>
    rw [hp] at hI
    refine ⟨?_, fun hall => ⟨hI.2 hall, fetchLatencies_perm _ _ _⟩⟩
    rw [length_fetchLatencies hids]
    exact hI.1 .success rfl
  | raised => trivial

theorem measured_of_reachable {t : Nat} {s₀ : State}
    (h₀ : Reachable (Fenced env) (DistribuQ.step env) (.init t) s₀)
    (h : Reachable (Steady env) (step env test) (init test s₀) x) :
    Measured x.service.store.db x.jobIds x.phase := by
  have hknown (x : Bench) (h : Reachable (Steady env) (step env test) (init test s₀) x) : Account test x ∧
      Gathered test x ∧ Reachable (Fenced env) (DistribuQ.step env) (.init t) x.service := by
    refine ⟨account_of_reachable h, gathered_of_reachable h, h₀.trans (service_of_reachable ?_ ?_ h)⟩
    · exact fun _ _ _ hc => by cases hc
    · exact fun _ a hm => (hm a rfl).1
  refine h.invariant_with (I := fun x => Measured x.service.store.db x.jobIds x.phase) hknown ?_ ?_
  · exact trivial
  · rintro x m x' ⟨hA, hG, hR⟩ hI hm hs
    exact measured_step hA hG (lettersAgree_of_reachable hR) hI hm hs

/-- What a load test of a running service comes to. -/
structure MeasureLaw (env : Env) (test : LoadTest) : Prop where
  /-- However the tasks take turns and their requests fail, once they have returned each index has its result. -/
  results {s : State} {x : Bench} : 0 < test.concurrency →
    Reachable (fun _ _ => True) (step env test) (init test s) x → x.phase ≠ .submitting →
    x.results.length = test.totalJobs
  /-- The jobs it reports on are different jobs, each with the type, payload and priority of an index. -/
  jobs {s : State} {x : Bench} : Reachable (fun _ _ => True) (step env test) (init test s) x →
    x.jobIds.Nodup ∧ ∀ j ∈ x.jobIds, ∃ i < test.totalJobs, ∃ r, x.service.store.db.job? j = some r ∧
      r.origin = (test.request i).toNewJob
  /-- `completed_all` is true for good: every job is over, and the counts are theirs. -/
  drained {t : Nat} {s : State} {x : Bench} {counts : Counts} :
    Reachable (Fenced env) (DistribuQ.step env) (.init t) s →
    Reachable (Steady env) (step env test) (init test s) x →
    (x.phase = .fetching counts true ∨ ∃ latencies, x.phase = .finished counts true latencies) →
    (∀ j ∈ x.jobIds, (x.service.store.db.status? j).any isOver = true) ∧
      ∀ status, counts.get status = x.jobIds.countP fun j => x.service.store.db.status? j = some status
  /-- Whatever befalls the service, no latency is negative. -/
  nonneg {t : Nat} {s : State} {x : Bench} {counts : Counts} {completedAll : Bool} {latencies : List ℚ} :
    Reachable Unrestricted (DistribuQ.step env) (.init t) s →
    Reachable (fun _ _ => True) (step env test) (init test s) x → x.phase = .finished counts completedAll latencies →
    ∀ v ∈ latencies, 0 ≤ v
  /-- The latencies are of no fewer jobs than are counted as `SUCCESS`. -/
  sampled {t : Nat} {s : State} {x : Bench} {counts : Counts} {completedAll : Bool} {latencies : List ℚ} :
    Reachable (Fenced env) (DistribuQ.step env) (.init t) s →
    Reachable (Steady env) (step env test) (init test s) x →
    x.phase = .finished counts completedAll latencies →
    counts.get .success ≤ latencies.length
  /-- After a complete drain they are of exactly those, and whoever asks again, later, gets the same. -/
  repeatable {t : Nat} {s : State} {x : Bench} {counts : Counts} {latencies : List ℚ} (order : List Uuid) :
    Reachable (Fenced env) (DistribuQ.step env) (.init t) s →
    Reachable (Steady env) (step env test) (init test s) x → x.phase = .finished counts true latencies →
    latencies.length = counts.get .success ∧ latencies.Perm (fetchLatencies x.service.store.db x.jobIds order)

theorem measureLaw (env : Env) (test : LoadTest) : MeasureLaw env test where
  results hpos h hphase := length_results (account_of_reachable h) (gathered_of_reachable h) hpos hphase
  jobs h := nodup_jobIds (account_of_reachable h)
  drained h₀ h hphase := by
    have hI := measured_of_reachable h₀ h
    rcases hphase with hphase | ⟨latencies, hphase⟩
    · rw [hphase] at hI
      exact hI.2 rfl
    · rw [hphase] at hI
      exact (hI.2 rfl).1
  nonneg h₀ h hphase := by
    have hI := nonNegative_of_reachable h₀ h
    rwa [hphase] at hI
  sampled h₀ h hphase := by
    have hI := measured_of_reachable h₀ h
    rw [hphase] at hI
    exact hI.1
  repeatable order h₀ h hphase := by
    have hI := measured_of_reachable h₀ h
    rw [hphase] at hI
    obtain ⟨hsettled, hperm⟩ := hI.2 rfl
    have hsame := hperm.trans (fetchLatencies_perm _ _ order).symm
    refine ⟨?_, hsame⟩
    rw [hsame.length_eq, length_fetchLatencies (nodup_jobIds (account_of_reachable h)).1, hsettled.2]

theorem test_echo_ne : "test_echo" ≠ "" := by decide

def single : LoadTest := { totalJobs := 1, concurrency := 1, jobType_ne := test_echo_ne }

/-- The one task posts the one job, which becomes job 7, and worker 1 executes it. -/
def loading : List Action :=
  [.resume 0 0] ++ List.replicate 4 (.service (.run 0 { freshId := 7 })) ++ [.receive 0 5 "", .resume 0 5, .gather,
    .service (.spawn .worker)] ++ List.replicate 8 (.service (.run 1 {})) ++ [.poll true none, .fetch [] none]

def Phase.complete? : Phase → Option (Counts × List ℚ)
  | .finished counts true latencies => some (counts, latencies)
  | _ => none

theorem exists_complete {phase : Phase} {p : Counts × List ℚ → Bool} (h : phase.complete?.any p = true) :
    ∃ counts latencies, phase = .finished counts true latencies ∧ p (counts, latencies) = true := by
  cases phase with
  | finished counts completedAll latencies =>
    cases completedAll with
    | true => exact ⟨counts, latencies, rfl, h⟩
    | false => cases h
  | _ => cases h

theorem measureLaw_single : ∃ (x : Bench) (counts : Counts) (latencies : List ℚ),
    x.phase = .finished counts true latencies ∧ counts.get .success = 1 ∧ x.results.length = 1 ∧
      latencies.length = 1 ∧ ∀ v ∈ latencies, 0 ≤ v := by
  obtain ⟨x, h, hx⟩ : ∃ x, Reachable (Steady minutely) (step minutely single) (init single (.init 0)) x ∧ _ :=
    exists_reachable_of_exec loading (fun x => x.phase.complete?.any fun y => y.1.get .success = 1)
      (by decide +kernel)
  obtain ⟨counts, latencies, hphase, hsuccess⟩ := exists_complete hx
  have hone : counts.get .success = 1 := of_decide_eq_true hsuccess
  have hany := h.mono fun _ _ _ => trivial
  have hended : x.phase ≠ .submitting := by rw [hphase]; nofun
  refine ⟨x, counts, latencies, hphase, hone, (measureLaw minutely single).results Nat.one_pos hany hended, ?_,
    (measureLaw minutely single).nonneg .refl hany hphase⟩
  exact ((measureLaw minutely single).repeatable [] .refl h hphase).1.trans hone

end LoadTest
end DistribuQ
