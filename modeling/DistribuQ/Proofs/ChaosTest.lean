import DistribuQ.Model.ChaosTest
import DistribuQ.Proofs.Fleet
import DistribuQ.Proofs.LoadTest
import DistribuQ.Proofs.Sparing

/-! What the chaos test reports, and that the kills it asks for lose no job. -/

namespace DistribuQ
namespace ChaosTest
open Transition
open LoadTest (Counts statusCounts answer? get_statusCounts)
variable {env : Env} {test : ChaosTest} {x x' : Bench} {m : Action} {f : Fleet} {tr : List (Bench × Action)}
  {s s' : State} {i k : Nat} {j : Uuid} {w : WorkerId}

/-- All that a step can do. -/
inductive Moves (env : Env) (test : ChaosTest) (x : Bench) : Action → Bench → Prop
  | fleet {a : Fleet.Action} {f : Fleet} : Fleet.step env x.fleet a = some f →
      Moves env test x (.fleet a) { x with fleet := f, phase := x.phase.hear x.fleet.service f.service }
  | injected {f : Fleet} : x.injector = .waiting → x.phase.isStopping = false →
      Fleet.step env x.fleet .post = some f →
      Moves env test x .inject { x with fleet := f, injector := .posting x.fleet.requests.length }
  | logged {k : Nat} {killed : Option WorkerId} : x.injector = .posting k →
      x.fleet.requests[k]? = some (.answered killed) →
      Moves env test x .logged { x with killLog := x.killLog ++ killed.toList, injector := .waiting }
  | unlogged {m : Action} {k : Nat} : x.injector = .posting k → m = .logged ∨ m = .failed →
      Moves env test x m { x with injector := .waiting }
  | stopped : x.injector = .waiting → x.phase.isStopping = true →
      Moves env test x .stop { x with injector := .stopped }
  | submitted {i : Nat} {f : Fleet} : x.phase = .submitting i → i < test.totalJobs →
      Fleet.step env x.fleet (.service (.spawn (.submit (test.request i)))) = some f →
      Moves env test x .submit { x with fleet := f, phase := .posting i x.fleet.service.procs.length }
  | exhausted {i : Nat} : x.phase = .submitting i → test.totalJobs ≤ i →
      Moves env test x .submit { x with phase := .draining [] }
  | received {i : Nat} {jobId : Option Uuid} : x.phase = .answered i jobId →
      Moves env test x .receive { x with
        submittedIds := x.submittedIds ++ jobId.toList, phase := .submitting (i + 1) }
  | polled {counts : Counts} : x.phase = .draining counts →
      Moves env test x (.poll true none) { x with
        phase := if test.totalJobs ≤ completed (statusCounts x.fleet.service.store.db x.submittedIds)
          then .stopping (statusCounts x.fleet.service.store.db x.submittedIds)
          else .draining (statusCounts x.fleet.service.store.db x.submittedIds) }
  | timedOut {counts : Counts} {fault : Option String} : x.phase = .draining counts →
      Moves env test x (.poll false fault) { x with phase := .stopping counts }
  | finished {counts : Counts} : x.phase = .stopping counts → x.injector = .stopped → test.totalJobs ≠ 0 →
      Moves env test x .finish { x with phase := .finished (report test x counts) }
  | raised {m : Action} {e : String} : m = .disconnect e ∨ m = .poll true (some e) ∨ m = .finish →
      Moves env test x m { x with phase := .raised e }

theorem moves_of_step (h : step env test x m = some x') : Moves env test x m x' := by
  cases m with
  | fleet a =>
    obtain ⟨f, hf, rfl⟩ := Option.map_eq_some_iff.mp h
    exact .fleet hf
  | inject =>
    simp only [step] at h
    split at h
    · rename_i hinjector
      by_cases hstopping : x.phase.isStopping = true
      · rw [if_pos hstopping] at h
        cases h
      · rw [if_neg hstopping] at h
        obtain ⟨f, hf, rfl⟩ := Option.map_eq_some_iff.mp h
        exact .injected hinjector (Bool.eq_false_iff.mpr hstopping) hf
    · cases h
  | logged =>
    simp only [step] at h
    split at h
    · rename_i k hinjector
      split at h
      · cases h
        exact .logged hinjector ‹_›
      · cases h
        exact .unlogged hinjector (.inl rfl)
      · cases h
    · cases h
  | failed =>
    simp only [step] at h
    split at h
    · cases h
      exact .unlogged ‹_› (.inr rfl)
    · cases h
  | stop =>
    simp only [step] at h
    split at h
    · rename_i hinjector
      by_cases hstopping : x.phase.isStopping = true
      · rw [if_pos hstopping] at h
        cases h
        exact .stopped hinjector hstopping
      · rw [if_neg hstopping] at h
        cases h
    · cases h
  | submit =>
    simp only [step] at h
    split at h
    · rename_i i hphase
      by_cases hi : i < test.totalJobs
      · rw [if_pos hi] at h
        obtain ⟨f, hf, rfl⟩ := Option.map_eq_some_iff.mp h
        exact .submitted hphase hi hf
      · rw [if_neg hi] at h
        cases h
        exact .exhausted hphase (Nat.le_of_not_lt hi)
    · cases h
  | receive =>
    simp only [step] at h
    split at h
    · cases h
      exact .received ‹_›
    · cases h
  | disconnect e =>
    simp only [step] at h
    split at h
    · cases h
      exact .raised (.inl rfl)
    · cases h
      exact .raised (.inl rfl)
    · cases h
  | poll beforeDeadline fault =>
    simp only [step] at h
    split at h
    · rename_i counts hphase
      cases beforeDeadline with
      | true =>
        cases fault with
        | none =>
          cases h
          exact .polled hphase
        | some e =>
          cases h
          exact .raised (.inr (.inl rfl))
      | false =>
        cases h
        exact .timedOut hphase
    · cases h
  | finish =>
    simp only [step] at h
    split at h
    · rename_i counts hphase hinjector
      by_cases htotal : test.totalJobs = 0
      · rw [if_pos htotal] at h
        cases h
        exact .raised (.inr (.inr rfl))
      · rw [if_neg htotal] at h
        cases h
        exact .finished hphase hinjector htotal
    · cases h

/-! What the service and its kill channels see of the test. -/

def fleetMove (test : ChaosTest) (x : Bench) : Action → Option Fleet.Action
  | .fleet a => some a
  | .inject => some .post
  | .submit =>
    match x.phase with
    | .submitting i => if i < test.totalJobs then some (.service (.spawn (.submit (test.request i)))) else none
    | _ => none
  | _ => none

def fleetTrace (test : ChaosTest) (tr : List (Bench × Action)) : List (Fleet × Fleet.Action) :=
  tr.filterMap fun y => (fleetMove test y.1 y.2).map fun a => (y.1.fleet, a)

theorem fleet_of_step (h : step env test x m = some x') : fleetMove test x m = none ∧ x'.fleet = x.fleet ∨
    ∃ a, fleetMove test x m = some a ∧ Fleet.step env x.fleet a = some x'.fleet := by
  cases moves_of_step h with
  | fleet hf => exact .inr ⟨_, rfl, hf⟩
  | injected _ _ hf => exact .inr ⟨_, rfl, hf⟩
  | submitted hphase hi hf =>
    refine .inr ⟨_, ?_, hf⟩
    simp only [fleetMove, hphase, if_pos hi]
  | exhausted hphase hi =>
    refine .inl ⟨?_, rfl⟩
    simp only [fleetMove, hphase, if_neg hi.not_gt]
  | unlogged _ hm => rcases hm with rfl | rfl <;> exact .inl ⟨rfl, rfl⟩
  | raised hm => rcases hm with rfl | rfl | rfl <;> exact .inl ⟨rfl, rfl⟩
  | _ => exact .inl ⟨rfl, rfl⟩

/-- What is asked of the steps of the service, whoever brings them about. -/
def Keeps (test : ChaosTest) (ok : State → DistribuQ.Action → Prop) (x : Bench) (m : Action) : Prop :=
  ∀ a, fleetMove test x m = some a → Fleet.Keeps ok x.fleet a

instance {ok : State → DistribuQ.Action → Prop} [∀ s a, Decidable (ok s a)] (test : ChaosTest) (x : Bench)
    (m : Action) : Decidable (Keeps test ok x m) :=
  inferInstanceAs (Decidable (∀ a ∈ fleetMove test x m, ∀ b ∈ x.fleet.serviceMove a, ok x.fleet.service b))

theorem fleet_of_run {ok : State → DistribuQ.Action → Prop} {x₀ : Bench}
    (h : Run (Keeps test ok) (step env test) x₀ tr x) :
    Run (Fleet.Keeps ok) (Fleet.step env) x₀.fleet (fleetTrace test tr) x.fleet := by
  refine h.project (f := Bench.fleet) (fleetMove test) fun x m x' hm hs => ?_
  exact (fleet_of_step hs).imp_right fun ⟨a, ha, hstep⟩ => ⟨a, ha, hm a ha, hstep⟩

theorem service_of_reachable {ok : State → DistribuQ.Action → Prop}
    (h : Reachable (Keeps test ok) (step env test) x x') :
    Reachable ok (DistribuQ.step env) x.fleet.service x'.fleet.service := by
  obtain ⟨tr, h⟩ := h
  exact Fleet.service_of_reachable (fleet_of_run h).reachable

theorem service_of_step (h : step env test x m = some x') : x'.fleet.service = x.fleet.service ∨
    ∃ a, DistribuQ.step env x.fleet.service a = some x'.fleet.service := by
  rcases fleet_of_step h with ⟨_, hsame⟩ | ⟨a, _, hf⟩
  · exact .inl (congrArg Fleet.service hsame)
  · exact (Fleet.service_of_step hf).imp And.right fun ⟨b, _, hs⟩ => ⟨b, hs⟩

/-! The submissions. -/

/-- The index can be read off the payload. -/
theorem eq_of_payload (i k : Nat) (h : (test.request i).payload = (test.request k).payload) : i = k := by
  simpa [request] using h

/-- What the request in hand has come to. -/
def Phase.Sound (test : ChaosTest) (s : State) : Phase → Prop
  | .posting i pid => i < test.totalJobs ∧
      ∃ pc, s.procs[pid]? = some (.submit pc) ∧ Submit.Serves (test.request i) s.store.db pc
  | .answered i jobId => i < test.totalJobs ∧ ∀ j, jobId = some j → (test.request i).Created s.store.db j
  | .submitting i => i ≤ test.totalJobs
  | _ => True

/-- The indices below are done with. -/
def Phase.index (test : ChaosTest) : Phase → Nat
  | .submitting i | .posting i _ | .answered i _ => i
  | _ => test.totalJobs

theorem answer?_self (p : Proc) : answer? p p = none := by
  cases p with
  | submit pc => cases pc <;> rfl
  | _ => rfl

/-- While the service rests the client hears nothing. -/
theorem hear_self (phase : Phase) (s : State) : phase.hear s s = phase := by
  cases phase with
  | posting i pid =>
    cases hp : s.procs[pid]? with
    | none => simp [Phase.hear, hp]
    | some p => simp [Phase.hear, hp, answer?_self]
  | _ => rfl

/-- The client hears at most the answer to the request in hand. -/
theorem hear_cases (phase : Phase) (s s' : State) : phase.hear s s' = phase ∨
    ∃ i pid jobId, phase = .posting i pid ∧ phase.hear s s' = .answered i jobId := by
  cases phase with
  | posting i pid =>
    rw [Phase.hear]
    cases (do answer? (← s.procs[pid]?) (← s'.procs[pid]?)) with
    | none => exact .inl rfl
    | some jobId => exact .inr ⟨i, pid, jobId, rfl, rfl⟩
  | _ => exact .inl rfl

theorem index_hear (phase : Phase) (s s' : State) : (phase.hear s s').index test = phase.index test := by
  rcases hear_cases phase s s' with hsame | ⟨i, pid, jobId, rfl, hanswer⟩
  · rw [hsame]
  · rw [hanswer]
    rfl

theorem sound_hear {a : DistribuQ.Action} {phase : Phase} (h : phase.Sound test s)
    (hs : DistribuQ.step env s a = some s') : (phase.hear s s').Sound test s' := by
  cases phase with
  | posting i pid =>
    obtain ⟨hi, pc, hp, hserves⟩ := h
    obtain ⟨p', hp', hnext⟩ := Submit.served_step hp hserves hs
    have hhear : Phase.hear s s' (.posting i pid) =
        (answer? (.submit pc) p').elim (.posting i pid) (.answered i) := by
      simp [Phase.hear, hp, hp']
    rw [hhear]
    rcases hnext with ⟨pc', rfl, hserves', hnone⟩ | ⟨jobId, hsome, hcreated⟩
    · rw [hnone]
      exact ⟨hi, pc', hp', hserves'⟩
    · rw [hsome]
      exact ⟨hi, hcreated⟩
  | answered i jobId => exact ⟨h.1, fun j hj => (h.2 j hj).step hs⟩
  | _ => exact h

theorem Phase.Sound.index_le {phase : Phase} (h : phase.Sound test s) : phase.index test ≤ test.totalJobs := by
  cases phase with
  | submitting i => exact h
  | posting i pid => exact h.1.le
  | answered i jobId => exact h.1.le
  | _ => exact le_rfl

/-- Each id is that of the job of an index of its own. -/
structure Account (test : ChaosTest) (x : Bench) : Prop where
  phase : x.phase.Sound test x.fleet.service
  indices : ∃ done : List Nat, List.Forall₂ (fun i j => (test.request i).Created x.fleet.service.store.db j)
    done x.submittedIds ∧ done.Pairwise (· < ·) ∧ ∀ i ∈ done, i < x.phase.index test

theorem account_init (hphase : x = init f) : Account test x := by
  subst hphase
  exact ⟨Nat.zero_le _, [], .nil, .nil, nofun⟩

theorem account_step (hI : Account test x) (h : step env test x m = some x') : Account test x' := by
  obtain ⟨hsound, done, hdone, hsorted, hbound⟩ := hI
  have hkept (i : Nat) (j : Uuid) (hc : (test.request i).Created x.fleet.service.store.db j) :
      (test.request i).Created x'.fleet.service.store.db j := by
    rcases service_of_step h with hsame | ⟨a, hs⟩
    · rwa [hsame]
    · exact hc.step hs
  have hdone' := hdone.imp hkept
  -- only the answer to a request adds an id
  have hsame (hids : x'.submittedIds = x.submittedIds) (hsound' : x'.phase.Sound test x'.fleet.service)
      (hle : x.phase.index test ≤ x'.phase.index test) : Account test x' := by
    refine ⟨hsound', done, ?_, hsorted, fun i hi => (hbound i hi).trans_le hle⟩
    rwa [hids]
  have hpast (hids : x'.submittedIds = x.submittedIds) (hsound' : x'.phase.Sound test x'.fleet.service)
      (hindex : x'.phase.index test = test.totalJobs) : Account test x' := by
    exact hsame hids hsound' (hindex ▸ hsound.index_le)
  cases moves_of_step h with
  | @fleet a f hf =>
    refine hsame rfl ?_ (index_hear _ _ _).ge
    rcases Fleet.service_of_step hf with ⟨_, hrest⟩ | ⟨b, _, hs⟩
    · change (x.phase.hear x.fleet.service f.service).Sound test f.service
      rw [hrest, hear_self]
      exact hsound
    · exact sound_hear hsound hs
  | @injected f _ _ hf =>
    cases hf
    exact hsame rfl hsound le_rfl
  | logged | unlogged | stopped => exact hsame rfl hsound le_rfl
  | @submitted i f hphase hi hf =>
    cases Fleet.moves_of_step hf with
    | service hs =>
      cases hs
      exact hsame rfl ⟨hi, _, List.getElem?_concat_length, rfl⟩ (hphase ▸ le_rfl)
  | exhausted => exact hpast rfl trivial rfl
  | @received i jobId hphase =>
    rw [hphase] at hsound hbound
    obtain ⟨hi, hcreated⟩ := hsound
    have hsucc : ∀ k ∈ done, k < i + 1 := fun k hk => (hbound k hk).trans (Nat.lt_succ_self i)
    cases jobId with
    | none => exact ⟨hi, done, by simpa using hdone, hsorted, hsucc⟩
    | some j =>
      refine ⟨hi, done ++ [i], List.rel_append hdone (.cons (hcreated j rfl) .nil), ?_, fun k hk => ?_⟩
      · refine List.pairwise_append.mpr ⟨hsorted, List.pairwise_singleton _ _, fun k hk l hl => ?_⟩
        obtain rfl := List.mem_singleton.mp hl
        exact hbound k hk
      · rcases List.mem_append.mp hk with hk | hk
        · exact hsucc k hk
        · obtain rfl := List.mem_singleton.mp hk
          exact Nat.lt_succ_self k
  | polled =>
    refine hpast rfl ?_ ?_
    · dsimp only
      split_ifs <;> trivial
    · dsimp only
      split_ifs <;> rfl
  | timedOut | finished | raised => exact hpast rfl trivial rfl

theorem account_of_reachable {ok : Bench → Action → Prop} (h : Reachable ok (step env test) (init f) x) :
    Account test x :=
  h.invariant (account_init rfl) fun _ _ _ hI _ hs => account_step hI hs

theorem exists_created {db : Database} {done : List Nat} {ids : List Uuid}
    (h : List.Forall₂ (fun i j => (test.request i).Created db j) done ids) (hi : i ∈ done) :
    ∃ j ∈ ids, (test.request i).Created db j := by
  induction h with
  | nil => cases hi
  | @cons k j done ids hcreated _ ih =>
    rcases List.mem_cons.mp hi with rfl | hi
    · exact ⟨j, List.mem_cons_self, hcreated⟩
    · obtain ⟨j', hj', hc⟩ := ih hi
      exact ⟨j', List.mem_cons_of_mem j hj', hc⟩

/-- The ids are those of different jobs, each with the row of an index. -/
theorem Account.jobs (hI : Account test x) : x.submittedIds.Nodup ∧ x.submittedIds.length ≤ test.totalJobs ∧
    ∀ j ∈ x.submittedIds, ∃ i < test.totalJobs, (test.request i).Created x.fleet.service.store.db j := by
  obtain ⟨done, hdone, hsorted, hbound⟩ := hI.indices
  have hnodup : done.Nodup := hsorted.imp fun h => h.ne
  have hrange (i : Nat) (hi : i ∈ done) : i < test.totalJobs := (hbound i hi).trans_le hI.phase.index_le
  have hsubset : done ⊆ List.range test.totalJobs := fun i hi => List.mem_range.mpr (hrange i hi)
  have hresults := hdone.imp fun i j hcreated j' (hj : some j = some j') => Option.some.inj hj ▸ hcreated
  obtain ⟨hids, hsource⟩ := JobCreateRequest.nodup_of_created eq_of_payload hresults hnodup
  rw [List.filterMap_some] at hids hsource
  refine ⟨hids, ?_, fun j hj => ?_⟩
  · have hlen := (hnodup.subperm hsubset).length_le
    rwa [hdone.length_eq, List.length_range] at hlen
  · obtain ⟨i, hi, hc⟩ := hsource j hj
    exact ⟨i, hrange i hi, hc⟩

/-- Where there are as many ids as indices, each index has its job. -/
theorem Account.complete (hI : Account test x) (hlen : x.submittedIds.length = test.totalJobs)
    (hi : i < test.totalJobs) :
    ∃ j ∈ x.submittedIds, (test.request i).Created x.fleet.service.store.db j := by
  obtain ⟨done, hdone, hsorted, hbound⟩ := hI.indices
  have hnodup : done.Nodup := hsorted.imp fun h => h.ne
  have hsubset : done ⊆ List.range test.totalJobs :=
    fun k hk => List.mem_range.mpr ((hbound k hk).trans_le hI.phase.index_le)
  have hperm : done.Perm (List.range test.totalJobs) := by
    refine (hnodup.subperm hsubset).perm_of_length_le ?_
    rw [List.length_range, hdone.length_eq, hlen]
  exact exists_created hdone (hperm.mem_iff.mpr (List.mem_range.mpr hi))

/-! The verdict. -/

/-- Every index has a job, and all of them are `SUCCESS`. -/
def Bench.Complete (test : ChaosTest) (x : Bench) : Prop :=
  x.submittedIds.length = test.totalJobs ∧
    ∀ j ∈ x.submittedIds, x.fleet.service.store.db.status? j = some .success

theorem complete_iff (hI : Account test x) :
    (statusCounts x.fleet.service.store.db x.submittedIds).get .success = test.totalJobs ↔ x.Complete test := by
  obtain ⟨hids, hlen, _⟩ := hI.jobs
  rw [get_statusCounts hids]
  constructor
  · intro h
    have hle : x.submittedIds.countP (fun j => x.fleet.service.store.db.status? j = some .success) ≤
        x.submittedIds.length := List.countP_le_length
    have hall := List.countP_eq_length.mp (le_antisymm hle (hlen.trans h.ge))
    exact ⟨by omega, fun j hj => of_decide_eq_true (hall j hj)⟩
  · rintro ⟨hlength, hall⟩
    rw [← hlength]
    exact List.countP_eq_length.mpr fun j hj => decide_eq_true (hall j hj)

/-- Some poll has found all jobs done. -/
def Seen (test : ChaosTest) (tr : List (Bench × Action)) : Prop :=
  ∃ y ∈ tr, y.2 = .poll true none ∧ y.1.Complete test

theorem seen_snoc : Seen test (tr ++ [(x, m)]) ↔ Seen test tr ∨ m = .poll true none ∧ x.Complete test := by
  simp only [Seen, List.mem_append, List.mem_singleton, or_and_right, exists_or, exists_eq_left]

/-- What the counts at hand say about the polls so far. -/
def Verdict (test : ChaosTest) (tr : List (Bench × Action)) : Phase → Prop
  | .draining counts => ¬ Seen test tr ∧ (test.totalJobs ≠ 0 → counts.get .success ≠ test.totalJobs)
  | .stopping counts => test.totalJobs ≠ 0 → (counts.get .success = test.totalJobs ↔ Seen test tr)
  | .finished report => report.passed = true ↔ Seen test tr
  | .raised _ => True
  | _ => ¬ Seen test tr

theorem passed_report (counts : Counts) (htotal : test.totalJobs ≠ 0) :
    (report test x counts).passed = true ↔ counts.get .success = test.totalJobs := by
  have hpos : (test.totalJobs : ℚ) ≠ 0 := Nat.cast_ne_zero.mpr htotal
  have hpassed : (report test x counts).passed = true ↔
      (counts.get .success / test.totalJobs * 100 : ℚ) = 100 := decide_eq_true_iff
  rw [hpassed, mul_eq_right₀ (by norm_num), div_eq_one_iff_eq hpos, Nat.cast_inj]

theorem verdict_hear {phase : Phase} (h : Verdict test tr phase) (s s' : State) :
    Verdict test tr (phase.hear s s') := by
  rcases hear_cases phase s s' with hsame | ⟨i, pid, jobId, rfl, hanswer⟩
  · rwa [hsame]
  · rw [hanswer]
    exact h

theorem verdict_congr {tr' : List (Bench × Action)} {phase : Phase} (h : Seen test tr' ↔ Seen test tr) :
    Verdict test tr' phase ↔ Verdict test tr phase := by
  cases phase <;> simp only [Verdict, h]

theorem verdict_step (hA : Account test x) (hI : Verdict test tr x.phase) (h : step env test x m = some x') :
    Verdict test (tr ++ [(x, m)]) x'.phase := by
  -- but for a poll nothing new is seen
  have hrest (hm : m ≠ .poll true none) (hphase : Verdict test tr x'.phase) :
      Verdict test (tr ++ [(x, m)]) x'.phase := by
    refine (verdict_congr ?_).mpr hphase
    rw [seen_snoc]
    exact or_iff_left fun h => hm h.1
  cases moves_of_step h with
  | fleet => exact hrest nofun (verdict_hear hI _ _)
  | injected | logged | stopped => exact hrest nofun hI
  | unlogged _ hm => exact hrest (by rcases hm with rfl | rfl <;> nofun) hI
  | submitted hphase =>
    rw [hphase] at hI
    exact hrest nofun hI
  | exhausted hphase =>
    rw [hphase] at hI
    exact hrest nofun ⟨hI, fun hne h => hne h.symm⟩
  | received hphase =>
    rw [hphase] at hI
    exact hrest nofun hI
  | @polled counts hphase =>
    rw [hphase] at hI
    have hseen : Seen test (tr ++ [(x, .poll true none)]) ↔ x.Complete test := by
      rw [seen_snoc, or_iff_right hI.1]
      exact and_iff_right rfl
    have hcomplete := complete_iff hA
    dsimp only
    split_ifs with hall
    · exact fun _ => hcomplete.trans hseen.symm
    · have hne : (statusCounts x.fleet.service.store.db x.submittedIds).get .success ≠ test.totalJobs := by
        intro heq
        exact hall (heq.symm.le.trans (Nat.le_add_right _ _))
      exact ⟨fun hs => hne (hcomplete.mpr (hseen.mp hs)), fun _ => hne⟩
  | timedOut hphase =>
    rw [hphase] at hI
    exact hrest nofun fun hne => iff_of_false (hI.2 hne) hI.1
  | finished hphase _ htotal =>
    rw [hphase] at hI
    exact hrest nofun ((passed_report _ htotal).trans (hI htotal))
  | raised => trivial

theorem verdict_of_run {ok : Bench → Action → Prop} (h : Run ok (step env test) (init f) tr x) :
    Verdict test tr x.phase := by
  refine h.invariant_trace (I := fun tr x => Verdict test tr x.phase) ?_ fun tr x m x' hrun hI _ hs => ?_
  · rintro ⟨y, hy, _⟩
    cases hy
  · exact verdict_step (account_of_reachable hrun.reachable) hI hs

/-- The submissions are over. -/
def Phase.submitted : Phase → Bool
  | .submitting _ | .posting .. | .answered .. => false
  | _ => true

theorem submittedIds_step (hphase : x.phase.submitted = true) (h : step env test x m = some x') :
    x'.phase.submitted = true ∧ x'.submittedIds = x.submittedIds := by
  cases moves_of_step h with
  | fleet =>
    refine ⟨?_, rfl⟩
    rcases hear_cases x.phase x.fleet.service _ with hsame | ⟨i, pid, jobId, hposting, _⟩
    · exact (congrArg Phase.submitted hsame).trans hphase
    · rw [hposting] at hphase
      cases hphase
  | injected | logged | unlogged | stopped => exact ⟨hphase, rfl⟩
  | submitted hx | exhausted hx | received hx =>
    rw [hx] at hphase
    cases hphase
  | polled =>
    refine ⟨?_, rfl⟩
    dsimp only
    split_ifs <;> rfl
  | timedOut | finished | raised => exact ⟨rfl, rfl⟩

theorem submittedIds_of_reachable {ok : Bench → Action → Prop} (hphase : x.phase.submitted = true)
    (h : Reachable ok (step env test) x x') : x'.submittedIds = x.submittedIds :=
  (h.invariant (I := fun y => y.phase.submitted = true ∧ y.submittedIds = x.submittedIds) ⟨hphase, rfl⟩
    fun _ _ _ hI _ hs => (submittedIds_step hI.1 hs).imp_right fun h => h.trans hI.2).2

theorem submitted_of_poll (h : step env test x (.poll true none) = some x') : x.phase.submitted = true := by
  cases moves_of_step h with
  | polled hphase =>
    rw [hphase]
    rfl
  | unlogged _ hm => rcases hm with hm | hm <;> cases hm
  | raised hm => rcases hm with hm | hm | hm <;> cases hm

/-- Jobs that a poll has found done stay so. -/
theorem complete_of_seen {t : Nat} (h₀ : Reachable (Fleet.Keeps (Fenced env)) (Fleet.step env) (.init t) f)
    (h : Run (Keeps test (Fenced env)) (step env test) (init f) tr x) (hseen : Seen test tr) :
    x.Complete test := by
  obtain ⟨y, hy, hpoll, hlen, hall⟩ := hseen
  obtain ⟨hbefore, hafter⟩ := h.through hy
  obtain ⟨_, y', hstep⟩ := h.of_mem y hy
  rw [hpoll] at hstep
  have hids := submittedIds_of_reachable (submitted_of_poll hstep) hafter
  have hservice : Reachable (Fenced env) (DistribuQ.step env) (.init t) y.1.fleet.service :=
    (Fleet.service_of_reachable h₀).trans (service_of_reachable hbefore)
  rw [Bench.Complete, hids]
  refine ⟨hlen, fun j hj => ?_⟩
  obtain ⟨z, hz, hmoves⟩ := moves_of_run hservice (service_of_reachable hafter) (hall j hj)
  rw [hz, JobStatus.eq_of_moves (.inl rfl) hmoves]

/-! The kill log. -/

/-- The requests up to here are the test's own that have been logged, or those of others. -/
def Bench.seen (x : Bench) : Nat :=
  match x.injector with
  | .posting k => k
  | _ => x.fleet.requests.length

theorem seen_of_posting (h : x.injector = .posting k) : x.seen = k := by
  rw [Bench.seen, h]

theorem seen_of_idle (h : ∀ k, x.injector ≠ .posting k) : x.seen = x.fleet.requests.length := by
  unfold Bench.seen
  split
  · exact absurd ‹_› (h _)
  · rfl

/-- Each entry is the answer to a request of its own. -/
structure Logged (x : Bench) : Prop where
  seen : x.seen ≤ x.fleet.requests.length
  log : x.killLog.Sublist ((x.fleet.requests.take x.seen).filterMap KillRequest.killed?)

theorem logged_step (hI : Logged x) (h : step env test x m = some x') : Logged x' := by
  have hanswered : x.fleet.requests.length ≤ x'.fleet.requests.length ∧ ∀ n ≤ x.fleet.requests.length,
      ((x.fleet.requests.take n).filterMap KillRequest.killed?).Sublist
        ((x'.fleet.requests.take n).filterMap KillRequest.killed?) := by
    rcases fleet_of_step h with ⟨_, hsame⟩ | ⟨a, _, hf⟩
    · rw [hsame]
      exact ⟨le_rfl, fun _ _ => .refl _⟩
    · exact ⟨Fleet.length_requests_le hf, fun n hn => Fleet.killed_step hf hn⟩
  have hmono (hlog : x'.killLog = x.killLog) (hle : x.seen ≤ x'.seen)
      (hlen : x'.seen ≤ x'.fleet.requests.length) : Logged x' := by
    refine ⟨hlen, ?_⟩
    rw [hlog]
    refine (hI.log.trans (hanswered.2 _ hI.seen)).trans ?_
    exact (List.take_sublist_take_left hle).filterMap _
  have hwaiting (hlog : x'.killLog = x.killLog) (hseen : x'.seen = x'.fleet.requests.length) : Logged x' :=
    hmono hlog (hI.seen.trans (hanswered.1.trans hseen.ge)) hseen.le
  have hkept (hlog : x'.killLog = x.killLog) (hinjector : x'.injector = x.injector) : Logged x' := by
    by_cases hposting : ∃ k, x.injector = .posting k
    · obtain ⟨k, hk⟩ := hposting
      have hseen := seen_of_posting hk
      have hseen' := seen_of_posting (hinjector.trans hk)
      refine hmono hlog (hseen.trans hseen'.symm).le ?_
      rw [hseen', ← hseen]
      exact hI.seen.trans hanswered.1
    · exact hwaiting hlog (seen_of_idle fun k hk => hposting ⟨k, hinjector.symm.trans hk⟩)
  cases moves_of_step h with
  | injected hinjector =>
    have hseen : x.seen = x.fleet.requests.length := by rw [Bench.seen, hinjector]
    exact hmono rfl hseen.le hanswered.1
  | @logged k killed hinjector hk =>
    have hlt : k < x.fleet.requests.length := (List.getElem?_eq_some_iff.mp hk).1
    have hlog := hI.log
    rw [seen_of_posting hinjector] at hlog
    have hnext : (x.killLog ++ killed.toList).Sublist
        ((x.fleet.requests.take (k + 1)).filterMap KillRequest.killed?) := by
      rw [List.take_add_one, hk, Option.toList_some, List.filterMap_append]
      have hone : killed.toList = [KillRequest.answered killed].filterMap KillRequest.killed? := by
        cases killed <;> rfl
      rw [hone]
      exact hlog.append_right _
    exact ⟨le_rfl, hnext.trans ((List.take_sublist_take_left hlt).filterMap _)⟩
  | unlogged | stopped => exact hwaiting rfl rfl
  | fleet | submitted | exhausted | received | polled | timedOut | finished | raised => exact hkept rfl rfl

theorem logged_of_reachable {ok : Bench → Action → Prop} (h : Reachable ok (step env test) (init f) x) :
    Logged x :=
  h.invariant ⟨le_rfl, List.nil_sublist _⟩ fun _ _ _ hI _ hs => logged_step hI hs

theorem Logged.sublist (hI : Logged x) : x.killLog.Sublist (x.fleet.requests.filterMap KillRequest.killed?) :=
  hI.log.trans ((List.take_sublist _ _).filterMap _)

/-- What a chaos test of a running service comes to, whatever else goes on meanwhile. -/
structure VerdictLaw (env : Env) (test : ChaosTest) : Prop where
  /-- The ids it has collected are those of different jobs, each with the row of an index. -/
  jobs {ok : Bench → Action → Prop} {f : Fleet} {x : Bench} : Reachable ok (step env test) (init f) x →
    x.submittedIds.Nodup ∧ x.submittedIds.length ≤ test.totalJobs ∧ ∀ j ∈ x.submittedIds,
      ∃ i < test.totalJobs, ∃ r, x.fleet.service.store.db.job? j = some r ∧ r.origin = (test.request i).toNewJob
  /-- It passes exactly where a poll has found a job for each index, and all of them `SUCCESS`. -/
  passed {ok : Bench → Action → Prop} {f : Fleet} {tr : List (Bench × Action)} {x : Bench} {report : Report} :
    Run ok (step env test) (init f) tr x → x.phase = .finished report →
    (report.passed = true ↔ ∃ y ∈ tr, y.2 = .poll true none ∧ y.1.Complete test)
  /-- After that every index has its job, `SUCCESS` for good. -/
  lasting {t : Nat} {f : Fleet} {x : Bench} {report : Report} :
    Reachable (Fleet.Keeps (Fenced env)) (Fleet.step env) (.init t) f →
    Reachable (Keeps test (Fenced env)) (step env test) (init f) x → x.phase = .finished report →
    report.passed = true → ∀ i < test.totalJobs, ∃ j ∈ x.submittedIds, ∃ r,
      x.fleet.service.store.db.job? j = some r ∧ r.origin = (test.request i).toNewJob ∧ r.status = .success
  /-- A worker is in the kill log no more often than kills have been published for it, and was alive by its row when
  the request that was answered with it read the workers. -/
  killed {ok : Fleet → Fleet.Action → Prop} {ok' : Bench → Action → Prop} {t : Nat} {f : Fleet}
      {tr : List (Fleet × Fleet.Action)} {tr' : List (Bench × Action)} {x : Bench} (w : WorkerId) :
    Run ok (Fleet.step env) (.init t) tr f → Run ok' (step env test) (init f) tr' x →
    x.killLog.count w ≤ total (Fleet.sends w) (tr ++ fleetTrace test tr') ∧ (w ∈ x.killLog →
      ∃ k, x.fleet.requests[k]? = some (.answered (some w)) ∧ ∃ y ∈ tr ++ fleetTrace test tr', y.1.Finds k w y.2)
  /-- Kills lose no job: where nothing else crashes, raises or is cancelled, each job that has been submitted can
  still be brought to `SUCCESS`. -/
  spared {t : Nat} {f : Fleet} {x : Bench} {j : Uuid} :
    Reachable (Fleet.Keeps (Sparing env)) (Fleet.step env) (.init t) f →
    Reachable (Keeps test (Sparing env)) (step env test) (init f) x → j ∈ x.submittedIds →
    x.fleet.service.Salvageable env j

theorem verdictLaw (env : Env) (test : ChaosTest) : VerdictLaw env test where
  jobs h := (account_of_reachable h).jobs
  passed {ok f tr x report} h hphase := by
    have hI := verdict_of_run h
    rwa [hphase] at hI
  lasting {t f x report} h₀ h hphase hpassed i hi := by
    have hA := account_of_reachable h
    obtain ⟨tr, h⟩ := h
    have hI := verdict_of_run h
    rw [hphase] at hI
    obtain ⟨hlen, hall⟩ := complete_of_seen h₀ h (hI.mp hpassed)
    obtain ⟨j, hj, r, hr, horigin⟩ := hA.complete hlen hi
    exact ⟨j, hj, r, hr, horigin, Option.some.inj ((Database.status?_of_job? hr).symm.trans (hall j hj))⟩
  killed {ok ok' t f tr tr' x} w h₀ h := by
    have hlog := (logged_of_reachable h.reachable).sublist
    have hfleet : Run (fun _ _ => True) (Fleet.step env) (.init t) (tr ++ fleetTrace test tr') x.fleet := by
      have hrest : Run (Keeps test fun _ _ => True) (step env test) (init f) tr' x :=
        h.mono fun _ _ _ _ _ _ _ => trivial
      exact (h₀.mono fun _ _ _ => trivial).append ((fleet_of_run hrest).mono fun _ _ _ => trivial)
    refine ⟨?_, fun hw => ?_⟩
    · have hcount := hlog.count_le w
      rw [← Fleet.reports_eq_count] at hcount
      exact hcount.trans (Fleet.counted_of_run w hfleet).2.2
    · obtain ⟨r, hr, hkilled⟩ := List.mem_filterMap.mp (hlog.subset hw)
      obtain ⟨k, hk⟩ := List.mem_iff_getElem?.mp hr
      have hr : r = .answered (some w) := by
        cases r <;> cases hkilled
        rfl
      exact ⟨k, hr ▸ hk, Fleet.finds_of_run hfleet hk (.inr hkilled)⟩
  spared {t f x j} h₀ h hj := by
    obtain ⟨_, _, hjobs⟩ := (account_of_reachable h).jobs
    obtain ⟨i, _, r, hr, _⟩ := hjobs j hj
    exact salvageable_of_sparing ((Fleet.service_of_reachable h₀).trans (service_of_reachable h)) hr

/-! A test of one job passes although its worker is killed. -/

theorem test_echo_ne : "test_echo" ≠ "" := by decide

def single : ChaosTest := { totalJobs := 1, jobType_ne := test_echo_ne }

def serve (n pid : Nat) : List Action := List.replicate n (.fleet (.service (.run pid { freshId := 7 })))

/-- The worker takes the kill while it is at work on the job. -/
def killing : List Action :=
  [.fleet (.service (.spawn .worker)), .fleet (.subscribe 0), .fleet (.service (.heartbeat 0 {})), .submit] ++
    serve 4 1 ++ [.receive, .submit] ++
    [.inject, .fleet (.select 0 0 [] false), .fleet (.publish 0 .none), .logged] ++
    serve 4 0 ++ [.fleet (.listen 0), .fleet (.listen 0)] ++ serve 7 0 ++ [.poll true none, .stop, .finish]

def Phase.report? : Phase → Option Report
  | .finished report => some report
  | _ => none

theorem exists_report {phase : Phase} {p : Report → Bool} (h : phase.report?.any p = true) :
    ∃ report, phase = .finished report ∧ p report = true := by
  cases phase with
  | finished report => exact ⟨report, rfl, h⟩
  | _ => cases h

theorem verdictLaw_killed : ∃ (x : Bench) (report : Report), x.phase = .finished report ∧ report.passed = true ∧
    report.workersKilled = 1 ∧ ∃ j ∈ x.submittedIds, ∃ r, x.fleet.service.store.db.job? j = some r ∧
      r.origin = (single.request 0).toNewJob ∧ r.status = .success := by
  obtain ⟨x, h, hx⟩ : ∃ x, Reachable (Keeps single (Fenced minutely)) (step minutely single)
      (init (.init 0)) x ∧ _ :=
    exists_reachable_of_exec killing
      (fun x => x.phase.report?.any fun r => r.passed && r.workersKilled == 1) (by decide +kernel)
  obtain ⟨report, hphase, hreport⟩ := exists_report hx
  obtain ⟨hpassed, hkilled⟩ := Bool.and_eq_true_iff.mp hreport
  have hlasting := (verdictLaw minutely single).lasting .refl h hphase hpassed 0 Nat.one_pos
  exact ⟨x, report, hphase, hpassed, of_decide_eq_true hkilled, hlasting⟩

end ChaosTest
end DistribuQ
