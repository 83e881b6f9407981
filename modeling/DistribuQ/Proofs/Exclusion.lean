import DistribuQ.Proofs.Lifecycle
import DistribuQ.Proofs.Executions

/-! Mutual exclusion of attempts where stale reclaims take abandoned jobs only. -/

namespace DistribuQ
open Transition
variable {env : Env} {s s' : State} {a : Action} {i pid : Nat} {j k d : Uuid}

/-- Every attempt holds its lock, and a replay that has found its dead letter is the only one there is. -/
structure Exclusive (s : State) : Prop where
  letters : s.store.db.LettersAgree
  owner : ∀ (i : Nat) (p : Proc) (job : LockedJob), s.procs[i]? = some p → p.attempt? = some job →
    s.Holds i job.id
  found : ∀ (i : Nat) (d j : Uuid), s.procs[i]? = some (.replay (.write d j)) → s.store.db.HasLetter d j
  single : tally (fun p : Proc => indicator (p.replaying = true)) s.procs ≤ 1

theorem Exclusive.fenced (h : Exclusive s) : Fenced env s a := by
  rintro ⟨pid, c⟩ hc
  rcases makes_of_call? hc with ⟨_, p, _, hp, hm⟩ | ⟨_, _, _, rfl⟩
  · constructor
    · intro j ho
      obtain ⟨job, ha, rfl⟩ := hm.attempt ho
      exact h.owner pid p job hp ha
    · rintro ⟨d, j⟩ hl
      cases hm with
      | replay =>
        cases hl
        exact h.found pid d j hp
      | other hplain => cases hplain.replayed.symm.trans hl
      | _ => cases hl
  · exact ⟨nofun, nofun⟩

theorem Worker.attempt?_of_outcome {w : WorkerId} {ch : Choice} {st st' : Store} {pc pc' : Pc} {c : Call}
    (h : pc.Goes env w ch st st' c pc') (ho : c.outcome? = some j) (hf : ch.fault = .none) :
    pc'.attempt? = none := by
  cases h with
  | successFault hf' | retryFault hf' | buryFault hf' => exact absurd hf hf'
  | succeeded | retried | buried => rfl
  | _ => cases ho

theorem attempt?_of_written {c : Call} {p' : Proc} (hn : NoLostSql env s a) (h : step env s a = some s')
    (hc : s.call? env a = some (pid, c)) (ho : c.outcome? = some j) (hp' : s'.procs[pid]? = some p') :
    p'.attempt? = none := by
  obtain ⟨ch, p, op, hp, ⟨rfl, hop⟩ | ⟨rfl, hop⟩, rfl⟩ := call?_eq_some hc
  · have hsql : op.call.sql = true := by
      revert ho
      generalize op.call = c
      cases c <;> intro ho <;> first | rfl | cases ho
    have hlocal : op.call.isLocal = false := by
      revert ho
      generalize op.call = c
      cases c <;> intro ho <;> first | rfl | cases ho
    have hmakes : MakesOp env (.run pid ch) pid ch p op := .inl ⟨rfl, hop⟩
    have hlost := hn _ (op?_of_makes hp hmakes) hsql
    have hf : ch.fault = .none := by
      cases hf : ch.fault with
      | none => rfl
      | raised => cases hc.symm.trans (call?_eq_none hp hmakes hf hlocal)
      | lost =>
        rw [hf] at hlost
        cases hlost
    cases became_of_step h hp' with
    | kept _ hne => exact absurd rfl (hne ch)
    | ran hq hop' he =>
      cases hp.symm.trans hq
      cases hop.symm.trans hop'
      cases Proc.goes_of_next hop he with
      | worker hnext heq hends =>
        have hg := Worker.goes_of_next hnext hends
        rw [heq] at hg
        exact Worker.attempt?_of_outcome hg ho hf
      | _ => rfl
  · obtain ⟨n, rfl⟩ := heartbeat_eq_some hop
    cases ho

theorem owner_step (hI : Exclusive s) (hr : ReclaimsAbandoned env s a) (hn : NoLostSql env s a)
    (h : step env s a = some s') {p' : Proc} {job : LockedJob} (hp' : s'.procs[i]? = some p')
    (ha : p'.attempt? = some job) : s'.Holds i job.id := by
  rcases ofPc_of_step Worker.fromLock_attempt? h hp' ha with ⟨p, hp, hattempt, _⟩ | ⟨r, _, _, _, _, hr'⟩
  · obtain ⟨r, hrow, hs, hl⟩ := hI.owner i p job hp hattempt
    rcases guarded_step hI.letters hI.fenced h hrow with hrow' | ⟨pid, c, r', hc, hrow', hg⟩
    · exact ⟨r, hrow', hs, hl⟩
    · have hid := Database.id_of_job? hrow
      have written (ho : c.outcome? = some r.id) (hl' : r.lockedBy = some pid) : s'.Holds i job.id := by
        cases hl.symm.trans hl'
        cases (attempt?_of_written hn h hc ho hp').symm.trans ha
      cases hg with
      | kept => exact ⟨r, hrow', hs, hl⟩
      | lock hp => simp [Job.claimable, hs] at hp
      | succeed _ _ hl' | retry _ _ _ hl' | bury _ _ _ hl' => exact written rfl hl'
      | release n _ hstale =>
        -- a stale reclaim would need the worker to have left its attempt
        exact absurd hid.symm
          (hr _ hc n rfl r (Database.mem_of_job? hrow) hstale i hl p hp job hattempt)
      | promote hs' | cancel hs' | reset _ hs' => cases hs.symm.trans hs'
  · exact ⟨_, hr', rfl, rfl⟩

theorem hasLetter_of_step (h : step env s a = some s') (hd : s.store.db.HasLetter d j)
    (hn : ∀ pid k, s.call? env a ≠ some (pid, .replayWrite d k)) : s'.store.db.HasLetter d j := by
  obtain ⟨l, hl, hj⟩ := hd
  rcases store_of_step h with ⟨pid, ch, c, x, hc, hx⟩ | ⟨_, hdb, _⟩
  · refine ⟨l, (Table.find?_eq_some _).mpr ?_, hj⟩
    obtain ⟨hmem, hid⟩ := (Table.find?_eq_some _).mp hl
    refine ⟨?_, hid⟩
    rw [Call.run_letters hx]
    cases c with
    | moveToDeadLetter => exact List.mem_append_left _ hmem
    | replayWrite d' k =>
      refine List.mem_filter.mpr ⟨hmem, ?_⟩
      have hne : l.id ≠ d' := by
        rintro rfl
        exact hn pid k (hid ▸ hc)
      simpa using hne
    | _ => exact hmem
  · rw [hdb]
    exact ⟨l, hl, hj⟩

theorem found_step (hI : Exclusive s) (h : step env s a = some s')
    (hp' : s'.procs[i]? = some (.replay (.write d j))) : s'.store.db.HasLetter d j := by
  cases became_of_step h hp' with
  | kept hp hne =>
    -- another replay would be a second one under way
    refine hasLetter_of_step h (hI.found i d j hp) fun pid k hc => ?_
    rcases makes_of_call? hc with ⟨ch, q, rfl, hq, hm⟩ | ⟨_, _, _, hm⟩
    · have hq' : q.replaying = true := by
        cases hm with
        | replay => rfl
        | other hplain => cases hplain.replayed
      have hle := add_le_tally (f := fun p : Proc => indicator (p.replaying = true))
        (fun hpid => hne ch (by rw [hpid])) hp hq
      have hi : (Proc.replay (.write d j)).replaying = true := rfl
      have hsingle := hI.single
      rw [indicator_pos hq', indicator_pos hi] at hle
      omega
    · cases hm
  | spawned r hr => cases r <;> cases hr
  | signalled p hp hr hst =>
    cases p <;> cases hr
    rw [hst]
    exact hI.found i d j hp
  | crashed hr => cases hr
  | ran hp hop he =>
    cases Proc.goes_of_next hop he with
    | replay hnext _ hends =>
      obtain ⟨hst, hletter⟩ := Replay.hasLetter_of_next hnext hends
      rw [hst]
      exact hletter

theorem replaying_of_next {ch : Choice} {p p' : Proc} {op : Op Proc} {st st' : Store}
    (hop : p.next env pid = some op) (he : op.Ends env ch st st' p') (hr : p'.replaying = true) :
    p.replaying = true := by
  cases Proc.goes_of_next hop he with
  | @replay pc _ _ hnext =>
    cases pc with
    | finished => cases hnext
    | _ => rfl
  | _ => cases hr

theorem single_step (hI : tally (fun p : Proc => indicator (p.replaying = true)) s.procs ≤ 1)
    (hr : NoReplayOverlap s a) (h : step env s a = some s') :
    tally (fun p : Proc => indicator (p.replaying = true)) s'.procs ≤ 1 := by
  have replaced {pid : Nat} {p p' : Proc} (hp : s.procs[pid]? = some p)
      (hle : p'.replaying = true → p.replaying = true) :
      tally (fun p : Proc => indicator (p.replaying = true)) (s.procs.set pid p') ≤ 1 := by
    have hset := tally_set (f := fun p : Proc => indicator (p.replaying = true)) (b := p') hp
    have hle : indicator (p'.replaying = true) ≤ indicator (p.replaying = true) := indicator_mono hle
    omega
  cases move_of_step h with
  | tick => exact hI
  | spawn r =>
    rw [tally_append, tally_cons, tally_nil]
    cases r with
    | replay i =>
      have hzero : tally (fun p : Proc => indicator (p.replaying = true)) s.procs = 0 :=
        tally_eq_zero fun p hp => indicator_neg (by rw [hr p hp]; nofun)
      rw [hzero]
      exact le_rfl
    | _ => exact hI
  | @signal pid p hp => exact replaced hp fun h => by cases p <;> exact h
  | crash hp => exact replaced hp nofun
  | run hp hop he => exact replaced hp (replaying_of_next hop he)
  | heartbeat hp hop he =>
    rw [heartbeat_ends hop he]
    exact replaced hp id

/-- Reclaims of abandoned jobs, replays one at a time, and no lost answer from Postgres. -/
def Orderly (env : Env) (s : State) (a : Action) : Prop :=
  ReclaimsAbandoned env s a ∧ NoReplayOverlap s a ∧ NoLostSql env s a

instance : Decidable (Orderly env s a) := inferInstanceAs (Decidable (_ ∧ _))

theorem exclusive_init (t : Nat) : Exclusive (.init t) where
  letters _ := rfl
  owner i p job hp := by cases hp
  found i d j hp := by cases hp
  single := zero_le_one

theorem exclusive_step (hI : Exclusive s) (hok : Orderly env s a) (h : step env s a = some s') :
    Exclusive s' where
  letters := lettersAgree_step hI.letters hI.fenced h
  owner _ _ _ := owner_step hI hok.1 hok.2.2 h
  found _ _ _ := found_step hI h
  single := single_step hI.single hok.2.1 h

theorem exclusive_of_reachable {t : Nat} (h : Reachable (Orderly env) (step env) (.init t) s) :
    Exclusive s :=
  h.invariant (exclusive_init t) fun _ _ _ => exclusive_step

theorem fenced_of_orderly (hI : Exclusive s) (h : Reachable (Orderly env) (step env) s s') :
    Reachable (Fenced env) (step env) s s' := by
  obtain ⟨tr, h⟩ := h
  exact (h.strengthen hI (fun _ _ _ => exclusive_step) fun _ _ hI _ => hI.fenced).reachable

/-- Attempts at one job exclude each other. -/
structure ExclusionLaw (env : Env) (ok : State → Action → Prop) : Prop where
  unique {t : Nat} {s : State} {i i' : Nat} {p p' : Proc} {job job' : LockedJob} :
    Reachable ok (step env) (.init t) s → s.procs[i]? = some p → s.procs[i']? = some p' →
    p.executing? = some job → p'.executing? = some job' → job.id = job'.id → i = i'
  owner {t : Nat} {s : State} {i : Nat} {p : Proc} {job : LockedJob} :
    Reachable ok (step env) (.init t) s → s.procs[i]? = some p → p.executing? = some job → s.Holds i job.id
  /-- After a success no execution starts. -/
  final {t : Nat} {s s' : State} {a : Action} {j : Uuid} :
    Reachable ok (step env) (.init t) s → s.store.db.status? j = some .success →
    Reachable ok (step env) s s' → ¬ s'.Starts a j

theorem Proc.attempt?_of_executing? {p : Proc} {job : LockedJob} (h : p.executing? = some job) :
    p.attempt? = some job := by
  cases p with
  | worker p =>
    obtain ⟨pc, _, _⟩ := p
    cases pc <;> cases h
    rfl
  | _ => cases h

theorem State.Holds.unique (h : s.Holds i j) (h' : s.Holds pid j) : i = pid := by
  obtain ⟨r, hr, _, hl⟩ := h
  obtain ⟨r', hr', _, hl'⟩ := h'
  cases hr.symm.trans hr'
  exact Option.some.inj (hl.symm.trans hl')

theorem exclusionLaw (env : Env) : ExclusionLaw env (Orderly env) where
  unique h hp hp' hjob hjob' heq := by
    have hI := exclusive_of_reachable h
    have hholds := hI.owner _ _ _ hp (Proc.attempt?_of_executing? hjob)
    rw [heq] at hholds
    exact hholds.unique (hI.owner _ _ _ hp' (Proc.attempt?_of_executing? hjob'))
  owner h hp hjob := (exclusive_of_reachable h).owner _ _ _ hp (Proc.attempt?_of_executing? hjob)
  final {t s s' a j} h hs hrun := by
    have hI := exclusive_of_reachable h
    have hrun' := fenced_of_orderly hI hrun
    obtain ⟨x, hx, hmoves⟩ := moves_of_run (fenced_of_orderly (exclusive_init t) h) hrun' hs
    rw [JobStatus.eq_of_moves (.inl rfl) hmoves] at hx
    rintro ⟨pid, _, p, hp, hj⟩
    obtain ⟨job, hjob, rfl⟩ := Option.map_eq_some_iff.mp hj
    have hI' : Exclusive s' := hrun.invariant hI fun _ _ _ => exclusive_step
    obtain ⟨r, hr, hrunning, _⟩ := hI'.owner pid p job hp (Proc.attempt?_of_starting? hjob)
    rw [Database.status?_of_job? hr, hrunning] at hx
    cases hx

/-- Worker 1 crashes in the handler of job 7, and worker 3 executes it again. -/
theorem exclusionLaw_crashed : ∃ s, Reachable (Orderly minutely) (step minutely) (.init 0) s ∧
    s.Executes 3 7 2 ∧ ∀ i p job, s.procs[i]? = some p → p.executing? = some job → job.id = 7 → i = 3 := by
  obtain ⟨s, h, hs⟩ : ∃ s, Reachable (Orderly minutely) (step minutely) (.init 0) s ∧ _ :=
    exists_reachable_of_exec (taken report ++
      [.crash 1, .tick 61000000, .spawn (.reaper 60 10)] ++ calls 2 5 ++ [.spawn .worker] ++ calls 3 5)
      (fun s => s.Executes 3 7 2) (by decide)
  have hex := of_decide_eq_true hs
  refine ⟨s, h, hex, fun i p job hp hjob hid => ?_⟩
  obtain ⟨q, hq, job', hjob', hid', _⟩ := hex
  exact (exclusionLaw minutely).unique h hp hq hjob hjob' (hid.trans hid'.symm)

end DistribuQ
