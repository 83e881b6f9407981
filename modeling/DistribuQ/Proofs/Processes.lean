import DistribuQ.Proofs.Workers

/-! What a process does with the result of its call: the transitions of each kind of process, the
attempts of a worker and the two steps of a replay. -/

namespace DistribuQ
variable {env : Env} {pid : Nat} {ch : Choice} {st st' : Store} {job : LockedJob} {j : Uuid}

inductive Submit.Does : Submit.Pc → Op Submit.Pc → Prop
  | check {req : JobCreateRequest} {rule : String} : Does (.validate req) ⟨.computeNextRun rule, fun
      | .ok (some _) => .create req
      | .ok none | .error _ => .finished⟩
  | uncheck {req : JobCreateRequest} : Does (.validate req) ⟨.skip, fun _ => .create req⟩
  | create {req : JobCreateRequest} : Does (.create req) ⟨.createJob req.toNewJob, fun
      | .ok row => .push req row.id
      | .error _ => .finished⟩
  | push {req : JobCreateRequest} {j : Uuid} : req.scheduledFor = none →
      Does (.push req j) ⟨.lpush (Queue.ofPriority req.priority) j, fun
        | .ok _ => .emit req j
        | .error _ => .finished⟩
  | schedule {req : JobCreateRequest} {j : Uuid} {t : Time} : req.scheduledFor = some t →
      Does (.push req j) ⟨.zadd j t, fun
        | .ok _ => .emit req j
        | .error _ => .finished⟩
  | emit {req : JobCreateRequest} {j : Uuid} : Does (.emit req j)
      ⟨.publish (.jobSubmitted j req.type req.priority req.scheduledFor), fun _ => .finished⟩

theorem Submit.does_of_next {pc : Submit.Pc} {op : Op Submit.Pc} (hop : Submit.next pc = some op) :
    Submit.Does pc op := by
  cases pc with
  | validate req =>
    unfold Submit.next at hop
    dsimp only at hop
    split at hop
    · split_ifs at hop
      · cases hop
        exact .check
      · cases hop
        exact .uncheck
    · cases hop
      exact .uncheck
  | create req =>
    cases hop
    exact .create
  | push req j =>
    unfold Submit.next at hop
    dsimp only at hop
    split at hop
    · rename_i hs
      cases hop
      exact .push hs
    · rename_i t hs
      cases hop
      exact .schedule hs
  | emit req j =>
    cases hop
    exact .emit
  | finished => cases hop

theorem Op.Ends.of_map {α β : Type} {f : α → β} {op : Op α} {x : β}
    (h : (op.map f).Ends env ch st st' x) : ∃ y, x = f y ∧ op.Ends env ch st st' y := by
  cases h with
  | returned hf hr => exact ⟨_, rfl, .returned hf hr⟩
  | raised he hl => exact ⟨_, rfl, .raised he hl⟩
  | lost he hl hr => exact ⟨_, rfl, .lost he hl hr⟩

inductive Proc.Goes (env : Env) (pid : Nat) (ch : Choice) (st st' : Store) (c : Call) : Proc → Proc → Prop
  | worker {p p' : Worker} {op : Op Worker} : p.next pid = some op → op.call = c →
      op.Ends env ch st st' p' → Goes env pid ch st st' c (.worker p) (.worker p')
  | submit {pc pc' : Submit.Pc} {op : Op Submit.Pc} : Submit.next pc = some op → op.call = c →
      op.Ends env ch st st' pc' → Goes env pid ch st st' c (.submit pc) (.submit pc')
  | cancel {pc pc' : Cancel.Pc} {op : Op Cancel.Pc} : Cancel.next pc = some op → op.call = c →
      op.Ends env ch st st' pc' → Goes env pid ch st st' c (.cancel pc) (.cancel pc')
  | replay {pc pc' : Replay.Pc} {op : Op Replay.Pc} : Replay.next pc = some op → op.call = c →
      op.Ends env ch st st' pc' → Goes env pid ch st st' c (.replay pc) (.replay pc')
  | scheduler {p p' : Scheduler} {op : Op Scheduler} : p.next env = some op → op.call = c →
      op.Ends env ch st st' p' → Goes env pid ch st st' c (.scheduler p) (.scheduler p')
  | reaper {p p' : Reaper} {op : Op Reaper} : p.next = some op → op.call = c →
      op.Ends env ch st st' p' → Goes env pid ch st st' c (.reaper p) (.reaper p')

theorem Proc.goes_of_next {p p' : Proc} {op : Op Proc} (hop : p.next env pid = some op)
    (he : op.Ends env ch st st' p') : Goes env pid ch st st' op.call p p' := by
  cases p with
  | worker p =>
    obtain ⟨_, hnext, rfl⟩ := Option.map_eq_some_iff.mp hop
    obtain ⟨_, rfl, hends⟩ := he.of_map
    exact .worker hnext rfl hends
  | submit pc =>
    obtain ⟨_, hnext, rfl⟩ := Option.map_eq_some_iff.mp hop
    obtain ⟨_, rfl, hends⟩ := he.of_map
    exact .submit hnext rfl hends
  | cancel pc =>
    obtain ⟨_, hnext, rfl⟩ := Option.map_eq_some_iff.mp hop
    obtain ⟨_, rfl, hends⟩ := he.of_map
    exact .cancel hnext rfl hends
  | replay pc =>
    obtain ⟨_, hnext, rfl⟩ := Option.map_eq_some_iff.mp hop
    obtain ⟨_, rfl, hends⟩ := he.of_map
    exact .replay hnext rfl hends
  | scheduler p =>
    obtain ⟨_, hnext, rfl⟩ := Option.map_eq_some_iff.mp hop
    obtain ⟨_, rfl, hends⟩ := he.of_map
    exact .scheduler hnext rfl hends
  | reaper p =>
    obtain ⟨_, hnext, rfl⟩ := Option.map_eq_some_iff.mp hop
    obtain ⟨_, rfl, hends⟩ := he.of_map
    exact .reaper hnext rfl hends
  | gone => cases hop

/-- The step of a worker, with its call. -/
theorem worker_of_step {s s' : State} {w : Worker} (hp : s.procs[pid]? = some (.worker w))
    (h : step env s (.run pid ch) = some s') :
    ∃ (w' : Worker) (op : Op Worker), op.Ends env ch s.store s'.store w' ∧
      w.pc.Goes env pid ch s.store s'.store op.call w'.pc ∧ s'.procs[pid]? = some (.worker w') ∧
      ((∀ e, ch.fault ≠ .raised e) → s.call? env (.run pid ch) = some (pid, op.call)) := by
  obtain ⟨p, p', op, hp', hop, he, _, hq⟩ := ran_of_step h
  cases hp.symm.trans hp'
  cases Proc.goes_of_next hop he with
  | @worker _ w' op' hnext hcall hends =>
    refine ⟨w', op', hends, Worker.goes_of_next hnext hends, hq, fun hf => ?_⟩
    rw [call?_of_makes hp (.inl ⟨rfl, hop⟩) (.inl hf), hcall]

def Call.removes : Call → Bool
  | lrem .. | zrem _ | cancelUpdate _ => true
  | _ => false

/-- The calls that change `queue:processing`. -/
def Call.tracks : Call → Bool
  | rpoplpush _ | lpushProcessing _ | lremProcessing _ => true
  | _ => false

/-- The calls that insert no row, write no outcome, replay, lock, promote and remove nothing, and leave
`queue:processing` as it is. -/
def Call.idle : Call → Bool
  | getPendingScheduledJobs | upsertWorkerHeartbeat .. | markWorkerDead _ | markExpiredWorkersDead _
  | reclaimStaleJobs _ | reclaimDueRetryJobs | cancelSelect _ | replaySelect _ | lpush .. | rpush .. | zadd ..
  | brpop _ | publish _ | skip | now | monotonic | executeHandler .. | computeNextRetryAt ..
  | computeNextRun _ => true
  | _ => false

namespace Proc

/-- A reaper that is in `requeue_job`. -/
def requeues : Proc → Bool
  | reaper p =>
    match p.pc with
    | .requeueRem .. | .requeuePush .. => true
    | _ => false
  | _ => false

/-- A call of which only this much is told: it inserts no row, writes no outcome and locks nothing. -/
structure Plain (p : Proc) (c : Call) : Prop where
  outcome : c.outcome? = none
  replayed : c.replayed? = none
  lock : ∀ j w, c ≠ .fetchAndLockJob j w
  inserted : ∀ ch st, c.inserted? ch st = none
  update : p.attempt?.isSome → ∀ st, c.update? st = none
  promote : ∀ q t, c ≠ .promoteScheduled q t
  remove : c.removes = true → ∃ pc, p = .cancel pc
  track : c.tracks = true → p.isWorker = true ∨ p.requeues = true

theorem Plain.of_idle {p : Proc} {c : Call} (ha : p.attempt? = none) (hc : c.idle = true) :
    p.Plain c := by
  have hupdate (st : Store) (h : p.attempt?.isSome) : c.update? st = none := by
    rw [ha] at h
    cases h
  cases c <;> cases hc <;>
    exact ⟨rfl, rfl, nofun, fun _ _ => rfl, fun h st => hupdate st h, nofun, nofun, nofun⟩

/-- The calls of the processes, each with the process that makes it. -/
inductive Makes (pid : Nat) : Proc → Call → Prop
  | create (req : JobCreateRequest) : Makes pid (.submit (.create req)) (.createJob req.toNewJob)
  | lock {p : Worker} {j : Uuid} : p.pc = .fetchAndLock j → Makes pid (.worker p) (.fetchAndLockJob j pid)
  | succeed {p : Worker} {job : LockedJob} {v : Json} : p.pc = .markSuccess job v →
      Makes pid (.worker p) (.markJobSuccess job.id v)
  | schedule {p : Worker} {job : LockedJob} {rule : String} {t : Time} : p.pc = .scheduleNext job rule t →
      Makes pid (.worker p) (.scheduleNextOccurrence (Worker.nextOccurrence job rule t))
  | retry {p : Worker} {job : LockedJob} {e : String} {t : Time} : p.pc = .markRetrying job e t →
      Makes pid (.worker p) (.markJobRetrying job.id e t)
  | bury {p : Worker} {job : LockedJob} {e : String} : p.pc = .moveToDeadLetter job e →
      Makes pid (.worker p) (.moveToDeadLetter job.id e job.attempts)
  | replay (d j : Uuid) : Makes pid (.replay (.write d j)) (.replayWrite d j)
  | promote {p : Scheduler} {t : Time} : p.pc = .promote t →
      Makes pid (.scheduler p) (.promoteScheduled .default t)
  | other {p : Proc} {c : Call} : p.Plain c → Makes pid p c

theorem makes_of_next {p : Proc} {op : Op Proc} (hop : p.next env pid = some op) : p.Makes pid op.call := by
  cases p with
  | worker p =>
    obtain ⟨pc, _, _⟩ := p
    cases pc
    case poll qs =>
      cases qs with
      | nil =>
        cases hop
        exact .other (.of_idle rfl rfl)
      | cons q qs =>
        cases hop
        exact .other ⟨rfl, rfl, nofun, fun _ _ => rfl, nofun, nofun, nofun, fun _ => .inl rfl⟩
    case fetchAndLock =>
      cases hop
      exact .lock rfl
    case markSuccess =>
      cases hop
      exact .succeed rfl
    case scheduleNext =>
      cases hop
      exact .schedule rfl
    case markRetrying =>
      cases hop
      exact .retry rfl
    case moveToDeadLetter =>
      cases hop
      exact .bury rfl
    case stopped => cases hop
    all_goals
      cases hop
      exact .other ⟨rfl, rfl, nofun, fun _ _ => rfl, fun _ _ => rfl, nofun, nofun, fun _ => .inl rfl⟩
  | submit pc =>
    obtain ⟨_, hnext, rfl⟩ := Option.map_eq_some_iff.mp hop
    cases Submit.does_of_next hnext with
    | create => exact .create _
    | _ => exact .other (.of_idle rfl rfl)
  | cancel pc =>
    cases pc <;> cases hop <;>
      exact .other ⟨rfl, rfl, nofun, fun _ _ => rfl, nofun, nofun, fun _ => ⟨_, rfl⟩, nofun⟩
  | replay pc =>
    cases pc with
    | write d j =>
      cases hop
      exact .replay d j
    | finished => cases hop
    | select | push =>
      cases hop
      exact .other (.of_idle rfl rfl)
  | scheduler p =>
    obtain ⟨pc, _, _⟩ := p
    cases pc with
    | promote t =>
      cases hop
      exact .promote rfl
    | stopped => cases hop
    | _ =>
      cases hop
      exact .other (.of_idle rfl rfl)
  | reaper p =>
    obtain ⟨_, _, pc, _⟩ := p
    cases pc with
    | requeueRem =>
      cases hop
      exact .other ⟨rfl, rfl, nofun, fun _ _ => rfl, nofun, nofun, nofun, fun _ => .inr rfl⟩
    | stopped => cases hop
    | _ =>
      cases hop
      exact .other (.of_idle rfl rfl)
  | gone => cases hop

theorem Makes.attempt {p : Proc} {c : Call} (h : p.Makes pid c) (ho : c.outcome? = some j) :
    ∃ job, p.attempt? = some job ∧ job.id = j := by
  cases h with
  | succeed hpc | retry hpc | bury hpc =>
    cases ho
    exact ⟨_, by rw [attempt?, ofPc, hpc]; rfl, rfl⟩
  | other hp => cases hp.outcome.symm.trans ho
  | _ => cases ho

theorem Makes.tracker {p : Proc} {c : Call} (h : p.Makes pid c) (hc : c.tracks = true) :
    p.isWorker = true ∨ p.requeues = true := by
  cases h with
  | other hp => exact hp.track hc
  | _ => cases hc

theorem Makes.ne_lock {p : Proc} {c : Call} (h : p.Makes pid c) {f : Worker.Pc → Option LockedJob}
    (hf : ∀ j, f (.fetchAndLock j) = none) (ha : p.ofPc f = some job) (j : Uuid) (w : WorkerId) :
    c ≠ .fetchAndLockJob j w := by
  rintro rfl
  cases h with
  | lock hpc =>
    rw [ofPc, hpc, hf] at ha
    cases ha
  | other hp => exact hp.lock _ _ rfl

end Proc

/-- A call with an effect is one that its process makes, or a heartbeat. -/
theorem makes_of_call? {s : State} {a : Action} {c : Call} (h : s.call? env a = some (pid, c)) :
    (∃ ch p, a = .run pid ch ∧ s.procs[pid]? = some p ∧ p.Makes pid c) ∨
    ∃ ch n, a = .heartbeat pid ch ∧ c = .upsertWorkerHeartbeat pid n := by
  obtain ⟨ch, p, op, hp, ⟨rfl, hop⟩ | ⟨rfl, hop⟩, rfl⟩ := call?_eq_some h
  · exact .inl ⟨ch, p, rfl, hp, Proc.makes_of_next hop⟩
  · obtain ⟨n, rfl⟩ := heartbeat_eq_some hop
    exact .inr ⟨ch, n, rfl, rfl⟩

section
variable {β : Type} {f : Worker.Pc → Option β}

@[simp] theorem Proc.ofPc_signal (p : Proc) : p.signal.ofPc f = p.ofPc f := by
  cases p <;> rfl

theorem Request.ofPc_toProc (hf : f .loop = none) (r : Request) : r.toProc.ofPc f = none := by
  cases r with
  | worker => exact hf
  | _ => rfl

end

/-- What a reading yields in the wake of a lock it did so before the step, or the step has locked the
job. -/
theorem ofPc_of_step {f : Worker.Pc → Option LockedJob} (hf : Worker.Pc.FromLock f) {s s' : State}
    {a : Action} {i : Nat} {p' : Proc} (h : step env s a = some s') (hp' : s'.procs[i]? = some p')
    (ha : p'.ofPc f = some job) :
    (∃ p, s.procs[i]? = some p ∧ p.ofPc f = some job ∧
      ∀ c, s.call? env a = some (i, c) → ∀ j w, c ≠ .fetchAndLockJob j w) ∨
    ∃ r, s.call? env a = some (i, .fetchAndLockJob job.id i) ∧ s.store.db.job? job.id = some r ∧
      r.claimable = true ∧ job = (r.lock i s.store.clock).toLocked ∧
      s'.store.db.job? job.id = some ((r.lock i s.store.clock).touch s.store.clock) := by
  obtain ⟨hloop, hlock, hgoes⟩ := hf
  have kept {p : Proc} (hp : s.procs[i]? = some p) (ha : p.ofPc f = some job) {c : Call}
      (hc : s.call? env a = some (i, c)) (j : Uuid) (w : WorkerId) : c ≠ .fetchAndLockJob j w := by
    rcases makes_of_call? hc with ⟨_, q, _, hq, hm⟩ | ⟨_, _, _, rfl⟩
    · cases hp.symm.trans hq
      exact hm.ne_lock hlock ha j w
    · nofun
  cases became_of_step h hp' with
  | kept hp => exact .inl ⟨p', hp, ha, fun c hc => kept hp ha hc⟩
  | spawned r hr =>
    rw [hr, Request.ofPc_toProc hloop] at ha
    cases ha
  | signalled p hp hr =>
    rw [hr, Proc.ofPc_signal] at ha
    exact .inl ⟨p, hp, ha, fun c hc => kept hp ha hc⟩
  | crashed hr =>
    rw [hr] at ha
    cases ha
  | @ran p ch op hp hop he =>
    cases Proc.goes_of_next hop he with
    -- only workers read `some`, and what they read comes from a lock alone
    | worker hnext hcall hends =>
      rcases hgoes _ _ _ _ _ _ _ _ _ (Worker.goes_of_next hnext hends) ha with hw | ⟨j, hcall', hf, hrun⟩
      · exact .inl ⟨_, hp, hw, fun c hc => kept hp hw hc⟩
      · obtain ⟨r, hr, hclaim, hjob, rfl, hr'⟩ := Call.run_fetchAndLockJob_some hrun
        have hc : s.call? env (.run i ch) = some (i, .fetchAndLockJob job.id i) := by
          rw [call?_of_no_fault hp (.inl ⟨rfl, hop⟩) hf, ← hcall, hcall']
        exact .inr ⟨r, hc, hr, hclaim, hjob, hr'⟩
    | _ => cases ha

theorem Replay.hasLetter_of_next {pc : Replay.Pc} {op : Op Replay.Pc} {d : Uuid}
    (hop : Replay.next pc = some op) (he : op.Ends env ch st st' (.write d j)) :
    st' = st ∧ st.db.HasLetter d j := by
  cases pc with
  | select i =>
    cases hop
    generalize hpc' : Replay.Pc.write d j = pc' at he
    cases he with
    | raised => cases hpc'
    | lost => cases hpc'
    | @returned _ r _ hr =>
      rcases r with _ | l
      · cases hpc'
      · cases hpc'
        simp only [Call.run, Option.some.injEq, Prod.mk.injEq] at hr
        obtain ⟨rfl, hl⟩ := hr
        refine ⟨rfl, l, ?_, rfl⟩
        obtain ⟨_, hmem⟩ := List.head?_eq_some_iff.mp hl
        have hsel := (Table.perm_inOrder _ _).mem_iff.mp (hmem ▸ List.mem_cons_self)
        exact ((Table.mem_select _ _).mp hsel).1
  | write d' j' =>
    cases hop
    generalize hpc' : Replay.Pc.write d j = pc' at he
    cases he <;> cases hpc'
  | push j' =>
    cases hop
    generalize hpc' : Replay.Pc.write d j = pc' at he
    cases he <;> cases hpc'
  | finished => cases hop

end DistribuQ
