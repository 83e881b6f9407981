import DistribuQ.Proofs.Processes

/-! The copies of a job id: in the hands of the processes, in the ready lists and in the scheduled set. -/

namespace DistribuQ
variable {env : Env} {pid : Nat} {ch : Choice} {st st' : Store} {j : Uuid}

/-- A copy of an id in the hands of a process, with what the process is about to do with it. -/
inductive Token
  | push (q : Queue) (j : Uuid)
  | schedule (j : Uuid) (score : Time)
  | lock (j : Uuid)

def Token.job : Token → Uuid
  | push _ j | schedule j _ | lock j => j

/-! The hands of each kind of process. -/

def Worker.Pc.hand : Worker.Pc → List Token
  | lpushProcessing j | fetchAndLock j => [.lock j]
  | zaddNext _ k t => [.schedule k t]
  | _ => []

def JobCreateRequest.token (req : JobCreateRequest) (j : Uuid) : Token :=
  match req.scheduledFor with
  | none => .push (Queue.ofPriority req.priority) j
  | some t => .schedule j t

def Submit.Pc.hand : Submit.Pc → List Token
  | push req j => [req.token j]
  | _ => []

def Replay.Pc.hand : Replay.Pc → List Token
  | push j => [.push (Queue.ofPriority 0) j]
  | _ => []

def ScheduledJob.token (x : ScheduledJob) : Token := .schedule x.id x.scheduledFor

def DueRetry.token (x : DueRetry) : Token := .push (Queue.ofPriority x.priority) x.id

def StaleJob.token (x : StaleJob) : Token := .push (Queue.ofPriority x.priority) x.id

def Scheduler.Pc.hand : Scheduler.Pc → List Token
  | sync x xs => (x :: xs).map ScheduledJob.token
  | pushRetries x xs => (x :: xs).map DueRetry.token
  | pushStale x xs => (x :: xs).map StaleJob.token
  | _ => []

def Reaper.Pc.hand : Reaper.Pc → List Token
  | requeueRem x xs | requeuePush x xs => (x :: xs).map fun x => .push .default x.id
  | pushRetries x xs => (x :: xs).map fun x => .push .default x.id
  | _ => []

def Proc.hand : Proc → List Token
  | worker p => p.pc.hand
  | submit pc => pc.hand
  | replay pc => pc.hand
  | scheduler p => p.pc.hand
  | reaper p => p.pc.hand
  | _ => []

/-- The token that a call uses up. -/
def Call.token? : Call → Option Token
  | lpush q j | rpush q j => some (.push q j)
  | zadd j t => some (.schedule j t)
  | fetchAndLockJob j _ => some (.lock j)
  | _ => none

/-- Where the tokens come from: the calls that hand out ids, each with the process that makes it and
the token it makes of them. -/
inductive Proc.Issues (env : Env) (ch : Choice) (st st' : Store) : Proc → Call → Token → Prop
  | create {req : JobCreateRequest} {row : Job} :
      Call.run env ch st (.createJob req.toNewJob) = some (st', row) →
      Issues env ch st st' (.submit (.create req)) (.createJob req.toNewJob) (req.token row.id)
  | successor {p : Worker} {job : LockedJob} {rule : String} {t : Time} {row : Job} :
      p.pc = .scheduleNext job rule t →
      Call.run env ch st (.scheduleNextOccurrence (Worker.nextOccurrence job rule t)) = some (st', row) →
      Issues env ch st st' (.worker p) (.scheduleNextOccurrence (Worker.nextOccurrence job rule t))
        (.schedule row.id t)
  | reserved {p : Worker} {q : Queue} {j : Uuid} : Call.run env ch st (.rpoplpush q) = some (st', some j) →
      Issues env ch st st' (.worker p) (.rpoplpush q) (.lock j)
  | popped {p : Worker} {q : Queue} {j : Uuid} :
      Call.run env ch st (.brpop Queue.ordered) = some (st', some (q, j)) →
      Issues env ch st st' (.worker p) (.brpop Queue.ordered) (.lock j)
  | replayed {d j : Uuid} : Call.run env ch st (.replayWrite d j) = some (st', ()) →
      Issues env ch st st' (.replay (.write d j)) (.replayWrite d j) (.push (Queue.ofPriority 0) j)
  | synced {p : Scheduler} {xs : List ScheduledJob} {x : ScheduledJob} :
      Call.run env ch st .getPendingScheduledJobs = some (st', xs) → x ∈ xs →
      Issues env ch st st' (.scheduler p) .getPendingScheduledJobs x.token
  | promoted {p : Scheduler} {xs : List DueRetry} {x : DueRetry} :
      Call.run env ch st .reclaimDueRetryJobs = some (st', xs) → x ∈ xs →
      Issues env ch st st' (.scheduler p) .reclaimDueRetryJobs x.token
  | reclaimed {p : Scheduler} {n : Nat} {xs : List StaleJob} {x : StaleJob} :
      Call.run env ch st (.reclaimStaleJobs n) = some (st', xs) → x ∈ xs →
      Issues env ch st st' (.scheduler p) (.reclaimStaleJobs n) x.token
  | reaped {p : Reaper} {n : Nat} {xs : List StaleJob} {x : StaleJob} :
      Call.run env ch st (.reclaimStaleJobs n) = some (st', xs) → x ∈ xs →
      Issues env ch st st' (.reaper p) (.reclaimStaleJobs n) (.push .default x.id)
  | retried {p : Reaper} {xs : List DueRetry} {x : DueRetry} :
      Call.run env ch st .reclaimDueRetryJobs = some (st', xs) → x ∈ xs →
      Issues env ch st st' (.reaper p) .reclaimDueRetryJobs (.push .default x.id)

theorem Scheduler.hand_syncLoop (xs : List ScheduledJob) :
    (syncLoop xs).hand = xs.map ScheduledJob.token := by
  cases xs <;> rfl

theorem Scheduler.hand_retryLoop (xs : List DueRetry) : (retryLoop xs).hand = xs.map DueRetry.token := by
  cases xs <;> rfl

theorem Scheduler.hand_staleLoop (xs : List StaleJob) : (staleLoop xs).hand = xs.map StaleJob.token := by
  cases xs <;> rfl

theorem Reaper.hand_staleLoop (xs : List StaleJob) :
    (staleLoop xs).hand = xs.map fun x => .push .default x.id := by
  cases xs <;> rfl

theorem Reaper.hand_retryLoop (xs : List DueRetry) :
    (retryLoop xs).hand = xs.map fun x => .push .default x.id := by
  cases xs <;> rfl

section
variable {t : Token}

theorem Scheduler.mem_hand_syncLoop {xs : List ScheduledJob} :
    t ∈ (syncLoop xs).hand ↔ t ∈ xs.map ScheduledJob.token := by rw [hand_syncLoop]

theorem Scheduler.mem_hand_retryLoop {xs : List DueRetry} :
    t ∈ (retryLoop xs).hand ↔ t ∈ xs.map DueRetry.token := by rw [hand_retryLoop]

theorem Scheduler.mem_hand_staleLoop {xs : List StaleJob} :
    t ∈ (staleLoop xs).hand ↔ t ∈ xs.map StaleJob.token := by rw [hand_staleLoop]

theorem Reaper.mem_hand_staleLoop {xs : List StaleJob} :
    t ∈ (staleLoop xs).hand ↔ t ∈ xs.map fun x => .push .default x.id := by rw [hand_staleLoop]

theorem Reaper.mem_hand_retryLoop {xs : List DueRetry} :
    t ∈ (retryLoop xs).hand ↔ t ∈ xs.map fun x => .push .default x.id := by rw [hand_retryLoop]

end

theorem Worker.hand_onFailure (job : LockedJob) (e : String) : (onFailure job e).hand = [] :=
  onFailure_cases (P := fun pc => pc.hand = []) e (fun _ => rfl) fun _ => rfl

theorem Worker.hand_afterSuccess (job : LockedJob) : (afterSuccess job).hand = [] :=
  afterSuccess_cases (P := fun pc => pc.hand = []) (fun _ => rfl) rfl

variable {p p' : Proc} {op : Op Proc} {t : Token}

theorem mem_hand_of_next (hop : p.next env pid = some op) (ht : op.call.token? = some t) : t ∈ p.hand := by
  cases p with
  | worker p =>
    obtain ⟨pc, _, _⟩ := p
    cases pc
    case poll qs => cases qs <;> cases hop <;> cases ht
    case stopped => cases hop
    all_goals
      cases hop
      cases ht
    all_goals exact List.mem_singleton_self _
  | submit pc =>
    obtain ⟨_, hnext, rfl⟩ := Option.map_eq_some_iff.mp hop
    cases Submit.does_of_next hnext with
    | push hs | schedule hs =>
      cases ht
      simp [Proc.hand, Submit.Pc.hand, JobCreateRequest.token, hs]
    | _ => cases ht
  | cancel pc => cases pc <;> cases hop <;> cases ht
  | replay pc =>
    cases pc <;> cases hop <;> cases ht
    exact List.mem_singleton_self _
  | scheduler p =>
    obtain ⟨pc, _, _⟩ := p
    cases pc <;> cases hop <;> cases ht <;> exact List.mem_cons_self
  | reaper p =>
    obtain ⟨_, _, pc, _⟩ := p
    cases pc <;> cases hop <;> cases ht <;> exact List.mem_cons_self
  | gone => cases hop

/-! What each kind of process has in hand after its step it had in hand before, or the step has issued
it. -/

theorem Worker.hand_of_goes {w w' : Worker} {c : Call} (h : w.pc.Goes env pid ch st st' c w'.pc)
    (ht : t ∈ w'.pc.hand) : t ∈ w.pc.hand ∨ (Proc.worker w).Issues env ch st st' c t := by
  obtain ⟨pc, _, _⟩ := w
  obtain ⟨pc', _, _⟩ := w'
  dsimp only at h ht ⊢
  cases h with
  | reserved _ hr =>
    cases List.mem_singleton.mp ht
    exact .inr (.reserved hr)
  | popped _ hr =>
    cases List.mem_singleton.mp ht
    exact .inr (.popped hr)
  | scheduled _ hr =>
    cases List.mem_singleton.mp ht
    exact .inr (.successor rfl hr)
  | raised | successFault =>
    rw [Worker.hand_onFailure] at ht
    cases ht
  | emitSuccess =>
    rw [Worker.hand_afterSuccess] at ht
    cases ht
  -- the id stays in hand until the lock attempt
  | put => exact .inl ht
  | _ => cases ht

theorem Submit.hand_of_next {pc pc' : Pc} {op : Op Pc} (hop : next pc = some op)
    (he : op.Ends env ch st st' pc') (ht : t ∈ pc'.hand) :
    (Proc.submit pc).Issues env ch st st' op.call t := by
  cases does_of_next hop with
  | check =>
    cases he with
    | @returned _ r => rcases r with _ | _ <;> cases ht
    | _ => cases ht
  | create =>
    cases he with
    | returned _ hr =>
      cases List.mem_singleton.mp ht
      exact .create hr
    | _ => cases ht
  | uncheck | push | schedule | emit => cases he <;> cases ht

theorem Replay.hand_of_next {pc pc' : Pc} {op : Op Pc} (hop : next pc = some op)
    (he : op.Ends env ch st st' pc') (ht : t ∈ pc'.hand) :
    (Proc.replay pc).Issues env ch st st' op.call t := by
  cases pc with
  | select i =>
    cases hop
    cases he with
    | @returned _ r => rcases r with _ | _ <;> cases ht
    | _ => cases ht
  | write d j =>
    cases hop
    cases he with
    | returned _ hr =>
      cases List.mem_singleton.mp ht
      exact .replayed hr
    | _ => cases ht
  | push j =>
    cases hop
    cases he <;> cases ht
  | finished => cases hop

theorem Scheduler.hand_of_next {p p' : Scheduler} {op : Op Scheduler} (hop : p.next env = some op)
    (he : op.Ends env ch st st' p') (ht : t ∈ p'.pc.hand) :
    t ∈ p.pc.hand ∨ (Proc.scheduler p).Issues env ch st st' op.call t := by
  obtain ⟨pc, running, last⟩ := p
  cases pc with
  | syncSelect =>
    cases hop
    cases he with
    | returned _ hr =>
      obtain ⟨x, hx, rfl⟩ := List.mem_map.mp (mem_hand_syncLoop.mp ht)
      exact .inr (.synced hr hx)
    | _ => cases ht
  | retries =>
    cases hop
    cases he with
    | returned _ hr =>
      obtain ⟨x, hx, rfl⟩ := List.mem_map.mp (mem_hand_retryLoop.mp ht)
      exact .inr (.promoted hr hx)
    | _ => cases ht
  | stale =>
    cases hop
    cases he with
    | returned _ hr =>
      obtain ⟨x, hx, rfl⟩ := List.mem_map.mp (mem_hand_staleLoop.mp ht)
      exact .inr (.reclaimed hr hx)
    | _ => cases ht
  -- the loops go on with the rest of their batch
  | sync x xs =>
    cases hop
    cases he with
    | returned => exact .inl (List.mem_cons_of_mem _ (mem_hand_syncLoop.mp ht))
    | _ => cases ht
  | pushRetries x xs =>
    cases hop
    cases he with
    | returned => exact .inl (List.mem_cons_of_mem _ (mem_hand_retryLoop.mp ht))
    | _ => cases ht
  | pushStale x xs =>
    cases hop
    cases he with
    | returned => exact .inl (List.mem_cons_of_mem _ (mem_hand_staleLoop.mp ht))
    | _ => cases ht
  | loop =>
    cases hop
    cases running <;> cases he <;> cases ht
  | monotonic =>
    cases hop
    cases he with
    | @returned _ r =>
      simp only at ht
      split_ifs at ht <;> cases ht
    | _ => cases ht
  | promoteNow | promote | expire =>
    cases hop
    cases he <;> cases ht
  | stopped => cases hop

theorem Reaper.hand_of_next {p p' : Reaper} {op : Op Reaper} (hop : p.next = some op)
    (he : op.Ends env ch st st' p') (ht : t ∈ p'.pc.hand) :
    t ∈ p.pc.hand ∨ (Proc.reaper p).Issues env ch st st' op.call t := by
  obtain ⟨v, b, pc, running⟩ := p
  cases pc with
  | stale =>
    cases hop
    cases he with
    | returned _ hr =>
      obtain ⟨x, hx, rfl⟩ := List.mem_map.mp (mem_hand_staleLoop.mp ht)
      exact .inr (.reaped hr hx)
    | _ => cases ht
  | retries =>
    cases hop
    cases he with
    | returned _ hr =>
      obtain ⟨x, hx, rfl⟩ := List.mem_map.mp (mem_hand_retryLoop.mp ht)
      exact .inr (.retried hr hx)
    | _ => cases ht
  | requeueRem x xs =>
    cases hop
    cases he with
    | returned => exact .inl ht
    | _ => exact .inl (List.mem_cons_of_mem _ (mem_hand_staleLoop.mp ht))
  | requeuePush x xs =>
    cases hop
    cases he <;> exact .inl (List.mem_cons_of_mem _ (mem_hand_staleLoop.mp ht))
  | pushRetries x xs =>
    cases hop
    cases he <;> exact .inl (List.mem_cons_of_mem _ (mem_hand_retryLoop.mp ht))
  | loop =>
    cases hop
    cases running <;> cases he <;> cases ht
  | expire =>
    cases hop
    cases he <;> cases ht
  | stopped => cases hop

theorem mem_hand_of_step (hop : p.next env pid = some op) (he : op.Ends env ch st st' p')
    (ht : t ∈ p'.hand) : t ∈ p.hand ∨ p.Issues env ch st st' op.call t := by
  cases Proc.goes_of_next hop he with
  | worker hnext heq hends =>
    have hg := Worker.goes_of_next hnext hends
    rw [heq] at hg
    exact Worker.hand_of_goes hg ht
  | submit hnext heq hends => exact .inr (heq ▸ Submit.hand_of_next hnext hends ht)
  | cancel => cases ht
  | replay hnext heq hends => exact .inr (heq ▸ Replay.hand_of_next hnext hends ht)
  | scheduler hnext heq hends => exact heq ▸ Scheduler.hand_of_next hnext hends ht
  | reaper hnext heq hends => exact heq ▸ Reaper.hand_of_next hnext hends ht

section
variable {s s' : State} {a : Action} {i : Nat} {c : Call}

@[simp] theorem Proc.hand_signal (p : Proc) : p.signal.hand = p.hand := by
  cases p <;> rfl

@[simp] theorem Request.hand_toProc (r : Request) : r.toProc.hand = [] := by
  cases r <;> rfl

theorem mem_hand_of_call? (hc : s.call? env a = some (pid, c)) (ht : c.token? = some t) :
    ∃ p, s.procs[pid]? = some p ∧ t ∈ p.hand := by
  obtain ⟨_, p, op, hp, ⟨_, hop⟩ | ⟨_, hop⟩, rfl⟩ := call?_eq_some hc
  · exact ⟨p, hp, mem_hand_of_next hop ht⟩
  · obtain ⟨n, rfl⟩ := heartbeat_eq_some hop
    cases ht

/-- What is in a hand after a step was there before, or the step has issued it. -/
theorem hand_of_step (h : step env s a = some s') (hp' : s'.procs[i]? = some p') (ht : t ∈ p'.hand) :
    (∃ p, s.procs[i]? = some p ∧ t ∈ p.hand) ∨
    ∃ p ch c, s.procs[i]? = some p ∧ p.Issues env ch s.store s'.store c t := by
  cases became_of_step h hp' with
  | kept hp => exact .inl ⟨p', hp, ht⟩
  | spawned r hr =>
    rw [hr, Request.hand_toProc] at ht
    cases ht
  | signalled p hp hr =>
    rw [hr, Proc.hand_signal] at ht
    exact .inl ⟨p, hp, ht⟩
  | crashed hr =>
    rw [hr] at ht
    cases ht
  | @ran p ch op hp hop he =>
    exact (mem_hand_of_step hop he ht).imp (fun ht => ⟨p, hp, ht⟩) fun ht => ⟨p, ch, op.call, hp, ht⟩

end

/-! The rows that the batches of ids are read from. -/

namespace Call

theorem row_of_synced {xs : List ScheduledJob} {x : ScheduledJob}
    (h : run env ch st .getPendingScheduledJobs = some (st', xs)) (hx : x ∈ xs) :
    ∃ r, st.db.job? x.id = some r ∧ r.status = .pending ∧ r.scheduledFor = some x.scheduledFor := by
  cases h
  obtain ⟨r, hr, hrow⟩ := List.mem_filterMap.mp ((Table.perm_inOrder _ _).mem_iff.mp hx)
  obtain ⟨t, ht, rfl⟩ := Option.map_eq_some_iff.mp hrow
  obtain ⟨hfind, hs⟩ := (Table.mem_select _ _).mp hr
  exact ⟨r, hfind, of_decide_eq_true hs, ht⟩

theorem row_of_promoted {xs : List DueRetry} {x : DueRetry}
    (h : run env ch st .reclaimDueRetryJobs = some (st', xs)) (hx : x ∈ xs) :
    ∃ r, st.db.job? x.id = some r ∧ r.dueRetry st.clock = true ∧ x = r.release.toDueRetry := by
  cases h
  obtain ⟨r, hr, rfl⟩ := List.mem_map.mp ((Table.perm_inOrder _ _).mem_iff.mp hx)
  obtain ⟨hfind, hs⟩ := (Table.mem_select _ _).mp hr
  exact ⟨r, hfind, hs, rfl⟩

theorem row_of_reclaimed {n : Nat} {xs : List StaleJob} {x : StaleJob}
    (h : run env ch st (.reclaimStaleJobs n) = some (st', xs)) (hx : x ∈ xs) :
    ∃ r, st.db.job? x.id = some r ∧ st.db.stale st.clock n r = true ∧ x = r.release.toStale := by
  cases h
  obtain ⟨r, hr, rfl⟩ := List.mem_map.mp ((Table.perm_inOrder _ _).mem_iff.mp hx)
  obtain ⟨hfind, hs⟩ := (Table.mem_select _ _).mp hr
  exact ⟨r, hfind, hs, rfl⟩

end Call

end DistribuQ
