import DistribuQ.Proofs.Queues
import DistribuQ.Proofs.Executions

/-! The copies of a job id, counted over the queues and the hands of the processes: what one call adds
and what it takes away. -/

namespace DistribuQ
variable {env : Env} {s s' : State} {a : Action} {pid : Nat} {ch : Choice} {st st' : Store} {c : Call}
  {i j : Uuid} {q : Queue}

def Call.put? : Call → Option Uuid
  | lpush _ j | rpush _ j | zadd j _ => some j
  | _ => none

def Call.zadded? : Call → Option Uuid
  | zadd j _ => some j
  | _ => none

/-- The ids that a call takes out of a ready list for its process. -/
def Call.popped : (c : Call) → c.Ret → List Uuid
  | rpoplpush _, j => j.toList
  | brpop _, x => (x.map Prod.snd).toList
  | _, _ => []

/-- The ids that a call hands to its process from Postgres. -/
def Call.fresh : (c : Call) → c.Ret → List Uuid
  | createJob _, row | scheduleNextOccurrence _, row => [row.id]
  | replayWrite _ j, _ => [j]
  | getPendingScheduledJobs, xs => xs.map ScheduledJob.id
  | reclaimStaleJobs _, xs => xs.map StaleJob.id
  | reclaimDueRetryJobs, xs => xs.map DueRetry.id
  | _, _ => []

def Proc.holds (j : Uuid) (p : Proc) : Nat := (p.hand.map Token.job).count j

def Redis.copies (j : Uuid) (r : Redis) : Nat :=
  tally (fun q => (r.lists q).count j) Queue.ordered + r.scheduled.members.count j

namespace Redis
variable {r r' : Redis} {l : List Uuid}

theorem copies_setList : (r.setList q l).copies j + (r.lists q).count j = r.copies j + l.count j := by
  cases q <;> simp [copies, Queue.ordered, setList] <;> omega

theorem copies_lpush : (r.lpush q i).copies j = r.copies j + indicator (i = j) := by
  have h := copies_setList (r := r) (q := q) (l := i :: r.lists q) (j := j)
  rw [List.count_cons] at h
  simp only [lpush, indicator, beq_iff_eq] at h ⊢
  omega

theorem copies_rpush : (r.rpush q i).copies j = r.copies j + indicator (i = j) := by
  have h := copies_setList (r := r) (q := q) (l := r.lists q ++ [i]) (j := j)
  rw [List.count_append, List.count_singleton] at h
  simp only [rpush, indicator, beq_iff_eq] at h ⊢
  omega

theorem copies_rpop {o : Option Uuid} (h : r.rpop q = (r', o)) :
    r'.copies j + o.toList.count j = r.copies j := by
  cases o with
  | none => simp [rpop_eq_none h]
  | some i =>
    obtain ⟨hl, rfl⟩ := rpop_eq_some h
    have hset := copies_setList (r := r) (q := q) (l := (r.lists q).dropLast) (j := j)
    rw [lists_setList, Function.update_self] at hl
    have hcount := congrArg (List.count j) hl
    rw [List.count_append] at hcount
    simp only [Option.toList_some]
    omega

theorem copies_rpoplpush {o : Option Uuid} (h : r.rpoplpush q = (r', o)) :
    r'.copies j + o.toList.count j = r.copies j := by
  cases o with
  | none => simp [rpoplpush_eq_none h]
  | some i =>
    obtain ⟨r₁, hr, rfl⟩ := rpoplpush_eq_some h
    exact (copies_rpop hr :)

theorem copies_brpop {qs : List Queue} {o : Option (Queue × Uuid)} (h : r.brpop qs = (r', o)) :
    r'.copies j + (o.map Prod.snd).toList.count j = r.copies j := by
  rcases o with _ | ⟨q, i⟩
  · simp [brpop_eq_none h]
  · exact (copies_rpop (brpop_eq_some h) :)

theorem copies_zadd {t : Time} : (r.zadd i t).copies j + indicator (i = j ∧ j ∈ r.scheduled.members) =
    r.copies j + indicator (i = j) := by
  simp only [copies, zadd, SortedSet.count_members, SortedSet.mem_members_add, indicator]
  by_cases hi : i = j
  · subst hi
    by_cases hmem : i ∈ r.scheduled.members <;> simp [hmem]
  · simp [hi, Ne.symm hi]

theorem copies_promoteScheduled {t : Time} : (r.promoteScheduled q t).1.copies j = r.copies j := by
  obtain ⟨hl, hs, _⟩ := promote_eq (q := q) (r.scheduled.rangeTo t) r
  have hset := copies_setList (r := r) (q := q) (l := (r.scheduled.rangeTo t).reverse ++ r.lists q) (j := j)
  rw [List.count_append, List.count_reverse] at hset
  have hlists : (r.promoteScheduled q t).1.lists = (r.setList q _).lists := hl
  have hscheduled : (r.promoteScheduled q t).1.scheduled =
      (r.scheduled.rangeTo t).foldl SortedSet.remove r.scheduled := hs
  have hmoved : ((r.scheduled.rangeTo t).foldl SortedSet.remove r.scheduled).members.count j +
      (r.scheduled.rangeTo t).count j = r.scheduled.members.count j := by
    rw [SortedSet.count_members, SortedSet.count_members, SortedSet.count_rangeTo]
    simp only [SortedSet.mem_members_foldl_remove]
    by_cases hdue : j ∈ r.scheduled.rangeTo t
    · simp [hdue, SortedSet.mem_members_of_rangeTo hdue]
    · simp [hdue]
  have hcopies : (r.setList q ((r.scheduled.rangeTo t).reverse ++ r.lists q)).scheduled = r.scheduled := rfl
  simp only [copies, hcopies] at hset ⊢
  rw [hlists, hscheduled]
  omega

end Redis

namespace Call
variable {x : c.Ret}

/-- A call that removes nothing keeps the copies, but for those it pops; a push makes a copy, unless it only
gives a member of the scheduled set a new score. -/
theorem copies_of_run (h : c.run env ch st = some (st', x)) (hr : c.removes = false) :
    st'.redis.copies j + (c.popped x).count j +
        indicator (c.zadded? = some j ∧ j ∈ st.redis.scheduled.members) =
      st.redis.copies j + indicator (c.put? = some j) := by
  cases c <;> simp only [run, Option.some.injEq, Option.map_eq_some_iff, Prod.exists] at h
  case lpush q i =>
    cases h
    simpa [popped, put?, zadded?] using Redis.copies_lpush
  case rpush q i =>
    cases h
    simpa [popped, put?, zadded?] using Redis.copies_rpush
  case zadd i t =>
    cases h
    simpa [popped, put?, zadded?] using Redis.copies_zadd
  case lrem | zrem => cases hr
  case rpoplpush q =>
    cases h
    have hcopies : (st.redis.rpoplpush q).1.copies j + (st.redis.rpoplpush q).2.toList.count j =
      st.redis.copies j := Redis.copies_rpoplpush rfl
    simpa [popped, put?, zadded?] using hcopies
  case brpop qs =>
    cases h
    have hcopies : (st.redis.brpop qs).1.copies j + ((st.redis.brpop qs).2.map Prod.snd).toList.count j =
      st.redis.copies j := Redis.copies_brpop rfl
    simpa [popped, put?, zadded?] using hcopies
  case promoteScheduled q t =>
    cases h
    simpa [popped, put?, zadded?] using Redis.copies_promoteScheduled
  case scheduleNextOccurrence | createJob =>
    obtain ⟨_, _, _, h⟩ := h
    cases h
    simp [popped, put?, zadded?]
  case moveToDeadLetter =>
    obtain ⟨_, _, h⟩ := h
    cases h
    simp [popped, put?, zadded?]
  all_goals
    cases h
    simp [popped, put?, zadded?, Redis.copies, Redis.lpushProcessing, Redis.lremProcessing, Redis.publish]

theorem put_of_zadded (hz : c.zadded? = some j) (x : c.Ret) : c.put? = some j ∧ c.popped x = [] := by
  cases c <;> first | exact ⟨hz, rfl⟩ | cases hz

end Call

theorem Scheduler.map_job_syncLoop (xs : List ScheduledJob) :
    (syncLoop xs).hand.map Token.job = xs.map ScheduledJob.id := by
  rw [hand_syncLoop, List.map_map]
  rfl

theorem Scheduler.map_job_retryLoop (xs : List DueRetry) :
    (retryLoop xs).hand.map Token.job = xs.map DueRetry.id := by
  rw [hand_retryLoop, List.map_map]
  rfl

theorem Scheduler.map_job_staleLoop (xs : List StaleJob) :
    (staleLoop xs).hand.map Token.job = xs.map StaleJob.id := by
  rw [hand_staleLoop, List.map_map]
  rfl

theorem Reaper.map_job_staleLoop (xs : List StaleJob) :
    (staleLoop xs).hand.map Token.job = xs.map StaleJob.id := by
  rw [hand_staleLoop, List.map_map]
  rfl

theorem Reaper.map_job_retryLoop (xs : List DueRetry) :
    (retryLoop xs).hand.map Token.job = xs.map DueRetry.id := by
  rw [hand_retryLoop, List.map_map]
  rfl

namespace Proc
variable {p : Proc} {op : Op Proc}

@[simp] theorem holds_signal : p.signal.holds j = p.holds j := by rw [holds, hand_signal, holds]

@[simp] theorem holds_toProc (r : Request) : r.toProc.holds j = 0 := by
  rw [holds, Request.hand_toProc]
  rfl

theorem holds_worker (w : Worker) : (worker w).holds j = (w.pc.hand.map Token.job).count j := rfl

theorem holds_submit (pc : Submit.Pc) : (submit pc).holds j = (pc.hand.map Token.job).count j := rfl

theorem holds_replay (pc : Replay.Pc) : (replay pc).holds j = (pc.hand.map Token.job).count j := rfl

theorem holds_scheduler (x : Scheduler) : (scheduler x).holds j = (x.pc.hand.map Token.job).count j := rfl

theorem holds_reaper (x : Reaper) : (reaper x).holds j = (x.pc.hand.map Token.job).count j := rfl

end Proc

/-- A process whose call returns has what it had and what it gets, but for what it has put away or tried to
lock. -/
def Keeps (j : Uuid) (p : Proc) (op : Op Proc) : Prop := ∀ x : op.call.Ret,
  (op.resume (.ok x)).holds j + indicator (op.call.token?.map Token.job = some j) =
    p.holds j + ((op.call.fresh x).count j + (op.call.popped x).count j)

section
variable {op : Op Proc}

theorem Worker.keeps (p : Worker) (hop : (Proc.worker p).next env pid = some op) :
    Keeps j (.worker p) op := by
  intro x
  obtain ⟨pc, running, _⟩ := p
  cases pc
  case poll qs =>
    cases qs <;> cases hop <;> rcases x with _ | x <;>
      simp [Proc.holds_worker, Pc.hand, Op.map, at', Token.job, Call.token?, Call.fresh, Call.popped]
  case loop =>
    cases hop
    cases running <;> rfl
  case fetchAndLock i =>
    cases hop
    rcases x with _ | job <;>
      simp [Proc.holds_worker, Pc.hand, Op.map, at', Token.job, Call.token?, Call.fresh, Call.popped,
        indicator, List.count_singleton]
  case handler job =>
    cases hop
    rcases x with (e | _) | v
    · exact congrArg (fun hand => (hand.map Token.job).count j) (hand_onFailure job e)
    · rfl
    · rfl
  case emitSuccess job =>
    cases hop
    exact congrArg (fun hand => (hand.map Token.job).count j) (hand_afterSuccess job)
  case computeNextRun | computeRetry =>
    cases hop
    rcases x with _ | t <;> rfl
  case stopped => cases hop
  all_goals
    cases hop
    simp [Proc.holds_worker, Pc.hand, Op.map, at', count, Token.job, Call.token?, Call.fresh, Call.popped,
      indicator, List.count_singleton]

theorem Submit.keeps (pc : Pc) (hop : (Proc.submit pc).next env pid = some op) :
    Keeps j (.submit pc) op := by
  intro x
  obtain ⟨_, hnext, rfl⟩ := Option.map_eq_some_iff.mp hop
  cases does_of_next hnext with
  | check => rcases x with _ | t <;> rfl
  | @create req =>
    rcases hs : req.scheduledFor with _ | t <;>
      simp [Proc.holds_submit, Pc.hand, Op.map, JobCreateRequest.token, hs, Token.job, Call.token?, Call.fresh,
        Call.popped]
  | push hs | schedule hs =>
    simp [Proc.holds_submit, Pc.hand, Op.map, JobCreateRequest.token, hs, Token.job, Call.token?, Call.fresh,
      Call.popped, indicator, List.count_singleton]
  | uncheck | emit => rfl

theorem Replay.keeps (pc : Pc) (hop : (Proc.replay pc).next env pid = some op) :
    Keeps j (.replay pc) op := by
  intro x
  cases pc with
  | select =>
    cases hop
    rcases x with _ | d <;> rfl
  | write =>
    cases hop
    simp [Proc.holds_replay, Pc.hand, Op.map, Token.job, Call.token?, Call.fresh, Call.popped]
  | push =>
    cases hop
    simp [Proc.holds_replay, Pc.hand, Op.map, Token.job, Call.token?, Call.fresh, Call.popped, indicator,
      List.count_singleton]
  | finished => cases hop

theorem Scheduler.keeps (p : Scheduler) (hop : (Proc.scheduler p).next env pid = some op) :
    Keeps j (.scheduler p) op := by
  intro x
  obtain ⟨pc, running, last⟩ := p
  cases pc
  case loop =>
    cases hop
    cases running <;> rfl
  case monotonic =>
    cases hop
    simp only [Op.map]
    split_ifs <;> rfl
  case syncSelect =>
    cases hop
    exact (congrArg (List.count j) (map_job_syncLoop x)).trans (Nat.zero_add _).symm
  case retries =>
    cases hop
    exact (congrArg (List.count j) (map_job_retryLoop x)).trans (Nat.zero_add _).symm
  case stale =>
    cases hop
    exact (congrArg (List.count j) (map_job_staleLoop x)).trans (Nat.zero_add _).symm
  case stopped => cases hop
  all_goals
    cases hop
    simp only [Proc.holds_scheduler, Op.map, at', map_job_syncLoop, map_job_retryLoop, map_job_staleLoop]
    simp [Pc.hand, ScheduledJob.token, DueRetry.token, StaleJob.token, Function.comp_def, Token.job,
      Call.token?, Call.fresh, Call.popped, indicator, List.count_cons]

theorem Reaper.keeps (p : Reaper) (hop : (Proc.reaper p).next env pid = some op) :
    Keeps j (.reaper p) op := by
  intro x
  obtain ⟨v, b, pc, running⟩ := p
  cases pc
  case loop =>
    cases hop
    cases running <;> rfl
  case stale =>
    cases hop
    exact (congrArg (List.count j) (map_job_staleLoop x)).trans (Nat.zero_add _).symm
  case retries =>
    cases hop
    exact (congrArg (List.count j) (map_job_retryLoop x)).trans (Nat.zero_add _).symm
  case stopped => cases hop
  all_goals
    cases hop
    simp only [Proc.holds_reaper, Op.map, at', map_job_retryLoop, map_job_staleLoop]
    simp [Pc.hand, Function.comp_def, Token.job, Call.token?, Call.fresh, Call.popped, indicator,
      List.count_cons]

theorem keeps_of_next {p : Proc} (hop : p.next env pid = some op) : Keeps j p op := by
  cases p with
  | worker p => exact p.keeps hop
  | submit pc => exact Submit.keeps pc hop
  | cancel pc =>
    intro x
    cases pc with
    | finished => cases hop
    | select | update =>
      cases hop
      rcases x with _ | record <;> rfl
    | lrem | zrem | emit =>
      cases hop
      rfl
  | replay pc => exact Replay.keeps pc hop
  | scheduler p => exact p.keeps hop
  | reaper p => exact p.keeps hop
  | gone => cases hop

end

/-! The ids that Postgres hands out. -/

namespace Call

theorem count_fresh_reclaimStaleJobs {n : Nat} {x : List StaleJob}
    (h : run env ch st (.reclaimStaleJobs n) = some (st', x)) :
    (x.map StaleJob.id).count j = if (st.db.job? j).any (st.db.stale st.clock n) then 1 else 0 := by
  cases h
  rw [((Table.perm_inOrder _ _).map _).count_eq]
  exact (congrArg (List.count j) List.map_map).trans (Table.count_select _ _ _)

theorem count_fresh_reclaimDueRetryJobs {x : List DueRetry}
    (h : run env ch st .reclaimDueRetryJobs = some (st', x)) :
    (x.map DueRetry.id).count j = if (st.db.job? j).any (·.dueRetry st.clock) then 1 else 0 := by
  cases h
  rw [((Table.perm_inOrder _ _).map _).count_eq]
  exact (congrArg (List.count j) List.map_map).trans (Table.count_select _ _ _)

theorem mem_fresh_of_pending {x : c.Ret} (h : c.run env ch st = some (st', x))
    (hs : st.db.status? j ≠ some .pending) (hs' : st'.db.status? j = some .pending) : j ∈ c.fresh x := by
  obtain ⟨r', hr', hpending⟩ := Option.map_eq_some_iff.mp hs'
  cases hr : st.db.job? j with
  | none =>
    obtain ⟨hi, rfl⟩ := run_job?_none h hr hr'
    cases c with
    | createJob new | scheduleNextOccurrence new =>
      obtain ⟨_, hrow⟩ := row_of_inserted h
      exact List.mem_singleton.mpr (by rw [hrow]; rfl)
    | _ => cases hi
  | some r =>
    have hne : r.status ≠ .pending := by
      rintro hr₀
      rw [Database.status?_of_job? hr, hr₀] at hs
      exact hs rfl
    have hw : c.Writes st r r' := by
      rw [run_job? h hr] at hr'
      exact Option.some.inj hr' ▸ writes_rewrite c
    have hid := Database.id_of_job? hr
    subst hid
    cases hw with
    | kept => exact absurd hpending hne
    | release n hstale =>
      apply List.count_pos_iff.mp
      rw [fresh, count_fresh_reclaimStaleJobs h, hr, Option.any_some, if_pos hstale]
      exact Nat.one_pos
    | promote hdue =>
      apply List.count_pos_iff.mp
      rw [fresh, count_fresh_reclaimDueRetryJobs h, hr, Option.any_some, if_pos hdue]
      exact Nat.one_pos
    | reset d => exact List.mem_singleton_self _
    | _ => cases hpending

theorem not_pending_of_locked {x : c.Ret} (h : c.run env ch st = some (st', x)) (hl : c.locked? = some j) :
    st'.db.status? j ≠ some .pending := by
  intro hs'
  by_cases hs : st.db.status? j = some .pending
  · obtain ⟨r, hr, hpending⟩ := Option.map_eq_some_iff.mp hs
    have hr' := run_job? h hr
    rw [Database.status?, hr'] at hs'
    cases c <;> cases hl
    have hid := Database.id_of_job? hr
    simp [rewrite, update?, hid, Job.claimable, hpending, Job.lock, Job.touch] at hs'
  · have hmem := mem_fresh_of_pending h hs hs'
    cases c <;> cases hl
    cases hmem

end Call

/-- The copies of `j`: in the queues and in the hands of all processes. -/
def State.tokens (j : Uuid) (s : State) : Nat := s.store.redis.copies j + tally (Proc.holds j) s.procs

theorem Proc.holds_pos {p : Proc} : 0 < p.holds j ↔ ∃ x ∈ p.hand, x.job = j := by
  rw [holds, List.count_pos_iff, List.mem_map]

theorem Redis.copies_pos {r : Redis} : 0 < r.copies j ↔ (∃ q, j ∈ r.lists q) ∨ j ∈ r.scheduled.members := by
  have hordered (q : Queue) : q ∈ Queue.ordered := by cases q <;> decide
  rw [copies, Nat.add_pos_iff_pos_or_pos, tally_pos, List.count_pos_iff]
  refine or_congr_left ⟨fun ⟨q, _, hq⟩ => ⟨q, List.count_pos_iff.mp hq⟩, fun ⟨q, hq⟩ => ?_⟩
  exact ⟨q, hordered q, List.count_pos_iff.mpr hq⟩

theorem Call.indicator_token (c : Call) : indicator (c.token?.map Token.job = some j) =
    indicator (c.put? = some j) + indicator (c.locked? = some j) := by
  cases c <;> simp [token?, put?, locked?, Token.job]

/-- Where every call returns, a call brings the copies that it reads from Postgres, a lock attempt uses one
up, and one is lost in a member of the scheduled set that is added again. -/
inductive Trades (env : Env) (j : Uuid) (s s' : State) : Action → Prop
  | quiet {a : Action} : Quiet env s a s' → s'.tokens j = s.tokens j → Trades env j s s' a
  | crashed {pid : Nat} {p : Proc} : s.procs[pid]? = some p → s'.store = s.store →
      s'.tokens j + p.holds j = s.tokens j → Trades env j s s' (.crash pid)
  | ran {pid : Nat} {ch : Choice} {p : Proc} {op : Op Proc} {x : op.call.Ret} : s.procs[pid]? = some p →
      p.next env pid = some op → op.call.run env ch s.store = some (s'.store, x) →
      (op.call.removes = false → s'.tokens j + indicator (op.call.locked? = some j) +
          indicator (op.call.zadded? = some j ∧ j ∈ s.store.redis.scheduled.members) =
        s.tokens j + (op.call.fresh x).count j) → Trades env j s s' (.run pid ch)

theorem trades_of_step (hf : NoFault a) (h : step env s a = some s') : Trades env j s s' a := by
  cases shifts_of_step (f := Proc.holds j) rfl (fun _ => Proc.holds_signal) Proc.holds_toProc h with
  | quiet hq htally =>
    refine .quiet hq ?_
    rw [State.tokens, hq.redis, htally, State.tokens]
  | crashed hp hst htally =>
    refine .crashed hp hst ?_
    rw [State.tokens, hst, State.tokens]
    omega
  | ran hp hop he htally =>
    -- what the queues and the hands exchange cancels out
    obtain ⟨x, hx, rfl⟩ := he.of_no_fault hf
    refine .ran hp hop hx fun hr => ?_
    have hqueues := Call.copies_of_run (j := j) hx hr
    have hhands := keeps_of_next (j := j) hop x
    rw [Call.indicator_token] at hhands
    simp only [State.tokens]
    omega

/-! Without cancel requests nothing is removed. -/

def NoCancels (s : State) : Prop := ∀ (i : Nat) (pc : Cancel.Pc), s.procs[i]? ≠ some (.cancel pc)

theorem noCancels_step (hI : NoCancels s) (hc : NoCancel a) (h : step env s a = some s') :
    NoCancels s' := by
  intro i pc hp'
  cases became_of_step h hp' with
  | kept hp => exact hI i pc hp
  | spawned r hr =>
    cases r with
    | cancel => exact hc
    | _ => cases hr
  | signalled p hp hr =>
    cases p <;> cases hr
    exact hI i pc hp
  | crashed hr => cases hr
  | ran hp hop he =>
    cases Proc.goes_of_next hop he with
    | @cancel pc => exact hI i pc hp

theorem NoCancels.removes (hI : NoCancels s) {p : Proc} {op : Op Proc} (hp : s.procs[pid]? = some p)
    (hop : p.next env pid = some op) : op.call.removes = false := by
  cases hr : op.call.removes with
  | false => rfl
  | true =>
    have hm := Proc.makes_of_next hop
    generalize op.call = c at hm hr
    cases hm with
    | other hplain =>
      obtain ⟨pc, rfl⟩ := hplain.remove hr
      exact absurd hp (hI pid pc)
    | _ => cases hr

theorem NoCancels.removes_call? (hI : NoCancels s) : ∀ x ∈ s.call? env a, x.2.removes = false := by
  rintro ⟨pid, c⟩ hx
  obtain ⟨ch, p, op, hp, ⟨_, hop⟩ | ⟨_, hop⟩, rfl⟩ := call?_eq_some hx
  · exact hI.removes hp hop
  · obtain ⟨n, rfl⟩ := heartbeat_eq_some hop
    rfl

end DistribuQ
