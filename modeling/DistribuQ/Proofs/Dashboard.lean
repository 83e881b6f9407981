import DistribuQ.Library.Flow
import DistribuQ.Library.Matching
import DistribuQ.Model.Dashboard

/-! What a page of the dashboard shows of all that it has heard. -/

namespace DistribuQ
open Transition

/-- The item that a message adds to the feed. -/
def Envelope.item? : Envelope → Option FeedItem
  | ⟨t, .event (.jobSubmitted j type priority scheduledFor)⟩ =>
    some ⟨t, "SUBMITTED", .jobSubmitted j type priority scheduledFor⟩
  | ⟨t, .event (.jobStatusChanged j type status workerId)⟩ =>
    some ⟨t, status.text, .jobStatusChanged j type status workerId⟩
  | ⟨t, .event (.workerDead workerId)⟩ => some ⟨t, "DEAD", .workerDead workerId⟩
  | _ => none

/-- The status that a message announces. -/
def Envelope.status? : Envelope → Option JobStatus
  | ⟨_, .event (.jobStatusChanged _ _ status _)⟩ => some status
  | _ => none

def Envelope.submits : Envelope → Bool
  | ⟨_, .event (.jobSubmitted ..)⟩ => true
  | _ => false

/-- The counts that replace those of the cards. -/
def Envelope.counts? : Envelope → Option (JobStatus → Nat)
  | ⟨_, .statsSnapshot counts _⟩ => some counts
  | _ => none

/-- The worker that a heartbeat is of. -/
def Envelope.beat? : Envelope → Option WorkerId
  | ⟨_, .workerHeartbeat data⟩ => some data.id
  | _ => none

def Envelope.ofJob (e : Envelope) : Bool := e.submits || e.status?.isSome

@[simp] theorem Bucket.success_add (b : Bucket) (x : JobStatus) :
    (b.add x).success = b.success + indicator (x = .success) := by
  cases x <;> rfl

@[simp] theorem Bucket.failed_add (b : Bucket) (x : JobStatus) :
    (b.add x).failed = b.failed + indicator (x = .failed ∨ x = .deadLetter) := by
  cases x <;> rfl

namespace Dashboard
variable {s s' : Dashboard} {a : Action} {e : Envelope} {w : WorkerId} {tr tr₁ tr₂ : List (Dashboard × Action)}
  {x : JobStatus}

/-! What does not concern the workers. -/

/-- `s'` is `s` but for the workers and the requests. -/
def Beside (s s' : Dashboard) : Prop := ∃ workers workerList workerCountBadge fetching,
  s' = { s with workers, workerList, workerCountBadge, fetching }

theorem Beside.refl (s : Dashboard) : Beside s s := ⟨_, _, _, _, rfl⟩

theorem Beside.trans {s'' : Dashboard} (h : Beside s s') (h' : Beside s' s'') : Beside s s'' := by
  obtain ⟨_, _, _, _, rfl⟩ := h
  obtain ⟨_, _, _, _, rfl⟩ := h'
  exact ⟨_, _, _, _, rfl⟩

theorem beside_renderWorkersList (s : Dashboard) (l : List WorkerCard) : Beside s (s.renderWorkersList l) :=
  ⟨_, _, _, _, rfl⟩

theorem beside_fetch (s : Dashboard) (f : Fetch) : Beside s (s.fetch f) := ⟨_, _, _, _, rfl⟩

theorem beside_setWorker (s : Dashboard) (v : WorkerCard) : Beside s (s.setWorker v) := by
  unfold setWorker
  split_ifs <;> exact ⟨_, _, _, _, rfl⟩

theorem beside_updateWorkerState (s : Dashboard) (v : WorkerCard) : Beside s (s.updateWorkerState v) :=
  (beside_setWorker s v).trans (beside_renderWorkersList _ _)

theorem beside_foldl_setWorker (s : Dashboard) (l : List WorkerCard) : Beside s (l.foldl setWorker s) := by
  induction l generalizing s with
  | nil => exact .refl s
  | cons v l ih => exact (beside_setWorker s v).trans (ih _)

theorem beside_markWorkerDeadState (s : Dashboard) (w : WorkerId) : Beside s (s.markWorkerDeadState w) := by
  unfold markWorkerDeadState
  split_ifs
  · exact .refl s
  · exact ⟨_, _, _, _, rfl⟩

/-- What one message does to the feed, the chart, the timeout and the cards. -/
structure Hears (s : Dashboard) (e : Envelope) (s' : Dashboard) : Prop where
  eventFeed : s'.eventFeed = e.item?.elim s.eventFeed fun item => (item :: s.eventFeed).take maxItems
  chartBuckets : s'.chartBuckets = s.chartBuckets
  currentBucket : s'.currentBucket = e.status?.elim s.currentBucket s.currentBucket.add
  timeout : s'.refreshJobsTimeout = (s.refreshJobsTimeout || e.ofJob)
  counts : s'.counts = e.counts?.getD
    (if e.submits then Function.update s.counts .pending (s.counts .pending + 1) else s.counts)

theorem hears_handleIncomingEvent (s : Dashboard) (e : Envelope) : Hears s e (s.handleIncomingEvent e) := by
  obtain ⟨t, m⟩ := e
  cases m with
  | event ev =>
    cases ev with
    | jobStatusChanged => exact ⟨rfl, rfl, rfl, (Bool.or_true _).symm, rfl⟩
    | jobSubmitted =>
      refine ⟨rfl, rfl, rfl, ?_, rfl⟩
      simp [handleIncomingEvent, throttledRefreshJobs, Envelope.ofJob, Envelope.submits]
    | workerDead w =>
      obtain ⟨_, _, _, _, hs⟩ := beside_markWorkerDeadState s w
      simp only [handleIncomingEvent, hs]
      exact ⟨rfl, rfl, rfl, by simp [addEventFeedItem, fetch, Envelope.ofJob, Envelope.submits,
        Envelope.status?], rfl⟩
  | statsSnapshot | unhandled =>
    exact ⟨rfl, rfl, rfl, by simp [handleIncomingEvent, updateStatsCards, Envelope.ofJob,
      Envelope.submits, Envelope.status?], rfl⟩
  | workerHeartbeat v =>
    obtain ⟨_, _, _, _, hs⟩ := beside_updateWorkerState s v
    simp only [handleIncomingEvent, hs]
    exact ⟨rfl, rfl, rfl, by simp [Envelope.ofJob, Envelope.submits, Envelope.status?], rfl⟩

/-! Over a run. -/

/-- The messages that pass a test. -/
def Action.hears (P : Envelope → Bool) : Action → Nat
  | .message (some e) => indicator (P e = true)
  | _ => 0

def heard (P : Envelope → Bool) (tr : List (Dashboard × Action)) : Nat := total (fun _ a => a.hears P) tr

/-- What the feed shows without its limit. -/
def Action.post (items : List FeedItem) : Action → List FeedItem
  | .message (some e) => e.item?.toList ++ items
  | .clearFeed => []
  | _ => items

def posted (tr : List (Dashboard × Action)) : List FeedItem := tr.foldl (fun items x => x.2.post items) []

/-- The bucket that a tick puts on the chart. -/
def closes (s : Dashboard) : Action → List Bucket
  | .chartTick => [s.currentBucket]
  | _ => []

/-- The counts that replace those of the cards. -/
def Action.counts? : Action → Option (JobStatus → Nat)
  | .message (some e) => e.counts?
  | .answered (.stats jobCounts _ _) => some jobCounts
  | _ => none

/-- An action that leaves the feed, the chart, the timeout and the cards as they are. -/
def Action.quiet : Action → Bool
  | .message none | .opened | .answered (.failed _) | .answered (.workers _) | .answered .jobs | .refreshClicked
  | .poll => true
  | _ => false

inductive Moves (s s' : Dashboard) : Action → Prop
  | heard {e : Envelope} : Hears s e s' → Moves s s' (.message (some e))
  | counted (jobCounts : JobStatus → Nat) (activeWorkers : Nat) (workers : List WorkerCard) :
      Beside { s with counts := jobCounts } s' → Moves s s' (.answered (.stats jobCounts activeWorkers workers))
  | fired : s.refreshJobsTimeout = true → Beside { s with refreshJobsTimeout := false } s' →
      Moves s s' .refreshJobs
  | ticked : s' = s.pushBucket → Moves s s' .chartTick
  | cleared : s' = { s with eventFeed := [] } → Moves s s' .clearFeed
  | quiet {a : Action} : a.quiet = true → Beside s s' → Moves s s' a

theorem moves_of_step (h : s.step a = some s') : Moves s s' a := by
  cases a with
  | message envelope =>
    cases h
    cases envelope with
    | none => exact .quiet rfl (.refl s)
    | some e => exact .heard (hears_handleIncomingEvent s e)
  | opened =>
    cases h
    exact .quiet rfl (((beside_fetch _ _).trans (beside_fetch _ _)).trans (beside_fetch _ _))
  | answered a =>
    simp only [step] at h
    split_ifs at h
    cases h
    have hfetching : Beside s { s with fetching := s.fetching.erase a.fetch } := ⟨_, _, _, _, rfl⟩
    cases a with
    | failed | jobs => exact .quiet rfl hfetching
    | stats jobCounts n workers => exact .counted jobCounts n workers ⟨_, _, _, _, rfl⟩
    | workers list =>
      exact .quiet rfl ((hfetching.trans (beside_foldl_setWorker _ list)).trans (beside_renderWorkersList _ _))
  | refreshJobs =>
    simp only [step] at h
    split_ifs at h with ht
    cases h
    exact .fired ht (beside_fetch _ _)
  | refreshClicked =>
    cases h
    exact .quiet rfl (beside_fetch _ _)
  | poll =>
    cases h
    exact .quiet rfl ((beside_fetch _ _).trans (beside_fetch _ _))
  | chartTick =>
    cases h
    exact .ticked rfl
  | clearFeed =>
    cases h
    exact .cleared rfl

/-! The feed. -/

theorem post_of_quiet (items : List FeedItem) (ha : a.quiet = true) : a.post items = items := by
  cases a with
  | message envelope => cases envelope <;> first | rfl | cases ha
  | _ => first | rfl | cases ha

theorem eventFeed_step (h : s.step a = some s') (hlen : s.eventFeed.length ≤ maxItems) :
    s'.eventFeed = (a.post s.eventFeed).take maxItems := by
  have hall : s.eventFeed = s.eventFeed.take maxItems := (List.take_of_length_le hlen).symm
  cases moves_of_step h with
  | @heard e hears =>
    rw [hears.eventFeed, Action.post]
    cases e.item? with
    | none => exact hall
    | some item => rfl
  | counted _ _ _ hbeside | fired _ hbeside =>
    obtain ⟨_, _, _, _, rfl⟩ := hbeside
    exact hall
  | ticked hs | cleared hs =>
    subst hs
    first | exact hall | rfl
  | quiet hquiet hbeside =>
    obtain ⟨_, _, _, _, rfl⟩ := hbeside
    rw [post_of_quiet _ hquiet]
    exact hall

/-- The limit lets go of the oldest items only. -/
theorem take_post (items : List FeedItem) (a : Action) :
    (a.post (items.take maxItems)).take maxItems = (a.post items).take maxItems := by
  cases a with
  | message envelope =>
    cases envelope with
    | none => simp [Action.post]
    | some e =>
      cases h : e.item? with
      | none => simp [Action.post, h]
      | some item => simp [Action.post, h, maxItems, List.take_take]
  | _ => simp [Action.post]

theorem eventFeed_of_run (h : Run (fun _ _ => True) step init tr s) :
    s.eventFeed = (posted tr).take maxItems := by
  refine h.invariant_trace (I := fun tr s => s.eventFeed = (posted tr).take maxItems) rfl ?_
  intro tr s a s' _ hI _ hs
  have hlen : s.eventFeed.length ≤ maxItems := by
    rw [hI]
    exact List.length_take_le _ _
  rw [eventFeed_step hs hlen, hI, take_post, posted, posted, List.foldl_append]
  rfl

/-! The chart. -/

section
variable {f : Bucket → Nat} {P : JobStatus → Bool}

theorem hears_of_quiet (P : Envelope → Bool) (ha : a.quiet = true) : a.hears P = 0 := by
  cases a with
  | message envelope => cases envelope <;> first | rfl | cases ha
  | _ => rfl

/-- What a bucket counts is what is heard while it is the current one. -/
theorem bucket_step (hzero : f ⟨0, 0⟩ = 0) (hadd : ∀ b x, f (b.add x) = f b + indicator (P x = true))
    (h : s.step a = some s') :
    f s'.currentBucket + tally f (closes s a) = f s.currentBucket + a.hears fun e => e.status?.any P := by
  cases moves_of_step h with
  | @heard e hears =>
    rw [hears.currentBucket, Action.hears]
    cases e.status? with
    | none => rfl
    | some x => exact hadd _ _
  | counted _ _ _ hbeside | fired _ hbeside =>
    obtain ⟨_, _, _, _, rfl⟩ := hbeside
    rfl
  | ticked hs =>
    subst hs
    simp only [pushBucket, closes, tally_cons, tally_nil, hzero]
    exact Nat.add_comm _ _
  | cleared hs =>
    subst hs
    rfl
  | quiet hquiet hbeside =>
    obtain ⟨_, _, _, _, rfl⟩ := hbeside
    rw [hears_of_quiet _ hquiet]
    cases a <;> first | rfl | cases hquiet

theorem bucket_of_run {ok : Dashboard → Action → Prop} (hzero : f ⟨0, 0⟩ = 0)
    (hadd : ∀ b x, f (b.add x) = f b + indicator (P x = true)) (h : Run ok step s tr s') :
    tally f (flow closes tr) + f s'.currentBucket = f s.currentBucket + heard
      (fun e => e.status?.any P) tr := by
  rw [tally_flow, Nat.add_comm]
  exact h.balance (f := fun s => f s.currentBucket) fun _ _ _ _ hs => bucket_step hzero hadd hs

end

/-! The job table. -/

/-- A request for the table of jobs ends. -/
def Action.returns : Action → Bool
  | .answered a => a.fetch = .jobs
  | _ => false

/-- A heartbeat of worker `w`, or an answer that lists it. -/
def Action.lists (w : WorkerId) : Action → Prop
  | .message (some e) => e.beat? = some w
  | .answered (.stats _ _ list) | .answered (.workers list) => ∃ v ∈ list, v.id = w
  | _ => False

end Dashboard
end DistribuQ
