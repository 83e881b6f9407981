import DistribuQ.Proofs.Monitoring

/-! From a row of `jobs` to the page: what a page shows of the jobs, through the channel and the socket. -/

namespace DistribuQ
open Transition
variable {C : Type} [DecidableEq C] {env : Env} {parse : String → Option Envelope} {c : C} {s : State}
  {f : EventFeed C} {p : Dashboard} {ftr : List (EventFeed C × EventFeed.Action C)}
  {ptr : List (Dashboard × Dashboard.Action)}

def Envelope.event? : Envelope → Option Event
  | ⟨_, .event e⟩ => some e
  | _ => none

theorem Envelope.item?_event (e : Envelope) : e.item?.map FeedItem.event = e.event? := by
  obtain ⟨t, m⟩ := e
  cases m with
  | event ev => cases ev <;> rfl
  | _ => rfl

/-- What a text says of a job or of a worker, with `parse` for what `JSON.parse` and the page make of it. -/
def eventOf (parse : String → Option Envelope) (data : String) : Option Event :=
  (parse data).bind Envelope.event?

/-- The job whose success a worker announces. -/
def Event.success? : Event → Option Uuid
  | jobStatusChanged j _ .success (some _) => some j
  | _ => none

theorem Event.succeeds_iff (e : Event) (j : Uuid) : e.succeeds j = true ↔ e.success? = some j := by
  cases e with
  | jobStatusChanged k type status w => cases status <;> cases w <;> simp [succeeds, success?]
  | _ => simp [succeeds, success?]

/-- A cancel request is answered with a job that had succeeded. -/
def Event.echoes : Event → Bool
  | jobStatusChanged _ _ .success none => true
  | _ => false

def Event.ofSuccess : Event → Bool
  | jobStatusChanged _ _ .success _ => true
  | _ => false

theorem countP_ofSuccess (es : List Event) :
    es.countP Event.ofSuccess = (es.filterMap Event.success?).length + es.countP Event.echoes := by
  induction es with
  | nil => rfl
  | cons e es ih =>
    rw [List.countP_cons, List.countP_cons, List.filterMap_cons, ih]
    cases e with
    | jobStatusChanged j type status w =>
      cases status <;> cases w <;> simp [Event.ofSuccess, Event.success?, Event.echoes] <;> omega
    | _ => simp [Event.ofSuccess, Event.success?, Event.echoes]

namespace Dashboard

/-- The calls of `onmessage`. -/
def messages (_ : Dashboard) : Action → List (Option Envelope)
  | .message e => [e]
  | _ => []

theorem heard_eq (P : Envelope → Bool) (tr : List (Dashboard × Action)) :
    heard P tr = (flow messages tr).countP fun m => m.any P := by
  induction tr with
  | nil => rfl
  | cons x tr ih =>
    obtain ⟨s, a⟩ := x
    have hsplit : heard P ((s, a) :: tr) = a.hears P + heard P tr := rfl
    rw [hsplit, ih, flow_cons, List.countP_append]
    congr 1
    cases a with
    | message e =>
      cases e with
      | none => rfl
      | some e => simp [messages, Action.hears, List.countP_cons, indicator]
    | _ => rfl

/-- The events of some messages. -/
def eventsOf (ms : List (Option Envelope)) : List Event := ms.filterMap fun m => m.bind Envelope.event?

theorem posted_sublist (tr : List (Dashboard × Action)) :
    ((posted tr).reverse.map FeedItem.event).Sublist (eventsOf (flow messages tr)) := by
  induction tr using List.reverseRecOn with
  | nil => exact List.Sublist.refl _
  | append_singleton tr x ih =>
    obtain ⟨s, a⟩ := x
    have hposted : posted (tr ++ [(s, a)]) = a.post (posted tr) := by
      rw [posted, List.foldl_append]
      rfl
    have hsplit : eventsOf (flow messages (tr ++ [(s, a)])) =
        eventsOf (flow messages tr) ++ eventsOf (messages s a) := by
      rw [flow_append, eventsOf, List.filterMap_append, flow_cons, flow_nil, List.append_nil]
      rfl
    rw [hposted, hsplit]
    cases a with
    | message e =>
      cases e with
      | none => exact ih.trans (List.sublist_append_left _ _)
      | some e =>
        rw [Action.post, List.reverse_append, List.map_append]
        have hevents : (e.item?.toList.reverse.map FeedItem.event) = eventsOf [some e] := by
          have hevent := e.item?_event
          cases hitem : e.item? <;> rw [hitem] at hevent <;> simp [eventsOf, ← hevent]
        exact ih.append (hevents ▸ List.Sublist.refl _)
    | clearFeed => exact List.nil_sublist _
    | _ => exact ih.trans (List.sublist_append_left _ _)

theorem heard_success (tr : List (Dashboard × Action)) :
    heard (fun e => e.status?.any (· = .success)) tr =
      (eventsOf (flow messages tr)).countP Event.ofSuccess := by
  rw [heard_eq, eventsOf, List.countP_filterMap]
  refine List.countP_congr fun m _ => ?_
  cases m with
  | none => rfl
  | some e =>
    obtain ⟨t, m⟩ := e
    cases m with
    | event ev =>
      cases ev with
      | jobStatusChanged j type status w => cases status <;> exact Iff.rfl
      | _ => exact Iff.rfl
    | _ => exact Iff.rfl

end Dashboard

/-- The page `p`, after the actions of `ptr`, has heard through its socket `c` texts of the channel; those of them that
are about jobs and workers are events of the service, which is at `s`. -/
structure Views (env : Env) (parse : String → Option Envelope) (c : C) (s : State)
    (ptr : List (Dashboard × Dashboard.Action)) (p : Dashboard) : Prop where
  service : ∃ t, Reachable (Fenced env) (step env) (.init t) s
  page : Run (fun _ _ => True) Dashboard.step Dashboard.init ptr p
  channel : ∃ f ftr, ∃ texts : List String, Run (fun _ _ => True) EventFeed.step (EventFeed.init C) ftr f ∧
    ((flow EventFeed.publishes ftr).filterMap (eventOf parse)).Sublist s.store.redis.events ∧
    texts.Sublist (flow (EventFeed.delivered c) ftr) ∧ flow Dashboard.messages ptr = texts.map parse

/-- The events that a page has heard are among those of the service, in their order. -/
theorem Views.events (h : Views env parse c s ptr p) :
    (Dashboard.eventsOf (flow Dashboard.messages ptr)).Sublist s.store.redis.events := by
  obtain ⟨f, ftr, texts, hfeed, hpublished, hsub, heq⟩ := h.channel
  have hsound : Run (fun s _ => s.Sound) EventFeed.step (EventFeed.init C) ftr f :=
    hfeed.strengthen EventFeed.sound_init (fun _ _ _ hI _ hs => EventFeed.sound_step hI hs) fun _ _ hI _ => hI
  have hqueue : (flow (EventFeed.delivered c) ftr ++ EventFeed.line c f).Sublist
      (EventFeed.line c (EventFeed.init C) ++ flow EventFeed.publishes ftr) :=
    hsound.out_sublist fun _ _ _ hI hs => EventFeed.line_step hI hs
  have hordered := (List.sublist_append_left _ _).trans hqueue
  have htexts : (texts.filterMap (eventOf parse)).Sublist s.store.redis.events :=
    ((hsub.trans hordered).filterMap _).trans hpublished
  rw [heq, Dashboard.eventsOf, List.filterMap_map]
  exact htexts

/-- Each job is announced once to have succeeded, and has. -/
theorem length_successes_le {t : Nat} (h : Reachable (Fenced env) (step env) (.init t) s) :
    (s.store.redis.events.filterMap Event.success?).length ≤ s.store.db.getJobCounts .success := by
  have hcount (j : Uuid) : (s.store.redis.events.filterMap Event.success?).count j ≤
      indicator (s.store.db.status? j = some .success) := by
    have hle := (Nat.le_add_right _ _).trans (heralds_of_reachable h j)
    refine le_trans (le_of_eq ?_) hle
    rw [List.count_filterMap]
    exact List.countP_congr fun e _ => by rw [Event.succeeds_iff, beq_iff_eq]
  have hnodup : (s.store.redis.events.filterMap Event.success?).Nodup :=
    List.nodup_iff_count_le_one.mpr fun j => (hcount j).trans indicator_le_one
  have hsub : (s.store.redis.events.filterMap Event.success?) ⊆
      (s.store.db.jobs.select fun r => r.status = .success).map Job.id := by
    intro j hj
    have hpos := (List.count_pos_iff.mpr hj).trans_le (hcount j)
    have hs : s.store.db.status? j = some .success := by
      by_contra hne
      rw [indicator_neg hne] at hpos
      cases hpos
    obtain ⟨r, hr, hs⟩ := Option.map_eq_some_iff.mp hs
    obtain ⟨hmem, hid⟩ := (Table.find?_eq_some _).mp hr
    exact List.mem_map.mpr ⟨r, List.mem_filter.mpr ⟨hmem, decide_eq_true hs⟩, hid⟩
  have hlen := (List.subperm_of_subset hnodup hsub).length_le
  rw [List.length_map] at hlen
  rw [Job.getJobCounts_eq, List.countP_eq_length_filter]
  exact hlen

/-- What a page shows of the service is so. -/
structure ViewLaw (s : State) (ptr : List (Dashboard × Dashboard.Action)) (p : Dashboard) : Prop where
  /-- All buckets of the chart together count no more successes than there are jobs that have succeeded, but for
  the cancel requests that came after a success. -/
  chart : tally Bucket.success (flow Dashboard.closes ptr) + p.currentBucket.success ≤
    s.store.db.getJobCounts .success + s.store.redis.events.countP Event.echoes
  /-- An item of the feed is true: a submitted job has its row, a success is one, a dead worker sends no heartbeat. -/
  feed : ∀ item ∈ p.eventFeed, item.event.Holds s.store.db ∧ ∀ w, item.event = .workerDead w → s.Silent w
  /-- The feed has no success twice. -/
  once : ∀ j, p.eventFeed.countP (fun item => item.event.succeeds j) ≤
    indicator (s.store.db.status? j = some .success)

theorem viewLaw (h : Views env parse c s ptr p) : ViewLaw s ptr p := by
  obtain ⟨t, hservice⟩ := h.service
  have hsub := (Dashboard.posted_sublist ptr).trans h.events
  refine ⟨?_, fun item hitem => ?_, fun j => ?_⟩
  · have hbuckets := Dashboard.bucket_of_run (f := Bucket.success)
      (P := (· = .success)) rfl (fun b x => by simp) h.page
    rw [Dashboard.heard_success] at hbuckets
    have hle := h.events.countP_le (p := Event.ofSuccess)
    have hsuccesses := length_successes_le hservice
    have hinit : Dashboard.init.currentBucket.success = 0 := rfl
    rw [countP_ofSuccess s.store.redis.events] at hle
    omega
  · rw [Dashboard.eventFeed_of_run h.page] at hitem
    have hposted : item.event ∈ (Dashboard.posted ptr).reverse.map FeedItem.event :=
      List.mem_map_of_mem (List.mem_reverse.mpr (List.mem_of_mem_take hitem))
    have hmem := hsub.subset hposted
    refine ⟨(told_of_reachable hservice).events _ hmem, fun w hw => ?_⟩
    rw [hw] at hmem
    exact silent_of_reachable hservice hmem
  · have hle := hsub.countP_le (p := (·.succeeds j))
    rw [List.countP_map, List.countP_reverse] at hle
    rw [Dashboard.eventFeed_of_run h.page]
    have htake := (List.take_sublist 60 (Dashboard.posted ptr)).countP_le
        (p := fun item => item.event.succeeds j)
    have hheralds := (Nat.le_add_right _ _).trans (heralds_of_reachable hservice j)
    exact htake.trans (hle.trans hheralds)

/-! Job 7 succeeds, and a page hears of it. -/

/-- The text of an envelope about the job. -/
def textOf (event data : String) : String :=
  "\x7b\"event\": \"" ++ event ++ "\", \"timestamp\": \"1970-01-01T00:00:00+00:00\", \"data\": \x7b" ++
    "\"job_id\": \"00000000-0000-0000-0000-000000000007\", \"type\": \"report\", " ++ data ++ "\x7d\x7d"

def submittedText : String := textOf "job.submitted" "\"priority\": 0"

def runningText : String := textOf "job.status_changed" "\"status\": \"RUNNING\", \"worker_id\": \"worker-1\""

def successText : String := textOf "job.status_changed" "\"status\": \"SUCCESS\", \"worker_id\": \"worker-1\""

def parseTexts (data : String) : Option Envelope :=
  if data = submittedText then some ⟨0, .event (.jobSubmitted 7 "report" 0 none)⟩
  else if data = runningText then some ⟨0, .event (.jobStatusChanged 7 "report" .running (some 1))⟩
  else if data = successText then some ⟨0, .event (.jobStatusChanged 7 "report" .success (some 1))⟩
  else none

def texts : List String := [submittedText, runningText, successText]

/-- One socket, to which all is sent. -/
def sending : List (EventFeed.Action Unit) :=
  [.connect (), .subscribe] ++ texts.map .publish ++ [.next []] ++ texts.flatMap fun _ =>
    [.next [()], .sent false]

def hearing : List Dashboard.Action := texts.map fun data => .message (parseTexts data)

theorem viewLaw_success : ∃ s ptr p, p.currentBucket.success = 1 ∧ ViewLaw s ptr p := by
  obtain ⟨s, h, hs⟩ : ∃ s, Reachable (Fenced minutely) (step minutely) (.init 0) s ∧ _ :=
    exists_reachable_of_exec (taken report ++ calls 1 3)
      (fun s => s.store.redis.events = (texts.filterMap (eventOf parseTexts))) (by decide +kernel)
  have hevents := of_decide_eq_true hs
  obtain ⟨ftr, f, hfeed, hsent⟩ : ∃ ftr f, Run (fun _ _ => True) EventFeed.step
      (EventFeed.init Unit) ftr f ∧ _ :=
    exists_run_of_exec sending
      (fun ftr _ => flow EventFeed.publishes ftr = texts ∧
          flow (EventFeed.delivered ()) ftr = texts) (by decide +kernel)
  obtain ⟨hpublished, hdelivered⟩ := of_decide_eq_true hsent
  have hview : ∃ ptr p, p.currentBucket.success = 1 ∧ Views minutely parseTexts () s ptr p := by
    refine ⟨_, _, ?_, ⟨⟨0, h⟩, run_get hearing rfl, f, ftr, texts, hfeed, ?_, ?_, rfl⟩⟩
    · decide +kernel
    · rw [hpublished, ← hevents]
    · rw [hdelivered]
  obtain ⟨ptr, p, hp, hview⟩ := hview
  exact ⟨s, ptr, p, hp, viewLaw hview⟩

end DistribuQ
