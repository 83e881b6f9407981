import DistribuQ.Model.EventFeed
import DistribuQ.Proofs.Broadcast
import DistribuQ.Library.Eventually

/-! What a socket is sent over a whole run of `redis_subscriber_loop`. -/

namespace DistribuQ
open Transition

def PubSubMessage.data? : PubSubMessage → Option String
  | .subscribe => none
  | .message data => some data

namespace ConnectionManager
variable {C : Type} [DecidableEq C] {s : ConnectionManager C} {message : String} {dead : Finset C} {c : C}

/-- What the broadcast that is going on has still to send to `c`. -/
def owed (s : ConnectionManager C) (c : C) : List String :=
  match s.broadcast with
  | .sending message ws rest _ => if c ∈ ws :: rest then [message] else []
  | _ => []

/-- `c` is registered, and will be after the broadcast that is going on. -/
def Attached (s : ConnectionManager C) (c : C) : Prop :=
  c ∈ s.connections ∧ ∀ message ws rest dead, s.broadcast = .sending message ws rest dead → c ∉ dead

theorem owed_send (s : ConnectionManager C) (message : String) (dead : Finset C) (rest : List C) (c : C) :
    (s.send message dead rest).owed c = if c ∈ rest then [message] else [] := by
  cases rest with
  | nil => simp [send, prune, owed]
  | cons => rfl

theorem owed_of_pending (h : s.pending = []) : s.owed c = [] := by
  unfold owed
  unfold pending at h
  split <;> simp_all

theorem attached_send (s : ConnectionManager C) (message : String) (dead : Finset C) (rest : List C) (c : C) :
    (s.send message dead rest).Attached c ↔ c ∈ s.connections ∧ c ∉ dead := by
  cases rest with
  | nil =>
    rw [send, prune, Attached, Finset.mem_sdiff]
    exact ⟨And.left, fun h => ⟨h, fun _ _ _ _ hb => by cases hb⟩⟩
  | cons x rest =>
    refine and_congr_right fun _ => ⟨fun h => h message x rest dead rfl, fun h _ _ _ _ hb => ?_⟩
    cases hb
    exact h

omit [DecidableEq C] in
theorem attached_of_sending {ws : C} {rest : List C} (h : s.broadcast = .sending message ws rest dead) :
    s.Attached c ↔ c ∈ s.connections ∧ c ∉ dead := by
  refine and_congr_right fun _ => ⟨fun hdead => hdead _ _ _ _ h, fun hdead _ _ _ _ hb => ?_⟩
  rw [h] at hb
  cases hb
  exact hdead

@[simp] theorem connected_send (s : ConnectionManager C) (message : String) (dead : Finset C) (rest : List C) :
    (s.send message dead rest).connected = s.connected := by
  cases rest <;> rfl

end ConnectionManager

namespace EventFeed
variable {C : Type} [DecidableEq C] {s s' : EventFeed C} {a : Action C} {c : C}
  {tr tr' : List (EventFeed C × Action C)}

/-- The messages of the buffer, in the order in which they will be broadcast. -/
def buffered (s : EventFeed C) : List String := s.buffer.filterMap PubSubMessage.data?

/-- What is under way to `c`. -/
def line (c : C) (s : EventFeed C) : List String := s.manager.owed c ++ s.buffered

def publishes (_ : EventFeed C) : Action C → List String
  | .publish data => [data]
  | _ => []

omit [DecidableEq C] in
@[simp] theorem publishes_sent (s : EventFeed C) (raised : Bool) : publishes s (.sent raised) = [] := rfl

/-- The message that a socket has got when a send ends without raising. -/
def delivered (c : C) (s : EventFeed C) : Action C → List String
  | .sent false =>
    match s.manager.broadcast with
    | .sending message ws _ _ => if ws = c then [message] else []
    | _ => []
  | _ => []

/-- A move that does not cut off `c` and loses no message. -/
def Quiet (c : C) (s : EventFeed C) : Action C → Prop
  | .publish _ => s.subscribed = true
  | .disconnect ws => ws ≠ c
  | .lost arrived => s.buffer.length ≤ arrived
  | .sent true => ∀ message ws rest dead, s.manager.broadcast = .sending message ws rest dead → ws ≠ c
  | .raised | .cancel => False
  | _ => True

omit [DecidableEq C] in
theorem quiet_sent : s.manager.pending.head? ≠ some c ↔ Quiet c s (.sent true) := by
  unfold Quiet ConnectionManager.pending
  cases s.manager.broadcast with
  | sending message ws rest dead =>
    constructor
    · rintro hne _ _ _ _ ⟨⟩ rfl
      exact hne rfl
    · intro h heq
      exact h message ws rest dead rfl (Option.some.inj heq)
  | _ => simp

instance (c : C) (s : EventFeed C) : (a : Action C) → Decidable (Quiet c s a)
  | .publish _ => inferInstanceAs (Decidable (s.subscribed = true))
  | .disconnect ws => inferInstanceAs (Decidable (ws ≠ c))
  | .lost arrived => inferInstanceAs (Decidable (s.buffer.length ≤ arrived))
  | .sent true => decidable_of_iff _ quiet_sent
  | .raised | .cancel => inferInstanceAs (Decidable False)
  | .connect _ | .subscribe | .next _ | .sent false => inferInstanceAs (Decidable True)

/-- The subscriber's own moves, where no send to `c` raises. -/
def Serves (c : C) (s : EventFeed C) : Action C → Prop
  | .next _ => True
  | .sent raised => Quiet c s (.sent raised)
  | _ => False

/-- All that Redis has passed on is broadcast. -/
def Drained (s : EventFeed C) : Prop := s.buffer = [] ∧ s.manager.pending = []

/-- Every step of the feed, and what it finds. -/
inductive Steps (s s' : EventFeed C) : Action C → Prop
  | publish (data : String) : s.subscribed = true →
      s' = { s with buffer := s.buffer ++ [.message data] } → Steps s s' (.publish data)
  | unheard (data : String) : s.subscribed = false → s' = s → Steps s s' (.publish data)
  | connect (ws : C) : ws ∉ s.manager.connected → s' = { s with manager := s.manager.add ws } →
      Steps s s' (.connect ws)
  | disconnect (ws : C) : ws ∈ s.manager.connected → s' = { s with manager := s.manager.discard ws } →
      Steps s s' (.disconnect ws)
  | subscribe : s.subscriber = .connecting →
      s' = { s with subscriber := .listening, subscribed := true, buffer := [.subscribe] } →
      Steps s s' .subscribe
  | lost (arrived : Nat) : s' = { s with subscribed := false, buffer := s.buffer.take arrived } →
      Steps s s' (.lost arrived)
  | raised : s.subscriber ≠ .cancelled → (s.subscriber = .listening → s.manager.pending = []) →
      s' = { s with subscriber := .connecting, subscribed := false, buffer := [] } → Steps s s' .raised
  | confirmed (order : List C) (rest : List PubSubMessage) : s.subscriber = .listening →
      s.manager.pending = [] → s.buffer = .subscribe :: rest → s' = { s with buffer := rest } →
      Steps s s' (.next order)
  | unwatched (order : List C) (data : String) (rest : List PubSubMessage) : s.subscriber = .listening →
      s.manager.pending = [] → s.buffer = .message data :: rest → s.manager.connections = ∅ →
      s' = { s with buffer := rest } → Steps s s' (.next order)
  | broadcast (order : List C) (data : String) (rest : List PubSubMessage) : s.subscriber = .listening →
      s.manager.pending = [] → s.buffer = .message data :: rest → order.Nodup →
      order.toFinset = s.manager.connections →
      s' = { s with manager := s.manager.rest.send data ∅ order, buffer := rest } → Steps s s' (.next order)
  | sent (message : String) (ws : C) (rest : List C) (dead : Finset C) (raised : Bool) :
      s.manager.broadcast = .sending message ws rest dead →
      s' = { s with manager := s.manager.send message (if raised then insert ws dead else dead) rest } →
      Steps s s' (.sent raised)
  | cancel : s.subscriber ≠ .cancelled →
      s' = { manager := s.manager.abandon, subscriber := .cancelled, subscribed := false, buffer := [] } →
      Steps s s' .cancel

theorem steps_of_next {order : List C} (h : s.step (.next order) = some s') : Steps s s' (.next order) := by
  simp only [step] at h
  split at h
  · cases h
  · rename_i rest hlistening hbuffer hnot
    have hpending : s.manager.pending = [] := by
      unfold ConnectionManager.pending
      split
      · rename_i hsending
        exact absurd hsending (hnot _ _ _ _)
      · rfl
    exact .confirmed order rest hlistening hpending hbuffer (Option.some.inj h).symm
  · rename_i data rest hlistening hbuffer hnot
    have hpending : s.manager.pending = [] := by
      unfold ConnectionManager.pending
      split
      · rename_i hsending
        exact absurd hsending (hnot _ _ _ _)
      · rfl
    split_ifs at h with hcount
    · obtain ⟨m, hm, hs⟩ := Option.map_eq_some_iff.mp h
      cases ConnectionManager.steps_of_step hm with
      | start _ _ _ hnodup horder hm =>
        subst hm
        exact .broadcast order data rest hlistening hpending hbuffer hnodup horder hs.symm
    · have hempty : s.manager.connections = ∅ := Finset.card_eq_zero.mp (Nat.eq_zero_of_not_pos hcount)
      exact .unwatched order data rest hlistening hpending hbuffer hempty (Option.some.inj h).symm
  · cases h

theorem steps_of_step (h : s.step a = some s') : Steps s s' a := by
  cases a with
  | publish data =>
    simp only [step] at h
    split_ifs at h with hs
    · exact .publish data hs (Option.some.inj h).symm
    · exact .unheard data (Bool.eq_false_of_not_eq_true hs) (Option.some.inj h).symm
  | connect ws =>
    obtain ⟨m, hm, hs⟩ := Option.map_eq_some_iff.mp h
    cases ConnectionManager.steps_of_step hm with
    | connect _ hws hm => exact .connect ws hws (hm ▸ hs.symm)
  | disconnect ws =>
    obtain ⟨m, hm, hs⟩ := Option.map_eq_some_iff.mp h
    cases ConnectionManager.steps_of_step hm with
    | disconnect _ hws hm => exact .disconnect ws hws (hm ▸ hs.symm)
  | subscribe =>
    simp only [step] at h
    split at h
    · exact .subscribe ‹_› (Option.some.inj h).symm
    · cases h
  | lost arrived => exact .lost arrived (Option.some.inj h).symm
  | raised =>
    simp only [step] at h
    split at h
    · cases h
    · cases h
    · rename_i hcancelled hsending
      refine .raised ?_ ?_ (Option.some.inj h).symm
      · exact hcancelled
      · intro hl
        unfold ConnectionManager.pending
        split
        · rename_i hb
          exact absurd hb (hsending _ _ _ _ hl)
        · rfl
  | next order => exact steps_of_next h
  | sent raised =>
    obtain ⟨m, hm, hs⟩ := Option.map_eq_some_iff.mp h
    cases ConnectionManager.steps_of_step hm with
    | sent message ws rest dead _ hsending hm => exact .sent message ws rest dead raised hsending (hm ▸ hs.symm)
  | cancel =>
    simp only [step] at h
    split at h
    · cases h
    · exact .cancel ‹_› (Option.some.inj h).symm

/-- A broadcast goes on only where the subscriber listens, and sends to no socket twice. -/
structure Sound (s : EventFeed C) : Prop where
  nodup : s.manager.pending.Nodup
  listening : s.subscriber ≠ .listening → s.manager.pending = []

omit [DecidableEq C] in
theorem sound_init : (init C).Sound := ⟨List.nodup_nil, fun _ => rfl⟩

omit [DecidableEq C] in
theorem Sound.subscriber_of_sending {message : String} {ws : C} {rest : List C} {dead : Finset C} (hI : s.Sound)
    (h : s.manager.broadcast = .sending message ws rest dead) : s.subscriber = .listening := by
  by_contra hne
  have hpending := hI.listening hne
  rw [ConnectionManager.pending, h] at hpending
  cases hpending

theorem sound_step (hI : s.Sound) (h : s.step a = some s') : s'.Sound := by
  cases steps_of_step h with
  | publish data _ hs | unheard data _ hs | connect ws _ hs | disconnect ws _ hs | lost arrived hs
  | confirmed order rest _ _ _ hs | unwatched order data rest _ _ _ _ hs =>
    subst hs
    exact ⟨hI.nodup, hI.listening⟩
  | subscribe hsub hs =>
    subst hs
    exact ⟨hI.nodup, fun hne => absurd rfl hne⟩
  | raised hsub hpending hs =>
    subst hs
    refine ⟨hI.nodup, fun _ => ?_⟩
    by_cases hl : s.subscriber = .listening
    · exact hpending hl
    · exact hI.listening hl
  | broadcast order data rest hl _ _ hnodup _ hs =>
    subst hs
    refine ⟨?_, fun hne => absurd hl hne⟩
    rw [ConnectionManager.pending_send]
    exact hnodup
  | sent message ws rest dead raised hsending hs =>
    subst hs
    have hnodup := hI.nodup
    rw [ConnectionManager.pending, hsending] at hnodup
    refine ⟨?_, fun hne => absurd (hI.subscriber_of_sending hsending) hne⟩
    rw [ConnectionManager.pending_send]
    exact (List.nodup_cons.mp hnodup).2
  | cancel _ hs =>
    subst hs
    exact ⟨List.nodup_nil, fun _ => rfl⟩

variable {message : String} {ws : C} {rest : List C} {dead : Finset C}

/-- A send takes its socket out of the order. -/
theorem owed_of_sending (hI : s.Sound) (h : s.manager.broadcast = .sending message ws rest dead)
    (dead' : Finset C) :
    s.manager.owed c = (if ws = c then [message] else []) ++ (s.manager.send message dead' rest).owed c := by
  have hnodup := hI.nodup
  rw [ConnectionManager.pending, h] at hnodup
  rw [ConnectionManager.owed_send, ConnectionManager.owed, h]
  by_cases hws : ws = c
  · -- the rest of the order does not have it again
    subst hws
    have hrest : ws ∉ rest := (List.nodup_cons.mp hnodup).1
    simp [hrest]
  · have hmem : c ∈ ws :: rest ↔ c ∈ rest := by simp [Ne.symm hws]
    simp [hws, hmem]

theorem delivered_sent (h : s.manager.broadcast = .sending message ws rest dead) (raised : Bool) :
    delivered c s (.sent raised) = if raised = false ∧ ws = c then [message] else [] := by
  cases raised <;> simp [delivered, h]

/-- Whatever happens, what is delivered to a socket leaves its line in front, and only a publication joins it. -/
theorem line_step (hI : s.Sound) (h : s.step a = some s') :
    (delivered c s a ++ line c s').Sublist (line c s ++ publishes s a) := by
  cases steps_of_step h with
  | publish data _ hs =>
    subst hs
    simp [delivered, line, buffered, publishes, PubSubMessage.data?]
  | unheard data _ hs =>
    subst hs
    simp [delivered, line]
  | connect ws _ hs | disconnect ws _ hs =>
    subst hs
    exact (List.append_nil (line c s)).symm ▸ List.Sublist.refl _
  | subscribe hsub hs =>
    subst hs
    simp [delivered, line, buffered, publishes, PubSubMessage.data?]
  | lost arrived hs =>
    subst hs
    have htake := (s.buffer.take_sublist arrived).filterMap PubSubMessage.data?
    simpa [delivered, line, buffered, publishes] using htake
  | raised _ _ hs =>
    subst hs
    simp [delivered, line, buffered, publishes]
  | confirmed order rest _ _ hbuffer hs =>
    have hsame : s.buffered = s'.buffered := by
      subst hs
      rw [buffered, hbuffer]
      rfl
    subst hs
    rw [line, line, hsame]
    simp [delivered, publishes]
  | unwatched order data rest _ _ hbuffer _ hs =>
    have hnext : s.buffered = data :: s'.buffered := by
      subst hs
      rw [buffered, hbuffer]
      rfl
    subst hs
    rw [line, line, hnext]
    simp [delivered, publishes]
  | broadcast order data rest _ hpending hbuffer _ _ hs =>
    have hnext : s.buffered = data :: s'.buffered := by
      subst hs
      rw [buffered, hbuffer]
      rfl
    subst hs
    rw [line, line, ConnectionManager.owed_of_pending hpending, ConnectionManager.owed_send, hnext]
    split_ifs <;> simp [delivered, publishes]
  | sent message ws rest dead raised hsending hs =>
    subst hs
    rw [line, line, delivered_sent hsending,
      owed_of_sending hI hsending (if raised then insert ws dead else dead),
      publishes_sent, List.append_nil, ← List.append_assoc]
    have hown : (if raised = false ∧ ws = c then [message] else []).Sublist
        (if ws = c then [message] else []) := by
      split_ifs <;> simp_all
    exact (hown.append_right _).append_right _
  | cancel _ hs =>
    subst hs
    simp [delivered, line, buffered, publishes, ConnectionManager.abandon, ConnectionManager.owed]

/-- The subscriber listens, and `c` is registered. -/
structure Tuned (c : C) (s : EventFeed C) : Prop where
  sound : s.Sound
  listening : s.subscriber = .listening
  attached : s.manager.Attached c

/-- As long as nothing cuts `c` off, its line is a queue. -/
theorem line_step_quiet (hI : Tuned c s) (ha : Quiet c s a) (h : s.step a = some s') :
    Tuned c s' ∧ delivered c s a ++ line c s' = line c s ++ publishes s a := by
  have hsound := sound_step hI.sound h
  cases steps_of_step h with
  | publish data _ hs =>
    subst hs
    refine ⟨⟨hsound, hI.listening, hI.attached⟩, ?_⟩
    simp [delivered, line, buffered, publishes, PubSubMessage.data?]
  | unheard data hnot hs => exact absurd ha (Bool.eq_false_iff.mp hnot)
  | connect ws _ hs =>
    subst hs
    have hmem : c ∈ (s.manager.add ws).connections := Finset.mem_insert_of_mem hI.attached.1
    exact ⟨⟨hsound, hI.listening, hmem, hI.attached.2⟩, (List.append_nil _).symm⟩
  | disconnect ws _ hs =>
    subst hs
    have hmem : c ∈ (s.manager.discard ws).connections := Finset.mem_erase.mpr ⟨Ne.symm ha, hI.attached.1⟩
    exact ⟨⟨hsound, hI.listening, hmem, hI.attached.2⟩, (List.append_nil _).symm⟩
  | subscribe hsub hs =>
    rw [hI.listening] at hsub
    cases hsub
  | lost arrived hs =>
    subst hs
    refine ⟨⟨hsound, hI.listening, hI.attached⟩, ?_⟩
    simp [delivered, line, buffered, publishes, List.take_of_length_le ha]
  | raised | cancel => exact ha.elim
  | confirmed order rest _ _ hbuffer hs =>
    have hsame : s.buffered = s'.buffered := by
      subst hs
      rw [buffered, hbuffer]
      rfl
    subst hs
    refine ⟨⟨hsound, hI.listening, hI.attached⟩, ?_⟩
    rw [line, line, hsame]
    simp [delivered, publishes]
  | unwatched order data rest _ _ _ hempty hs =>
    have hmem := hI.attached.1
    rw [hempty] at hmem
    exact absurd hmem (Finset.notMem_empty c)
  | broadcast order data rest _ hpending hbuffer _ horder hs =>
    have hnext : s.buffered = data :: s'.buffered := by
      subst hs
      rw [buffered, hbuffer]
      rfl
    have hmem : c ∈ order := List.mem_toFinset.mp (horder ▸ hI.attached.1)
    subst hs
    refine ⟨⟨hsound, hI.listening, ?_⟩, ?_⟩
    · exact (ConnectionManager.attached_send _ _ _ _ _).mpr ⟨hI.attached.1, Finset.notMem_empty c⟩
    · rw [line, line, ConnectionManager.owed_of_pending hpending, ConnectionManager.owed_send,
        hnext, if_pos hmem]
      simp [delivered, publishes]
  | sent message ws rest dead raised hsending hs =>
    have hown : raised = true → ws ≠ c := by
      rintro rfl
      exact ha _ _ _ _ hsending
    have hdead : c ∉ (if raised then insert ws dead else dead) := by
      have hnot := hI.attached.2 _ _ _ _ hsending
      split_ifs with hraised
      · simpa [hnot] using Ne.symm (hown hraised)
      · exact hnot
    subst hs
    refine ⟨⟨hsound, hI.listening, ?_⟩, ?_⟩
    · exact (ConnectionManager.attached_send _ _ _ _ _).mpr ⟨hI.attached.1, hdead⟩
    · have hsent : delivered c s (.sent raised) = if ws = c then [message] else [] := by
        rw [delivered_sent hsending]
        cases raised with
        | false => simp
        | true => simp [hown rfl]
      rw [line, line, hsent, owed_of_sending hI.sound hsending (if raised then insert ws dead else dead),
        publishes_sent, List.append_nil, ← List.append_assoc]
      rfl

/-- `c` has been connected, and no later broadcast sends to it. -/
structure Parted (c : C) (s : EventFeed C) : Prop where
  sound : s.Sound
  connected : c ∈ s.manager.connected
  parted : s.subscriber = .cancelled ∨ ¬ s.manager.Attached c

theorem parted_step (hI : Parted c s) (h : s.step a = some s') :
    Parted c s' ∧ (delivered c s a ++ s'.manager.owed c).Sublist (s.manager.owed c) := by
  have hsound := sound_step hI.sound h
  cases steps_of_step h with
  | publish data _ hs | unheard data _ hs | lost arrived hs | confirmed order rest _ _ _ hs
  | unwatched order data rest _ _ _ _ hs =>
    subst hs
    exact ⟨⟨hsound, hI.connected, hI.parted⟩, List.Sublist.refl _⟩
  | connect ws hws hs =>
    subst hs
    refine ⟨⟨hsound, Finset.mem_insert_of_mem hI.connected, hI.parted.imp_right fun hnot hatt => hnot ?_⟩,
      List.Sublist.refl _⟩
    -- a socket that has been connected is not the one that connects now
    have hne : c ≠ ws := fun he => hws (he ▸ hI.connected)
    exact ⟨Finset.mem_of_mem_insert_of_ne hatt.1 hne, hatt.2⟩
  | disconnect ws _ hs =>
    subst hs
    refine ⟨⟨hsound, hI.connected, hI.parted.imp_right fun hnot hatt => hnot ?_⟩, List.Sublist.refl _⟩
    exact ⟨Finset.mem_of_mem_erase hatt.1, hatt.2⟩
  | subscribe hsub hs =>
    subst hs
    refine ⟨⟨hsound, hI.connected, .inr ?_⟩, List.Sublist.refl _⟩
    rcases hI.parted with hcancelled | hnot
    · rw [hcancelled] at hsub
      cases hsub
    · exact hnot
  | raised hsub _ hs =>
    subst hs
    exact ⟨⟨hsound, hI.connected, .inr (hI.parted.resolve_left hsub)⟩, List.Sublist.refl _⟩
  | broadcast order data rest hl hpending hbuffer _ horder hs =>
    have hnot := hI.parted.resolve_left fun hc => by simp [hl] at hc
    have hmem : c ∉ s.manager.connections := by
      refine fun hmem => hnot ⟨hmem, fun m ws rest dead hsending => ?_⟩
      rw [ConnectionManager.pending, hsending] at hpending
      cases hpending
    have horder' : c ∉ order := fun ho => hmem (horder ▸ List.mem_toFinset.mpr ho)
    subst hs
    refine ⟨⟨hsound, ?_, .inr ?_⟩, ?_⟩
    · rw [ConnectionManager.connected_send]
      exact hI.connected
    · rw [ConnectionManager.attached_send]
      exact fun hatt => hmem hatt.1
    · rw [ConnectionManager.owed_send, if_neg horder']
      exact List.nil_sublist _
  | sent message ws rest dead raised hsending hs =>
    have hl := hI.sound.subscriber_of_sending hsending
    have hnot := hI.parted.resolve_left fun hc => by simp [hl] at hc
    rw [ConnectionManager.attached_of_sending hsending] at hnot
    subst hs
    refine ⟨⟨hsound, ?_, .inr ?_⟩, ?_⟩
    · rw [ConnectionManager.connected_send]
      exact hI.connected
    · rw [ConnectionManager.attached_send]
      -- one whose send has raised before stays in `dead`
      refine fun hatt => hnot ⟨hatt.1, fun hd => hatt.2 ?_⟩
      split_ifs
      · exact Finset.mem_insert_of_mem hd
      · exact hd
    · rw [delivered_sent hsending, owed_of_sending hI.sound hsending]
      refine List.Sublist.append_right ?_ _
      split_ifs <;> simp_all
  | cancel _ hs =>
    subst hs
    exact ⟨⟨hsound, hI.connected, .inl rfl⟩, by simp [delivered, ConnectionManager.abandon,
      ConnectionManager.owed]⟩

omit [DecidableEq C] in
theorem quiet_of_serves (h : Serves c s a) : Quiet c s a := by
  cases a with
  | next order => trivial
  | sent raised => exact h
  | _ => exact h.elim

omit [DecidableEq C] in
theorem publishes_of_serves (h : Serves c s a) : publishes s a = [] := by
  cases a with
  | publish data => exact h.elim
  | _ => rfl

/-- A subscriber that listens can always go on. -/
theorem exists_serves (hl : s.subscriber = .listening) (hnot : ¬ s.Drained) (c : C) :
    ∃ a s', Serves c s a ∧ s.step a = some s' := by
  cases hb : s.manager.broadcast with
  | sending message ws rest dead =>
    refine ⟨.sent false, { s with manager := s.manager.send message dead rest }, trivial, ?_⟩
    simp [step, ConnectionManager.step, hb]
  | idle | finished =>
    have hpending : s.manager.pending = [] := by rw [ConnectionManager.pending, hb]
    cases hbuffer : s.buffer with
    | nil => exact absurd ⟨hbuffer, hpending⟩ hnot
    | cons x buffer =>
      refine ⟨.next s.manager.connections.toList, ?_⟩
      cases x with
      | subscribe => exact ⟨{ s with buffer := buffer }, trivial, by simp [step, hl, hb, hbuffer]⟩
      | message data =>
        by_cases hcount : 0 < s.manager.count
        · let manager := s.manager.rest.send data ∅ s.manager.connections.toList
          refine ⟨{ s with manager, buffer }, trivial, ?_⟩
          simp [manager, step, hl, hb, hbuffer, hcount, ConnectionManager.step, ConnectionManager.rest,
            Finset.nodup_toList]
        · exact ⟨{ s with buffer := buffer }, trivial, by simp [step, hl, hb, hbuffer, hcount]⟩

/-- A message that is taken up makes the buffer shorter, and a send the broadcast. -/
theorem serves_decreases (ha : Serves c s a) (h : s.step a = some s') :
    Prod.Lex (· < ·) (· < ·) (s'.buffer.length, s'.manager.pending.length)
      (s.buffer.length, s.manager.pending.length) := by
  cases steps_of_step h with
  | confirmed order rest _ _ hbuffer hs | unwatched order data rest _ _ hbuffer _ hs
  | broadcast order data rest _ _ hbuffer _ _ hs =>
    subst hs
    refine .left _ _ ?_
    simp [hbuffer]
  | sent message ws rest dead raised hsending hs =>
    subst hs
    refine .right _ ?_
    rw [ConnectionManager.pending_send, ConnectionManager.pending, hsending]
    simp
  | _ => exact ha.elim

/-- What the sockets of the dashboards are sent in any run, whatever connections break. -/
structure FeedLaw (C : Type) [DecidableEq C] : Prop where
  /-- A socket gets messages in the order of their publication, and none twice. -/
  ordered {s : EventFeed C} {tr : List (EventFeed C × Action C)} (c : C) :
    Run (fun _ _ => True) step (init C) tr s → (flow (delivered c) tr).Sublist (flow publishes tr)
  /-- While nothing cuts it off, it gets all that was under way and all that is published. -/
  complete {s s' : EventFeed C} {tr : List (EventFeed C × Action C)} {c : C} :
    Reachable (fun _ _ => True) step (init C) s → s.subscriber = .listening → s.manager.Attached c →
    Run (Quiet c) step s tr s' → flow (delivered c) tr ++ line c s' = line c s ++ flow publishes tr
  /-- Once it has left, or a send to it has raised, it gets what the broadcast still owes it at most. -/
  parted {s s' : EventFeed C} {tr : List (EventFeed C × Action C)} {c : C} :
    Reachable (fun _ _ => True) step (init C) s → c ∈ s.manager.connected → ¬ s.manager.Attached c →
    Run (fun _ _ => True) step s tr s' → (flow (delivered c) tr).Sublist (s.manager.owed c)
  /-- A subscriber that listens comes to the end of its buffer, and all of it is delivered. -/
  drained {s : EventFeed C} {c : C} : Reachable (fun _ _ => True) step (init C) s → s.subscriber = .listening →
    s.manager.Attached c →
    Eventually Drained (Serves c) step s fun tr s' => s'.Drained ∧ flow (delivered c) tr = line c s

theorem sound_of_reachable (h : Reachable (fun _ _ => True) step (init C) s) : s.Sound :=
  h.invariant sound_init fun _ _ _ hI _ hs => sound_step hI hs

theorem line_of_drained (h : s.Drained) : line c s = [] := by
  rw [line, ConnectionManager.owed_of_pending h.2, buffered, h.1]
  rfl

theorem Tuned.drained (hI : Tuned c s) :
    Eventually Drained (Serves c) step s fun tr s' => s'.Drained ∧ flow (delivered c) tr = line c s := by
  have hwf : WellFounded (Prod.Lex (· < · : Nat → Nat → Prop) (· < · : Nat → Nat → Prop)) :=
    WellFounded.prod_lex wellFounded_lt wellFounded_lt
  have hvariant : Eventually Drained (Serves c) step s fun tr s' =>
      s'.Drained ∧ Tuned c s' ∧ flow (delivered c) tr ++ line c s' = line c s := by
    refine Eventually.of_variant hwf (fun s => (s.buffer.length, s.manager.pending.length)) ⟨hI, rfl⟩
      (fun _ s' hI hnot => exists_serves hI.1.listening hnot c) ?_
    intro tr s₁ a s₂ hI _ ha hs
    obtain ⟨htuned, hline⟩ := line_step_quiet hI.1 (quiet_of_serves ha) hs
    refine ⟨⟨htuned, ?_⟩, serves_decreases ha hs⟩
    calc flow (delivered c) (tr ++ [(s₁, a)]) ++ line c s₂
        = flow (delivered c) tr ++ (delivered c s₁ a ++ line c s₂) := by simp
      _ = flow (delivered c) tr ++ line c s₁ := by rw [hline, publishes_of_serves ha, List.append_nil]
      _ = line c s := hI.2
  refine hvariant.mono fun tr s' h => ⟨h.1, ?_⟩
  rw [← h.2.2, line_of_drained h.1, List.append_nil]

theorem feedLaw : FeedLaw C where
  ordered {s tr} c h := by
    have hsound : Run (fun s _ => s.Sound) step (init C) tr s :=
      h.strengthen sound_init (fun _ _ _ hI _ hs => sound_step hI hs) fun _ _ hI _ => hI
    have hqueue : (flow (delivered c) tr ++ line c s).Sublist (line c (init C) ++ flow publishes tr) :=
      hsound.out_sublist fun _ _ _ hI hs => line_step hI hs
    exact (List.sublist_append_left _ _).trans hqueue
  complete {s s' tr c} h hl hatt hrun := by
    have htuned : Run (fun s a => Tuned c s ∧ Quiet c s a) step s tr s' :=
      hrun.strengthen ⟨sound_of_reachable h, hl, hatt⟩ (fun _ _ _ hI ha hs => (line_step_quiet hI ha hs).1)
        fun _ _ hI ha => ⟨hI, ha⟩
    exact htuned.first_out fun _ _ _ hI hs => (line_step_quiet hI.1 hI.2 hs).2
  parted {s s' tr c} h hc hnot hrun := by
    have hparted : Run (fun s _ => Parted c s) step s tr s' :=
      hrun.strengthen ⟨sound_of_reachable h, hc, .inr hnot⟩ (fun _ _ _ hI _ hs => (parted_step hI hs).1)
        fun _ _ hI _ => hI
    let none (_ : EventFeed C) (_ : Action C) : List String := []
    have hstep (s : EventFeed C) (a : Action C) (s' : EventFeed C) (hI : Parted c s) (hs : s.step a = some s') :
        (delivered c s a ++ s'.manager.owed c).Sublist (s.manager.owed c ++ none s a) := by
      rw [List.append_nil]
      exact (parted_step hI hs).2
    have hqueue : (flow (delivered c) tr ++ s'.manager.owed c).Sublist (s.manager.owed c ++ flow none tr) :=
      hparted.out_sublist hstep
    have hnone : flow none tr = [] := by simp [flow, none]
    rw [hnone, List.append_nil] at hqueue
    exact (List.sublist_append_left _ _).trans hqueue
  drained h hl hatt := Tuned.drained ⟨sound_of_reachable h, hl, hatt⟩

/-- Socket 0 is connected, and the subscriber has subscribed. -/
def listening : EventFeed ℕ := ⟨(ConnectionManager.init ℕ).add 0, .listening, true, []⟩

theorem reachable_listening : Reachable (fun _ _ => True) step (init ℕ) listening := by
  let actions : List (Action ℕ) := [.connect 0, .subscribe, .next []]
  have hexec : exec (fun _ _ => True) step (init ℕ) actions = some listening := rfl
  exact reachable_exec hexec

theorem feedLaw_published : ∃ tr s, Run (Quiet 0) step listening tr s ∧ flow (delivered 0) tr = ["up"] ∧
    s.Drained := by
  let actions : List (Action ℕ) := [.publish "up", .next [0], .sent false]
  obtain ⟨tr, s, hrun, hpublished, hdrained⟩ : ∃ tr s, Run (Quiet 0) step listening tr s ∧
      flow publishes tr = ["up"] ∧ s.Drained :=
    ⟨_, _, run_get actions rfl, rfl, rfl, rfl⟩
  have hcomplete := feedLaw.complete reachable_listening rfl ⟨by decide, fun _ _ _ _ h => by cases h⟩ hrun
  rw [line_of_drained hdrained, hpublished, List.append_nil] at hcomplete
  exact ⟨tr, s, hrun, hcomplete, hdrained⟩

end EventFeed
end DistribuQ
