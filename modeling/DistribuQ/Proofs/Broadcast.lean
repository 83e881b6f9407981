import DistribuQ.Model.ConnectionManager
import DistribuQ.Library.Flow

/-! One `broadcast` while sockets connect and disconnect. -/

namespace DistribuQ
namespace ConnectionManager
open Transition
variable {C : Type} [DecidableEq C] {s s₀ s₁ s' : ConnectionManager C} {a : Action C} {c : C} {message : String}
  {order : List C} {tr : List (ConnectionManager C × Action C)}

/-- The send that ends in a step: its message, its socket and whether it has raised. -/
def sends (s : ConnectionManager C) : Action C → List (String × C × Bool)
  | .sent raised =>
    match s.broadcast with
    | .sending message ws _ _ => [(message, ws, raised)]
    | _ => []
  | _ => []

/-- The sockets that `broadcast` has still to send to. -/
def pending (s : ConnectionManager C) : List C :=
  match s.broadcast with
  | .sending _ ws rest _ => ws :: rest
  | _ => []

def Connects (tr : List (ConnectionManager C × Action C)) (c : C) : Prop := ∃ x ∈ tr, x.2 = .connect c

def Disconnects (tr : List (ConnectionManager C × Action C)) (c : C) : Prop := ∃ x ∈ tr, x.2 = .disconnect c

/-- The send to `c` has raised. -/
def Raises (tr : List (ConnectionManager C × Action C)) (c : C) : Prop := ∃ m, (m, c, true) ∈ flow sends tr

omit [DecidableEq C] in
theorem connects_append : Connects (tr ++ [(s, a)]) c ↔ Connects tr c ∨ a = .connect c := by
  simp [Connects, or_and_right, exists_or]

omit [DecidableEq C] in
theorem disconnects_append : Disconnects (tr ++ [(s, a)]) c ↔ Disconnects tr c ∨ a = .disconnect c := by
  simp [Disconnects, or_and_right, exists_or]

omit [DecidableEq C] in
theorem raises_append : Raises (tr ++ [(s, a)]) c ↔ Raises tr c ∨ ∃ m, (m, c, true) ∈ s.sends a := by
  simp [Raises, exists_or]

@[simp] theorem connections_send (s : ConnectionManager C) (dead : Finset C) (ws : C) (rest : List C) :
    (s.send message dead (ws :: rest)).connections = s.connections := rfl

@[simp] theorem pending_send (s : ConnectionManager C) (dead : Finset C) (rest : List C) :
    (s.send message dead rest).pending = rest := by
  cases rest <;> rfl

/-- Every step of a broadcast, in one of four ways. -/
inductive Steps (s s' : ConnectionManager C) : Action C → Prop
  | connect (ws : C) : ws ∉ s.connected → s' = s.add ws → Steps s s' (.connect ws)
  | disconnect (ws : C) : ws ∈ s.connected → s' = s.discard ws → Steps s s' (.disconnect ws)
  | start (message : String) (order : List C) : s.broadcast = .idle → order.Nodup →
      order.toFinset = s.connections → s' = s.send message ∅ order → Steps s s' (.start message order)
  | sent (message : String) (ws : C) (rest : List C) (dead : Finset C) (raised : Bool) :
      s.broadcast = .sending message ws rest dead →
      s' = s.send message (if raised then insert ws dead else dead) rest → Steps s s' (.sent raised)

theorem steps_of_step (h : s.step a = some s') : Steps s s' a := by
  cases a with
  | connect ws =>
    simp only [step] at h
    split_ifs at h with hws
    exact .connect ws hws (Option.some.inj h).symm
  | disconnect ws =>
    simp only [step] at h
    split_ifs at h with hws
    exact .disconnect ws hws (Option.some.inj h).symm
  | start message order =>
    simp only [step] at h
    split at h
    · rename_i hidle
      split_ifs at h with horder
      exact .start message order hidle horder.1 horder.2 (Option.some.inj h).symm
    · cases h
  | sent raised =>
    simp only [step] at h
    split at h
    · rename_i message ws rest dead hsending
      exact .sent message ws rest dead raised hsending (Option.some.inj h).symm
    · cases h

/-- A broadcast that has begun stays with its message and does not begin again. -/
def Begun (message : String) (s : ConnectionManager C) : Prop :=
  match s.broadcast with
  | .idle => False
  | .sending m _ _ _ => m = message
  | .finished => True

theorem begun_send (s : ConnectionManager C) (dead : Finset C) (rest : List C) :
    (s.send message dead rest).Begun message := by
  cases rest with
  | nil => exact trivial
  | cons => exact rfl

theorem begun_step (hB : s.Begun message) (h : s.step a = some s') : s'.Begun message := by
  cases steps_of_step h with
  | connect ws _ hs | disconnect ws _ hs =>
    subst hs
    exact hB
  | start m order hidle =>
    rw [Begun, hidle] at hB
    exact hB.elim
  | sent m ws rest dead raised hsending hs =>
    rw [Begun, hsending] at hB
    subst hs hB
    exact begun_send _ _ _

/-- What has been sent to and what is pending are the sockets of the start, in their order. -/
theorem sends_of_step (hB : s.Begun message) (h : s.step a = some s') :
    (s.sends a).map (fun x => x.2.1) ++ s'.pending = s.pending := by
  cases steps_of_step h with
  | connect ws _ hs | disconnect ws _ hs =>
    subst hs
    rfl
  | start m order hidle =>
    rw [Begun, hidle] at hB
    exact hB.elim
  | sent m ws rest dead raised hsending hs =>
    subst hs
    rw [pending_send, sends, pending, hsending]
    rfl

/-- Who is registered while a broadcast to the sockets of `targets` goes on, and after it. -/
structure Registered (targets : Finset C) (tr : List (ConnectionManager C × Action C))
    (s : ConnectionManager C) : Prop where
  subset : targets ⊆ s.connected
  connects : ∀ c, Connects tr c → c ∈ s.connected
  disconnects : ∀ c, Disconnects tr c → c ∈ s.connected
  fresh : ∀ c, Connects tr c → c ∉ targets
  raises : ∀ c, Raises tr c → c ∈ targets
  pending : ∀ c ∈ s.pending, c ∈ targets
  dead : ∀ m ws rest dead, s.broadcast = .sending m ws rest dead → ∀ c, c ∈ dead ↔ Raises tr c
  mem : ∀ c, c ∈ s.connections ↔
    (c ∈ targets ∨ Connects tr c) ∧ ¬ Disconnects tr c ∧ (s.broadcast = .finished → ¬ Raises tr c)

variable {targets : Finset C}

theorem Registered.connect {ws : C} (hI : Registered targets tr s) (hws : ws ∉ s.connected) :
    Registered targets (tr ++ [(s, .connect ws)]) (s.add ws) := by
  have hsame : ∀ c, Raises (tr ++ [(s, .connect ws)]) c ↔ Raises tr c := by simp [raises_append, sends]
  refine ⟨?_, ?_, ?_, ?_, ?_, hI.pending, ?_, ?_⟩
  · exact hI.subset.trans (Finset.subset_insert _ _)
  · intro c hc
    rcases connects_append.mp hc with hc | hc
    · exact Finset.mem_insert_of_mem (hI.connects c hc)
    · cases hc
      exact Finset.mem_insert_self _ _
  · intro c hc
    rcases disconnects_append.mp hc with hc | hc
    · exact Finset.mem_insert_of_mem (hI.disconnects c hc)
    · cases hc
  · intro c hc
    rcases connects_append.mp hc with hc | hc
    · exact hI.fresh c hc
    · cases hc
      exact fun h => hws (hI.subset h)
  · exact fun c hc => hI.raises c ((hsame c).mp hc)
  · exact fun m x rest dead h c => (hI.dead m x rest dead h c).trans (hsame c).symm
  · intro c
    rw [add, Finset.mem_insert, hI.mem c, connects_append, disconnects_append, hsame]
    constructor
    · rintro (rfl | ⟨hc, hd, hr⟩)
      · -- a socket that has not been connected has not left, and nothing was sent to it
        refine ⟨.inr (.inr rfl), ?_, fun _ hr => hws (hI.subset (hI.raises c hr))⟩
        rintro (hd | hd)
        · exact hws (hI.disconnects c hd)
        · cases hd
      · refine ⟨hc.imp_right .inl, ?_, hr⟩
        rintro (hd' | hd')
        · exact hd hd'
        · cases hd'
    · rintro ⟨hc | hc | hc, hd, hr⟩
      · exact .inr ⟨.inl hc, fun h => hd (.inl h), hr⟩
      · exact .inr ⟨.inr hc, fun h => hd (.inl h), hr⟩
      · cases hc
        exact .inl rfl

theorem Registered.disconnect {ws : C} (hI : Registered targets tr s) (hws : ws ∈ s.connected) :
    Registered targets (tr ++ [(s, .disconnect ws)]) (s.discard ws) := by
  have hsame : ∀ c, Raises (tr ++ [(s, .disconnect ws)]) c ↔ Raises tr c := by simp [raises_append, sends]
  have hconnects : ∀ c, Connects (tr ++ [(s, .disconnect ws)]) c ↔ Connects tr c := by simp [connects_append]
  refine ⟨hI.subset, fun c hc => hI.connects c ((hconnects c).mp hc), ?_, ?_, ?_, hI.pending, ?_, ?_⟩
  · intro c hc
    rcases disconnects_append.mp hc with hc | hc
    · exact hI.disconnects c hc
    · cases hc
      exact hws
  · exact fun c hc => hI.fresh c ((hconnects c).mp hc)
  · exact fun c hc => hI.raises c ((hsame c).mp hc)
  · exact fun m x rest dead h c => (hI.dead m x rest dead h c).trans (hsame c).symm
  · intro c
    rw [discard, Finset.mem_erase, hI.mem c, hconnects, disconnects_append, hsame]
    constructor
    · rintro ⟨hne, hc, hd, hr⟩
      refine ⟨hc, ?_, hr⟩
      rintro (hd' | hd')
      · exact hd hd'
      · cases hd'
        exact hne rfl
    · rintro ⟨hc, hd, hr⟩
      exact ⟨fun h => hd (.inr (h ▸ rfl)), hc, fun h => hd (.inl h), hr⟩

theorem Registered.sent {m : String} {ws : C} {rest : List C} {dead : Finset C} {raised : Bool}
    (hI : Registered targets tr s) (h : s.broadcast = .sending m ws rest dead) :
    Registered targets (tr ++ [(s, .sent raised)])
      (s.send m (if raised then insert ws dead else dead) rest) := by
  have hpending : ws ∈ targets ∧ ∀ c ∈ rest, c ∈ targets := by
    have hp := hI.pending
    rw [ConnectionManager.pending, h] at hp
    exact ⟨hp ws List.mem_cons_self, fun c hc => hp c (List.mem_cons_of_mem _ hc)⟩
  have hraises : ∀ c, Raises (tr ++ [(s, .sent raised)]) c ↔ Raises tr c ∨ c = ws ∧ raised = true := by
    intro c
    rw [raises_append, sends, h]
    simp [eq_comm]
  have hdead : ∀ c, c ∈ (if raised then insert ws dead else dead) ↔ Raises (tr ++ [(s, .sent raised)]) c := by
    intro c
    rw [hraises, ← hI.dead m ws rest dead h]
    cases raised <;> simp [or_comm]
  have hconnects : ∀ c, Connects (tr ++ [(s, .sent raised)]) c ↔ Connects tr c := by simp [connects_append]
  have hdisconnects : ∀ c, Disconnects (tr ++ [(s, .sent raised)]) c ↔ Disconnects tr c := by
    simp [disconnects_append]
  have hconnected : (s.send m (if raised then insert ws dead else dead) rest).connected = s.connected := by
    cases rest <;> rfl
  refine ⟨hconnected ▸ hI.subset, ?_, ?_, ?_, ?_, ?_, ?_, ?_⟩
  · exact fun c hc => hconnected ▸ hI.connects c ((hconnects c).mp hc)
  · exact fun c hc => hconnected ▸ hI.disconnects c ((hdisconnects c).mp hc)
  · exact fun c hc => hI.fresh c ((hconnects c).mp hc)
  · intro c hc
    rcases (hraises c).mp hc with hc | ⟨rfl, _⟩
    · exact hI.raises c hc
    · exact hpending.1
  · rw [pending_send]
    exact hpending.2
  · intro m' ws' rest' dead' h'
    cases rest with
    | nil => cases h'
    | cons x rest =>
      cases h'
      exact hdead
  · intro c
    have hmem := hI.mem c
    rw [h] at hmem
    rw [hconnects, hdisconnects]
    cases rest with
    | nil =>
      rw [send, prune, Finset.mem_sdiff, hmem, hdead]
      simp [and_assoc]
    | cons x rest =>
      rw [connections_send, hmem]
      simp [send]

theorem registered_step (hB : s.Begun message) (hI : Registered targets tr s) (h : s.step a = some s') :
    Registered targets (tr ++ [(s, a)]) s' := by
  cases steps_of_step h with
  | connect ws hws hs => exact hs ▸ hI.connect hws
  | disconnect ws hws hs => exact hs ▸ hI.disconnect hws
  | start m order hidle =>
    rw [Begun, hidle] at hB
    exact hB.elim
  | sent m ws rest dead raised hsending hs => exact hs ▸ hI.sent hsending

/-- A call of `broadcast` with `message` starts in `s₀`, and the steps of `tr` lead on to `s`. -/
def Broadcasts (s₀ : ConnectionManager C) (message : String) (tr : List (ConnectionManager C × Action C))
    (s : ConnectionManager C) : Prop :=
  ∃ order s₁, s₀.step (.start message order) = some s₁ ∧ Run (fun _ _ => True) step s₁ tr s

theorem Broadcasts.begun_run (h : Broadcasts s₀ message tr s) :
    ∃ order, order.Nodup ∧ order.toFinset = s₀.connections ∧ s.Begun message ∧
      Run (fun s _ => s.Begun message) step (s₀.send message ∅ order) tr s := by
  obtain ⟨order, s₁, hstart, hrun⟩ := h
  cases steps_of_step hstart with
  | start _ _ _ hnodup horder hs =>
    subst hs
    have hbegun : (s₀.send message ∅ order).Begun message := begun_send _ _ _
    have hstep (s : ConnectionManager C) (a : Action C) (s' : ConnectionManager C) (hB : s.Begun message)
        (_ : True) (h : s.step a = some s') : s'.Begun message := begun_step hB h
    exact ⟨order, hnodup, horder, hrun.invariant hbegun hstep,
      hrun.strengthen hbegun hstep fun _ _ hB _ => hB⟩

theorem Broadcasts.registered (h : Broadcasts s₀ message tr s) : Registered s₀.connections tr s := by
  obtain ⟨order, _, horder, _, hrun⟩ := h.begun_run
  refine hrun.invariant_trace (I := Registered s₀.connections) ?_
    fun _ _ _ _ _ hI hB hs => registered_step hB hI hs
  have hconnected : (s₀.send message ∅ order).connected = s₀.connected := by
    cases order <;> rfl
  refine ⟨hconnected ▸ s₀.connections_subset, ?_, ?_, ?_, ?_, ?_, ?_, ?_⟩
  · rintro c ⟨x, hx, _⟩
    cases hx
  · rintro c ⟨x, hx, _⟩
    cases hx
  · rintro c ⟨x, hx, _⟩
    cases hx
  · rintro c ⟨m, hm⟩
    cases hm
  · intro c hc
    rw [pending_send] at hc
    exact horder ▸ List.mem_toFinset.mpr hc
  · intro m ws rest dead hs c
    cases order <;> cases hs
    simp [Raises]
  · intro c
    cases order <;> simp [send, prune, Connects, Disconnects, Raises]

/-- The sends that have ended and the sockets still to come are those of the start, one each. -/
theorem Broadcasts.sends_pending (h : Broadcasts s₀ message tr s) :
    ((flow sends tr).map (fun x => x.2.1) ++ s.pending).Nodup ∧
      ∀ c, c ∈ (flow sends tr).map (fun x => x.2.1) ++ s.pending ↔ c ∈ s₀.connections := by
  obtain ⟨order, hnodup, horder, _, hrun⟩ := h.begun_run
  let sockets (s : ConnectionManager C) (a : Action C) : List C := (s.sends a).map fun x => x.2.1
  let none (_ : ConnectionManager C) (_ : Action C) : List C := []
  have hfirst (s : ConnectionManager C) (a : Action C) (s' : ConnectionManager C) (hB : s.Begun message)
      (hs : s.step a = some s') : sockets s a ++ s'.pending = s.pending ++ none s a := by
    rw [sends_of_step hB hs]
    exact (List.append_nil _).symm
  have hflow := hrun.first_out hfirst
  have hnil : flow none tr = [] := by simp [flow, none]
  rw [← map_flow, hnil, List.append_nil, pending_send] at hflow
  rw [hflow]
  exact ⟨hnodup, fun c => by rw [← horder, List.mem_toFinset]⟩

theorem Broadcasts.message_eq (h : Broadcasts s₀ message tr s) : ∀ x ∈ flow sends tr, x.1 = message := by
  obtain ⟨order, _, _, _, hrun⟩ := h.begun_run
  intro x hx
  obtain ⟨⟨s, a⟩, hy, hx⟩ := List.mem_flatMap.mp hx
  obtain ⟨hB, _⟩ := hrun.of_mem _ hy
  cases a with
  | sent raised =>
    unfold sends at hx
    dsimp only at hx
    split at hx
    · rename_i hsending
      obtain rfl := List.mem_singleton.mp hx
      rw [Begun, hsending] at hB
      exact hB
    · cases hx
  | _ => cases hx

/-- At the end one send to each socket of the start has ended. -/
theorem Broadcasts.sends_finished (h : Broadcasts s₀ message tr s) (hf : s.broadcast = .finished) :
    ((flow sends tr).map fun x => x.2.1).Nodup ∧
      ∀ c, c ∈ (flow sends tr).map (fun x => x.2.1) ↔ c ∈ s₀.connections := by
  have hpending : s.pending = [] := by rw [pending, hf]
  have hsends := h.sends_pending
  rwa [hpending, List.append_nil] at hsends

/-- What one call of `broadcast` does while sockets connect and disconnect. -/
structure BroadcastLaw (C : Type) [DecidableEq C] : Prop where
  /-- Every socket registered at the start gets one send attempt, and no other gets any. -/
  attempts {s₀ s : ConnectionManager C} {m : String} {tr : List (ConnectionManager C × Action C)} (c : C) :
    Broadcasts s₀ m tr s → s.broadcast = .finished →
    ((flow sends tr).map fun x => x.2.1).count c = if c ∈ s₀.connections then 1 else 0
  /-- One whose send does not raise gets the message once, and nothing else. -/
  delivered {s₀ s : ConnectionManager C} {m : String} {tr : List (ConnectionManager C × Action C)} {c : C} :
    Broadcasts s₀ m tr s → s.broadcast = .finished → c ∈ s₀.connections → ¬ Raises tr c →
    (flow sends tr).filter (fun x => x.2.1 = c) = [(m, c, false)]
  /-- A send that raises does not stop the loop. -/
  continues {s₀ s : ConnectionManager C} {m : String} {tr : List (ConnectionManager C × Action C)} {c : C}
    {rest : List C} (raised : Bool) : Broadcasts s₀ m tr s → s.pending = c :: rest →
    ∃ s', s.step (.sent raised) = some s' ∧ s'.pending = rest ∧ (rest = [] → s'.broadcast = .finished)
  stays {s₀ s : ConnectionManager C} {m : String} {tr : List (ConnectionManager C × Action C)} {c : C} :
    Broadcasts s₀ m tr s → Connects tr c → ¬ Disconnects tr c → c ∈ s.connections
  final {s₀ s : ConnectionManager C} {m : String} {tr : List (ConnectionManager C × Action C)} (c : C) :
    Broadcasts s₀ m tr s → s.broadcast = .finished →
    (c ∈ s.connections ↔ (c ∈ s₀.connections ∨ Connects tr c) ∧ ¬ Disconnects tr c ∧ ¬ Raises tr c)

theorem broadcastLaw : BroadcastLaw C where
  attempts c h hf := by
    obtain ⟨hnodup, hmem⟩ := h.sends_finished hf
    split_ifs with hc
    · exact List.count_eq_one_of_mem hnodup ((hmem c).mpr hc)
    · exact List.count_eq_zero_of_not_mem fun h => hc ((hmem c).mp h)
  delivered {s₀ s m tr c} h hf hc hr := by
    obtain ⟨hnodup, hmem⟩ := h.sends_finished hf
    have hlength : ((flow sends tr).filter fun x => x.2.1 = c).length = 1 := by
      rw [← List.countP_eq_length_filter, ← List.count_eq_one_of_mem hnodup ((hmem c).mpr hc), List.count,
        List.countP_map]
      exact List.countP_congr fun x _ => by simp
    obtain ⟨⟨m', c', raised⟩, hx⟩ := List.length_eq_one_iff.mp hlength
    have hx' : (m', c', raised) ∈ (flow sends tr).filter fun x => x.2.1 = c := hx ▸ List.mem_singleton_self _
    obtain ⟨hin, hsocket⟩ := List.mem_filter.mp hx'
    obtain rfl : c' = c := of_decide_eq_true hsocket
    obtain rfl : m' = m := h.message_eq _ hin
    cases raised with
    | false => exact hx
    | true => exact absurd ⟨_, hin⟩ hr
  continues {s₀ s m tr c rest} raised h hp := by
    cases hb : s.broadcast with
    | sending m' ws rest' dead =>
      rw [pending, hb] at hp
      cases hp
      refine ⟨s.send m' (if raised then insert c dead else dead) rest, ?_, pending_send _ _ _, ?_⟩
      · rw [step, hb]
      · rintro rfl
        rfl
    | idle | finished =>
      rw [pending, hb] at hp
      cases hp
  stays {s₀ s m tr c} h hc hd := by
    have hI := h.registered
    exact (hI.mem c).mpr ⟨.inr hc, hd, fun _ hr => hI.fresh c hc (hI.raises c hr)⟩
  final c h hf := by
    rw [h.registered.mem c]
    simp [hf]

/-- Sockets 0 and 1 are registered. -/
def twoSockets : ConnectionManager ℕ := ⟨{0, 1}, {0, 1}, Finset.Subset.refl _, .idle⟩

/-- Socket 2 connects while the message is on its way; the send to 1 raises, the send to 0 does not. -/
def sendingToTwo : List (Action ℕ) := [.connect 2, .sent true, .sent false]

theorem broadcastLaw_sent : ∃ tr s, Broadcasts twoSockets "up" tr s ∧
    (flow sends tr).filter (fun x => x.2.1 = 0) = [("up", 0, false)] ∧
    ((flow sends tr).map fun x => x.2.1).count 2 = 0 ∧ 2 ∈ s.connections ∧ 1 ∉ s.connections := by
  obtain ⟨tr, s, h, hsends, hactions, hf⟩ : ∃ tr s, Broadcasts twoSockets "up" tr s ∧
      flow sends tr = [("up", 1, true), ("up", 0, false)] ∧ tr.map Prod.snd = sendingToTwo ∧
      s.broadcast = .finished :=
    ⟨_, _, ⟨[1, 0], twoSockets.send "up" ∅ [1, 0], rfl, run_get sendingToTwo rfl⟩, rfl, rfl, rfl⟩
  have hraises (c : ℕ) : Raises tr c ↔ c = 1 := by simp [Raises, hsends]
  have hconnects : Connects tr 2 := by
    obtain ⟨x, hx, hx'⟩ : ∃ x ∈ tr, x.2 = .connect 2 := List.mem_map.mp (hactions ▸ List.mem_cons_self)
    exact ⟨x, hx, hx'⟩
  have hstays : ¬ Disconnects tr 2 := by
    rintro ⟨x, hx, hx'⟩
    have hmem : x.2 ∈ sendingToTwo := hactions ▸ List.mem_map_of_mem hx
    simp [sendingToTwo, hx'] at hmem
  refine ⟨tr, s, h, broadcastLaw.delivered h hf (by decide) ?_, ?_, broadcastLaw.stays h hconnects hstays, ?_⟩
  · rw [hraises]
    decide
  · rw [broadcastLaw.attempts 2 h hf]
    rfl
  · rw [broadcastLaw.final 1 h hf, hraises]
    exact fun hfinal => hfinal.2.2 rfl

end ConnectionManager
end DistribuQ
