import DistribuQ.Model.Board
import DistribuQ.Proofs.Budget
import DistribuQ.Proofs.Consistency

/-! The tables and processes simulate the board. -/

namespace DistribuQ
open Transition
variable {env : Env} {s s' : State} {a : Action} {r r' : Job} {j : Uuid}

/-! The board by itself. -/

namespace Board
variable {b b' : Board}

/-- A move of a job, at some time. -/
def Moves (x y : Option Ticket) : Prop := ∃ now, Ticket.Move now x y

theorem moves_of_steps (h : Relation.ReflTransGen Step b b') (j : Uuid) :
    Relation.ReflTransGen Moves (b.tickets j) (b'.tickets j) := by
  induction h with
  | refl => exact .refl
  | tail _ hstep ih =>
    rcases (Relation.reflGen_iff _ _ _).mp (hstep.2 j) with heq | hmove
    · rwa [heq]
    · exact ih.tail ⟨_, hmove⟩

/-- No job is given up or turned into another. -/
theorem job_of_moves {x : Ticket} {y : Option Ticket} (h : Relation.ReflTransGen Moves (some x) y) :
    ∃ x', y = some x' ∧ x'.job = x.job := by
  induction h with
  | refl => exact ⟨x, rfl, rfl⟩
  | tail _ hmove ih =>
    obtain ⟨x', rfl, hjob⟩ := ih
    obtain ⟨_, hmove⟩ := hmove
    cases hmove <;> exact ⟨_, rfl, hjob⟩

/-- A success and a cancellation are for good. -/
theorem eq_of_moves {x : Ticket} {y : Option Ticket} (h : Relation.ReflTransGen Moves (some x) y)
    (hx : x.phase = .cancelled ∨ ∃ v, x.phase = .succeeded v) : y = some x := by
  induction h with
  | refl => rfl
  | tail _ hmove ih =>
    subst ih
    obtain ⟨_, hmove⟩ := hmove
    obtain ⟨job, n, phase⟩ := x
    rcases hx with rfl | ⟨v, rfl⟩ <;> cases hmove

/-- What a phase says of the number of attempts and of the time. -/
def Fits (clock : Time) (x : Ticket) : Prop :=
  match x.phase with
  | .waiting | .cancelled => True
  | .running _ since => 1 ≤ x.attempts ∧ since ≤ clock
  | .backoff .. => 1 ≤ x.attempts ∧ x.attempts < x.job.maxAttempts
  | .succeeded _ => 1 ≤ x.attempts
  | .buried _ => 1 ≤ x.attempts ∧ x.job.maxAttempts ≤ x.attempts

def Sound (b : Board) : Prop := ∀ j x, b.tickets j = some x → Fits b.clock x

theorem Fits.mono {clock clock' : Time} {x : Ticket} (h : Fits clock x) (hle : clock ≤ clock') :
    Fits clock' x := by
  obtain ⟨job, n, phase⟩ := x
  cases phase with
  | running => exact ⟨h.1, h.2.trans hle⟩
  | _ => exact h

theorem sound_step (hI : b.Sound) (h : b.Step b') : b'.Sound := by
  intro j x' hx'
  refine Fits.mono ?_ h.1
  rcases (Relation.reflGen_iff _ _ _).mp (h.2 j) with heq | hmove
  · exact hI j x' (heq.symm.trans hx')
  · rw [hx'] at hmove
    generalize hx : b.tickets j = y at hmove
    cases hmove with
    | post | cancel | reclaim | wake | replay => trivial
    | take | retake => exact ⟨Nat.succ_pos _, le_rfl⟩
    | succeed => exact (hI j _ hx).1
    | retry _ _ _ _ _ _ hlt => exact ⟨(hI j _ hx).1, hlt⟩
    | bury _ _ _ _ _ hle => exact ⟨(hI j _ hx).1, hle⟩

end Board

/-! What the board shows of a state. -/

/-- The ticket of a row. -/
inductive Job.Shows (r : Job) : Ticket → Prop
  | waiting : r.status = .pending → Shows r ⟨r.origin, r.attempts, .waiting⟩
  | running (w : WorkerId) (since : Time) : r.status = .running → r.lockedBy = some w →
      r.lockedAt = some since →
      Shows r ⟨r.origin, r.attempts, .running w since⟩
  | backoff (e : String) (due : Time) : r.status = .retrying → r.error = some e → r.nextRetryAt = some due →
      Shows r ⟨r.origin, r.attempts, .backoff e due⟩
  | succeeded : r.status = .success → Shows r ⟨r.origin, r.attempts, .succeeded r.result⟩
  | buried (e : String) : r.status = .deadLetter → r.error = some e → Shows r ⟨r.origin, r.attempts, .buried e⟩
  | cancelled : r.status = .failed → Shows r ⟨r.origin, r.attempts, .cancelled⟩

def State.Shows (s : State) (b : Board) : Prop :=
  b.clock = s.store.clock ∧ ∀ j, Option.Rel Job.Shows (s.store.db.job? j) (b.tickets j)

/-- What is known of the states of a run in which every outcome is written under the lock. -/
structure Known (s : State) : Prop where
  letters : s.store.db.LettersAgree
  attempts : AttemptsAgree s
  carried : Carried s
  judged : Judged s
  consistent : s.store.db.RowsConsistent

theorem known_of_reachable {t : Nat} (h : Reachable (Fenced env) (step env) (.init t) s) : Known s where
  letters := lettersAgree_of_reachable h
  attempts := attemptsAgree_of_reachable h
  carried := carried_of_reachable h
  judged := judged_of_reachable h
  consistent := Database.rowsConsistent_of_reachable (tables_of_reachable h)

/-- A guarded write to a row is a move of its job. -/
theorem move_of_guarded {c : Call} {pid : Nat} {x : Ticket} (hK : Known s)
    (hc : s.call? env a = some (pid, c)) (hr : s.store.db.job? j = some r) (hx : r.Shows x)
    (hg : c.GuardedWrite s.store pid r r') :
    ∃ x', r'.Shows x' ∧ Relation.ReflGen (Ticket.Move s.store.clock) (some x) (some x') := by
  have hid := Database.id_of_job? hr
  subst hid
  cases hg with
  | kept => exact ⟨x, hx, .refl⟩
  | lock hclaim =>
    refine ⟨_, .running pid s.store.clock rfl rfl rfl, .single ?_⟩
    cases hx with
    | waiting => exact .take _ _ _
    | backoff => exact .retake _ _ _ _ _
    | running _ _ hs | succeeded hs | buried _ hs | cancelled hs => simp [Job.claimable, hs] at hclaim
  | succeed v hs =>
    refine ⟨_, .succeeded rfl, .single ?_⟩
    cases hx with
    | running => exact .succeed _ _ _ _ _
    | waiting h | backoff _ _ h | succeeded h | buried _ h | cancelled h => cases hs.symm.trans h
  | retry e t hs hl =>
    refine ⟨_, .backoff e t rfl rfl rfl, .single ?_⟩
    have hlt := (judged_of_held hK.attempts hK.carried hK.judged hc hr hs hl).1 e t rfl
    cases hx with
    | running => exact .retry _ _ _ _ _ _ hlt
    | waiting h | backoff _ _ h | succeeded h | buried _ h | cancelled h => cases hs.symm.trans h
  | bury e n hs hl =>
    refine ⟨_, .buried e rfl rfl, .single ?_⟩
    have hle := (judged_of_held hK.attempts hK.carried hK.judged hc hr hs hl).2 e n rfl
    cases hx with
    | running => exact .bury _ _ _ _ _ hle
    | waiting h | backoff _ _ h | succeeded h | buried _ h | cancelled h => cases hs.symm.trans h
  | release n hs =>
    refine ⟨_, .waiting rfl, .single ?_⟩
    cases hx with
    | running => exact .reclaim _ _ _ _
    | waiting h | backoff _ _ h | succeeded h | buried _ h | cancelled h => cases hs.symm.trans h
  | promote hs hdue =>
    refine ⟨_, .waiting rfl, .single ?_⟩
    cases hx with
    | backoff e due _ _ hd =>
      refine .wake _ _ _ _ ?_
      simp only [Job.dueRetry, hd, Bool.and_eq_true, Option.any_some, decide_eq_true_eq] at hdue
      exact hdue.2
    | waiting h | running _ _ h | succeeded h | buried _ h | cancelled h => cases hs.symm.trans h
  | cancel hs =>
    refine ⟨_, .cancelled rfl, .single ?_⟩
    cases hx with
    | waiting => exact .cancel _ _
    | running _ _ h | backoff _ _ h | succeeded h | buried _ h | cancelled h => cases hs.symm.trans h
  | reset d hs =>
    refine ⟨_, .waiting rfl, .single ?_⟩
    cases hx with
    | buried => exact .replay _ _ _
    | waiting h | running _ _ h | backoff _ _ h | succeeded h | cancelled h => cases hs.symm.trans h

/-- What a step does to one job is a move of the job, or nothing. -/
theorem ticket_of_step {x : Option Ticket} (hK : Known s) (hf : Fenced env s a) (h : step env s a = some s')
    (hx : Option.Rel Job.Shows (s.store.db.job? j) x) :
    ∃ x', Option.Rel Job.Shows (s'.store.db.job? j) x' ∧ Relation.ReflGen (Ticket.Move s.store.clock) x x' := by
  cases hr : s.store.db.job? j with
  | none =>
    rw [hr] at hx
    cases hx
    cases hr' : s'.store.db.job? j with
    | none => exact ⟨none, .none, .refl⟩
    | some r' =>
      obtain ⟨_, ch, c, _, hinsert, _⟩ := step_job?_none h hr hr'
      refine ⟨some ⟨r'.origin, 0, .waiting⟩, ?_, .single (.post _)⟩
      cases c with
      | createJob | scheduleNextOccurrence =>
        cases hinsert
        exact .some (.waiting rfl)
      | _ => cases hinsert
  | some r =>
    rw [hr] at hx
    cases hx with
    | some hx =>
      rcases guarded_step hK.letters hf h hr with hsame | ⟨pid, c, r', hc, hr', hg⟩
      · exact ⟨_, hsame ▸ .some hx, .refl⟩
      · obtain ⟨x', hx', hmove⟩ := move_of_guarded hK hc hr hx hg
        exact ⟨some x', hr' ▸ .some hx', hmove⟩

theorem simulates_board : Simulates (Fenced env) (step env) Known Board.Step State.Shows := by
  rintro s a s' b hK ⟨hclock, hb⟩ hf h
  choose tickets hshows hmove using fun j => ticket_of_step hK hf h (hb j)
  refine ⟨⟨s'.store.clock, tickets⟩, ⟨?_, ?_⟩, rfl, hshows⟩
  · exact hclock.trans_le (clock_le_of_step h)
  · exact fun j => hclock ▸ hmove j

theorem shows_init (t : Nat) : (State.init t).Shows (Board.empty t) := ⟨rfl, fun _ => .none⟩

theorem Board.sound_empty (t : Nat) : (Board.empty t).Sound := nofun

theorem Job.Shows.attempts {x : Ticket} (h : r.Shows x) : x.attempts = r.attempts := by
  cases h <;> rfl

theorem Job.Shows.job {x : Ticket} (h : r.Shows x) : x.job = r.origin := by
  cases h <;> rfl

theorem Job.Shows.of_succeeded {x : Ticket} {v : Option Json} (h : r.Shows x) (hx : x.phase = .succeeded v) :
    r.status = .success ∧ r.result = v := by
  cases h with
  | succeeded hs =>
    cases hx
    exact ⟨hs, rfl⟩
  | _ => cases hx

theorem Job.Shows.of_cancelled {x : Ticket} (h : r.Shows x) (hx : x.phase = .cancelled) :
    r.status = .failed := by
  cases h with
  | cancelled hs => exact hs
  | _ => cases hx

/-- A success and a cancellation are seen on the board, and a ticket of theirs leaves the row no choice. -/
theorem Job.Shows.settled {x : Ticket} (h : r.Shows x) (hr : r.status = .success ∨ r.status = .failed) :
    (x.phase = .cancelled ∨ ∃ v, x.phase = .succeeded v) ∧ ∀ r' : Job, r'.Shows x →
      r'.status = r.status ∧ r'.attempts = r.attempts ∧ (r.status = .success → r'.result = r.result) := by
  cases h with
  | succeeded hs =>
    refine ⟨.inr ⟨_, rfl⟩, fun r' h' => ?_⟩
    obtain ⟨hs', hv⟩ := h'.of_succeeded rfl
    exact ⟨hs'.trans hs.symm, h'.attempts.symm, fun _ => hv⟩
  | cancelled hs =>
    refine ⟨.inl rfl, fun r' h' => ⟨(h'.of_cancelled rfl).trans hs.symm, h'.attempts.symm, fun h => ?_⟩⟩
    cases hs.symm.trans h
  | waiting h | running _ _ h | backoff _ _ h | buried _ h =>
    rw [h] at hr
    rcases hr with hr | hr <;> cases hr

/-- What the board makes of a row, by its status. -/
theorem Job.Shows.stages {x : Ticket} {clock : Time} (h : r.Shows x) (hfit : Board.Fits clock x) :
    (r.status = .running → 1 ≤ r.attempts ∧ ∃ w since, r.lockedBy = some w ∧ r.lockedAt = some since ∧
      since ≤ clock) ∧
    (r.status = .retrying → 1 ≤ r.attempts ∧ r.attempts < r.maxAttempts) ∧
    (r.status = .success → 1 ≤ r.attempts) ∧
    (r.status = .deadLetter → 1 ≤ r.attempts ∧ r.maxAttempts ≤ r.attempts) := by
  cases h with
  | running w since hs hl ht =>
    exact ⟨fun _ => ⟨hfit.1, w, since, hl, ht, hfit.2⟩, by simp [hs], by simp [hs], by simp [hs]⟩
  | backoff e due hs => exact ⟨by simp [hs], fun _ => hfit, by simp [hs], by simp [hs]⟩
  | succeeded hs => exact ⟨by simp [hs], by simp [hs], fun _ => hfit, by simp [hs]⟩
  | buried e hs => exact ⟨by simp [hs], by simp [hs], by simp [hs], fun _ => hfit⟩
  | waiting hs | cancelled hs => simp [hs]

/-- Every run of the service is a run of the board, and what holds of the board holds of the rows. -/
structure BoardLaw (env : Env) (t : Nat) : Prop where
  /-- There is a board for the state after any run. -/
  shown {s : State} : Reachable (Fenced env) (step env) (.init t) s →
    ∃ b, Relation.ReflTransGen Board.Step (.empty t) b ∧ s.Shows b
  /-- Whatever the run goes on with, the board goes on likewise. -/
  followed {s s' : State} {b : Board} : Reachable (Fenced env) (step env) (.init t) s → s.Shows b →
    Reachable (Fenced env) (step env) s s' → ∃ b', Relation.ReflTransGen Board.Step b b' ∧ s'.Shows b'
  /-- A job once submitted is neither lost nor changed into another. -/
  kept {s s' : State} {j : Uuid} {r : Job} : Reachable (Fenced env) (step env) (.init t) s →
    Reachable (Fenced env) (step env) s s' → s.store.db.job? j = some r →
    ∃ r', s'.store.db.job? j = some r' ∧ r'.origin = r.origin
  /-- A success and a cancellation are for good, with the attempts made and the result. -/
  settled {s s' : State} {j : Uuid} {r : Job} : Reachable (Fenced env) (step env) (.init t) s →
    Reachable (Fenced env) (step env) s s' → s.store.db.job? j = some r →
    r.status = .success ∨ r.status = .failed →
    ∃ r', s'.store.db.job? j = some r' ∧ r'.status = r.status ∧ r'.attempts = r.attempts ∧
      (r.status = .success → r'.result = r.result)
  /-- Where a job stands says how far its attempts have come. -/
  stages {s : State} {j : Uuid} {r : Job} : Reachable (Fenced env) (step env) (.init t) s →
    s.store.db.job? j = some r →
    (r.status = .running → 1 ≤ r.attempts ∧ ∃ w since, r.lockedBy = some w ∧ r.lockedAt = some since ∧
      since ≤ s.store.clock) ∧
    (r.status = .retrying → 1 ≤ r.attempts ∧ r.attempts < r.maxAttempts) ∧
    (r.status = .success → 1 ≤ r.attempts) ∧
    (r.status = .deadLetter → 1 ≤ r.attempts ∧ r.maxAttempts ≤ r.attempts)

theorem ticket_of_shows {b : Board} (h : s.Shows b) (hr : s.store.db.job? j = some r) :
    ∃ x, b.tickets j = some x ∧ r.Shows x := by
  have hrel := h.2 j
  rw [hr] at hrel
  generalize hx : b.tickets j = x at hrel
  cases hrel with
  | some hrx => exact ⟨_, rfl, hrx⟩

theorem row_of_shows {b : Board} {x : Ticket} (h : s.Shows b) (hx : b.tickets j = some x) :
    ∃ r, s.store.db.job? j = some r ∧ r.Shows x := by
  have hrel := h.2 j
  rw [hx] at hrel
  generalize hr : s.store.db.job? j = y at hrel
  cases hrel with
  | some hrx => exact ⟨_, rfl, hrx⟩

theorem shown_of_reachable {t : Nat} (h : Reachable (Fenced env) (step env) (.init t) s) :
    ∃ b, Relation.ReflTransGen Board.Step (.empty t) b ∧ s.Shows b :=
  simulates_board.run (fun _ => known_of_reachable) (shows_init t) h

theorem followed_of_reachable {t : Nat} {b : Board} (hs : Reachable (Fenced env) (step env) (.init t) s)
    (hb : s.Shows b) (h : Reachable (Fenced env) (step env) s s') :
    ∃ b', Relation.ReflTransGen Board.Step b b' ∧ s'.Shows b' :=
  simulates_board.run (fun _ h => known_of_reachable (hs.trans h)) hb h

/-- The ticket of a row moves to that of the row it has become. -/
theorem tickets_of_run {t : Nat} (hs : Reachable (Fenced env) (step env) (.init t) s)
    (h : Reachable (Fenced env) (step env) s s') (hr : s.store.db.job? j = some r) :
    ∃ x x' r', r.Shows x ∧ Relation.ReflTransGen Board.Moves (some x) (some x') ∧
      s'.store.db.job? j = some r' ∧ r'.Shows x' ∧ x'.job = x.job := by
  obtain ⟨b, _, hb⟩ := shown_of_reachable hs
  obtain ⟨b', hpath, hb'⟩ := followed_of_reachable hs hb h
  obtain ⟨x, hx, hrx⟩ := ticket_of_shows hb hr
  have hmoves := Board.moves_of_steps hpath j
  rw [hx] at hmoves
  obtain ⟨x', hx', hjob⟩ := Board.job_of_moves hmoves
  obtain ⟨r', hr', hrx'⟩ := row_of_shows hb' hx'
  rw [hx'] at hmoves
  exact ⟨x, x', r', hrx, hmoves, hr', hrx', hjob⟩

theorem boardLaw (env : Env) (t : Nat) : BoardLaw env t where
  shown := shown_of_reachable
  followed := followed_of_reachable
  kept hs h hr := by
    obtain ⟨x, x', r', hrx, _, hr', hrx', hjob⟩ := tickets_of_run hs h hr
    exact ⟨r', hr', hrx'.job.symm.trans (hjob.trans hrx.job)⟩
  settled hs h hr hst := by
    obtain ⟨x, x', r', hrx, hmoves, hr', hrx', _⟩ := tickets_of_run hs h hr
    obtain ⟨hphase, hunique⟩ := hrx.settled hst
    -- the ticket is the same still
    obtain rfl := Option.some.inj (Board.eq_of_moves hmoves hphase)
    exact ⟨r', hr', hunique r' hrx'⟩
  stages {s j r} h hr := by
    have hknown (s : State) (h : Reachable (Fenced env) (step env) (.init t) s) := known_of_reachable h
    obtain ⟨b, hsound, hb⟩ :=
      simulates_board.invariant hknown (fun _ _ => Board.sound_step) (shows_init t) (Board.sound_empty t) h
    obtain ⟨x, hx, hrx⟩ := ticket_of_shows hb hr
    exact hb.1 ▸ hrx.stages (hsound j x hx)

/-- The board has job 7 taken when worker 1 is at its handler, and goes on to where the job has succeeded. -/
theorem boardLaw_taken : ∃ s s' b b', Reachable (Fenced minutely) (step minutely) s s' ∧ s.Shows b ∧
    Relation.ReflTransGen Board.Step b b' ∧ s'.Shows b' ∧
    s.store.db.status? 7 = some .running ∧ s'.store.db.status? 7 = some .success := by
  obtain ⟨s, h, hs⟩ : ∃ s, Reachable (Fenced minutely) (step minutely) (.init 0) s ∧ _ :=
    exists_reachable_of_exec (taken report) (fun s => s.store.db.status? 7 = some .running ∧
      ∃ s' ∈ exec (Fenced minutely) (step minutely) s (calls 1 2), s'.store.db.status? 7 = some .success) (by decide)
  obtain ⟨hrunning, s', hs', hsuccess⟩ := of_decide_eq_true hs
  obtain ⟨b, _, hb⟩ := (boardLaw minutely 0).shown h
  obtain ⟨b', hsteps, hb'⟩ := (boardLaw minutely 0).followed h hb (reachable_exec hs')
  exact ⟨s, s', b, b', reachable_exec hs', hb, hsteps, hb', hrunning, hsuccess⟩

end DistribuQ
