import DistribuQ.Proofs.Carried
import DistribuQ.Proofs.Dashboard
import DistribuQ.Proofs.EventFeed
import DistribuQ.Proofs.Reports
import DistribuQ.Proofs.WorkerStats

/-! What the service publishes is true, and so is what a page shows of it. -/

namespace DistribuQ
open Transition
variable {env : Env} {s s' : State} {a : Action} {ch : Choice} {st st' : Store} {pid : Nat} {j : Uuid} {r : Job}
  {db db' : Database}

/-! What is published. -/

def Call.published? : Call → Option Event
  | publish e => some e
  | _ => none

namespace Redis
variable {r : Redis} {q : Queue}

theorem events_rpop : (r.rpop q).1.events = r.events := by
  unfold rpop
  split <;> rfl

theorem events_rpoplpush : (r.rpoplpush q).1.events = r.events := by
  have hpop := events_rpop (r := r) (q := q)
  unfold rpoplpush
  split
  all_goals
    rename_i heq
    rw [heq] at hpop
    exact hpop

theorem events_brpop (qs : List Queue) : (r.brpop qs).1.events = r.events := by
  induction qs with
  | nil => rfl
  | cons q qs ih =>
    have hpop := events_rpop (r := r) (q := q)
    unfold brpop
    split
    · rename_i heq
      rw [heq] at hpop
      exact hpop
    · exact ih

theorem events_promoteScheduled (target : Queue) (now : Time) :
    (r.promoteScheduled target now).1.events = r.events := by
  have hfold (l : List Uuid) (r : Redis) :
      (l.foldl (fun r j => (r.zrem j).lpush target j) r).events = r.events := by
    induction l generalizing r with
    | nil => rfl
    | cons j l ih => exact ih _
  exact hfold _ r

end Redis

theorem Call.events_of_run {c : Call} {x : c.Ret} (h : c.run env ch st = some (st', x)) :
    st'.redis.events = st.redis.events ++ c.published?.toList := by
  cases c <;> simp only [run, Option.some.injEq, Option.map_eq_some_iff, Prod.exists] at h
  case moveToDeadLetter =>
    obtain ⟨_, _, hst⟩ := h
    cases hst
    exact (List.append_nil _).symm
  case createJob | scheduleNextOccurrence =>
    obtain ⟨_, _, _, hst⟩ := h
    cases hst
    exact (List.append_nil _).symm
  case rpoplpush =>
    cases h
    exact Redis.events_rpoplpush.trans (List.append_nil _).symm
  case brpop =>
    cases h
    exact (Redis.events_brpop _).trans (List.append_nil _).symm
  case promoteScheduled =>
    cases h
    exact (Redis.events_promoteScheduled _ _).trans (List.append_nil _).symm
  case publish =>
    cases h
    rfl
  all_goals
    cases h
    exact (List.append_nil _).symm

theorem events_of_ends {α : Type} {op : Op α} {p' : α} (he : op.Ends env ch st st' p') :
    st'.redis.events = st.redis.events ∨
      ∃ e, op.call = .publish e ∧ st'.redis.events = st.redis.events ++ [e] := by
  have hrun {x : op.call.Ret} (hx : op.call.run env ch st = some (st', x)) :
      st'.redis.events = st.redis.events ∨
        ∃ e, op.call = .publish e ∧ st'.redis.events = st.redis.events ++ [e] := by
    have hevents := Call.events_of_run hx
    cases hc : op.call with
    | publish e =>
      rw [hc] at hevents
      exact .inr ⟨e, rfl, hevents⟩
    | _ =>
      rw [hc] at hevents
      exact .inl (hevents.trans (List.append_nil _))
  cases he with
  | returned _ hx => exact hrun hx
  | raised => exact .inl rfl
  | lost _ _ hx => exact hrun hx

/-! What an event says. -/

/-- What an event says of a job is so. -/
def Event.Holds (db : Database) : Event → Prop
  | jobSubmitted j type priority scheduledFor => ∃ r, db.job? j = some r ∧ r.type = type ∧
    r.priority = priority ∧
      r.scheduledFor = scheduledFor
  | jobStatusChanged j type status _ => ∃ r, db.job? j = some r ∧ r.type = type ∧
      (status = .success → r.status = .success)
  | workerDead _ => True

/-- Rows stay, with what they were submitted with, and a success stays one. -/
def Database.Extends (db db' : Database) : Prop :=
  ∀ j r, db.job? j = some r → ∃ r', db'.job? j = some r' ∧ r'.origin = r.origin ∧
    (r.status = .success → r'.status = .success)

theorem extends_of_step (hL : s.store.db.LettersAgree) (hf : Fenced env s a) (h : step env s a = some s') :
    s.store.db.Extends s'.store.db := by
  intro j r hr
  obtain ⟨r', hr', horigin⟩ := step_origin h hr
  refine ⟨r', hr', horigin, fun hs => ?_⟩
  rcases guarded_step hL hf h hr with hsame | ⟨_, c, r₂, _, hr₂, hg⟩
  · rw [hsame] at hr'
    cases hr'
    exact hs
  · cases hr'.symm.trans hr₂
    cases hg with
    | kept => exact hs
    | lock hclaim => simp [Job.claimable, hs] at hclaim
    | succeed _ hrun | retry _ _ hrun | bury _ _ hrun | release _ hrun | promote hrun | cancel hrun
    | reset _ hrun => cases hs.symm.trans hrun

theorem origin_eq {new : NewJob} (h : r.origin = new) :
    r.type = new.type ∧ r.priority = new.priority ∧ r.scheduledFor = new.scheduledFor := by
  subst h
  exact ⟨rfl, rfl, rfl⟩

theorem Event.Holds.mono {e : Event} (h : e.Holds db) (hdb : db.Extends db') : e.Holds db' := by
  cases e with
  | jobSubmitted j type priority scheduledFor =>
    obtain ⟨r, hr, rfl, rfl, rfl⟩ := h
    obtain ⟨r', hr', horigin, _⟩ := hdb j r hr
    exact ⟨r', hr', origin_eq horigin⟩
  | jobStatusChanged j type status w =>
    obtain ⟨r, hr, rfl, hs⟩ := h
    obtain ⟨r', hr', horigin, hsuccess⟩ := hdb j r hr
    exact ⟨r', hr', (origin_eq horigin).1, fun hx => hsuccess (hs hx)⟩
  | workerDead w => trivial

/-! What the process of a request, or a worker, knows of the event that it is about to publish. -/

def Submit.Pc.Vouches (db : Database) : Submit.Pc → Prop
  | push req j | emit req j => ∃ r, db.job? j = some r ∧ r.origin = req.toNewJob
  | _ => True

def CancelRecord.Of (record : CancelRecord) (db : Database) : Prop :=
  ∃ r, db.job? record.id = some r ∧ r.type = record.type ∧ (record.status = .success → r.status = .success)

def Cancel.Pc.Vouches (db : Database) : Cancel.Pc → Prop
  | update _ record | lrem _ _ record | zrem record | emit record => record.Of db
  | _ => True

def Worker.Pc.Vouches (db : Database) : Worker.Pc → Prop
  | emitSuccess job => db.status? job.id = some .success
  | _ => True

def Proc.Vouches (db : Database) : Proc → Prop
  | worker p => p.pc.Vouches db
  | submit pc => pc.Vouches db
  | cancel pc => pc.Vouches db
  | _ => True

theorem CancelRecord.Of.mono {record : CancelRecord} (h : record.Of db) (hdb : db.Extends db') :
    record.Of db' := by
  obtain ⟨r, hr, htype, hs⟩ := h
  obtain ⟨r', hr', horigin, hsuccess⟩ := hdb _ r hr
  exact ⟨r', hr', (origin_eq horigin).1.trans htype, fun hx => hsuccess (hs hx)⟩

theorem Database.Extends.status? (hdb : db.Extends db') (h : db.status? j = some .success) :
    db'.status? j = some .success := by
  obtain ⟨r, hr, hs⟩ := Option.map_eq_some_iff.mp h
  obtain ⟨r', hr', _, hsuccess⟩ := hdb j r hr
  exact Option.map_eq_some_iff.mpr ⟨r', hr', hsuccess hs⟩

theorem Proc.Vouches.mono {p : Proc} (h : p.Vouches db) (hdb : db.Extends db') : p.Vouches db' := by
  cases p with
  | worker p =>
    obtain ⟨pc, _, _⟩ := p
    cases pc with
    | emitSuccess job => exact hdb.status? h
    | _ => trivial
  | submit pc =>
    cases pc with
    | push req j | emit req j =>
      obtain ⟨r, hr, horigin⟩ := h
      obtain ⟨r', hr', hsame, _⟩ := hdb j r hr
      exact ⟨r', hr', hsame.trans horigin⟩
    | _ => trivial
  | cancel pc =>
    cases pc with
    | select | finished => trivial
    | _ => exact CancelRecord.Of.mono h hdb
  | _ => trivial

theorem Proc.Vouches.signal {p : Proc} (h : p.Vouches db) : p.signal.Vouches db := by
  cases p <;> exact h

theorem vouches_toProc (r : Request) : r.toProc.Vouches db := by
  cases r <;> trivial

theorem Submit.vouches_of_next {pc pc' : Submit.Pc} {op : Op Submit.Pc} (hop : Submit.next pc = some op)
    (he : op.Ends env ch st st' pc') (hdb : st.db.Extends st'.db) (h : pc.Vouches st.db) :
        pc'.Vouches st'.db := by
  have hkept : Proc.Vouches st'.db (.submit pc) := Proc.Vouches.mono (p := .submit pc) h hdb
  cases Submit.does_of_next hop with
  | check =>
    cases he with
    | @returned _ next? _ _ => cases next? <;> trivial
    | raised _ hl | lost _ hl => cases hl
  | uncheck => cases he <;> trivial
  | create =>
    cases he with
    | returned _ hx =>
      obtain ⟨⟨db', row'⟩, hinsert, hpair⟩ := Option.map_eq_some_iff.mp hx
      cases hpair
      obtain ⟨rfl, _, _, _, hrows⟩ := Database.insertJob_eq_some hinsert
      exact ⟨_, (hrows _).trans (if_pos rfl), rfl⟩
    | raised | lost => trivial
  | push | schedule =>
    cases he with
    | returned => exact hkept
    | raised | lost => trivial
  | emit => cases he <;> trivial

theorem Cancel.vouches_of_next {pc pc' : Cancel.Pc} {op : Op Cancel.Pc} (hop : Cancel.next pc = some op)
    (he : op.Ends env ch st st' pc') (hdb : st.db.Extends st'.db) (h : pc.Vouches st.db) :
        pc'.Vouches st'.db := by
  have hkept : Proc.Vouches st'.db (.cancel pc) := Proc.Vouches.mono (p := .cancel pc) h hdb
  cases pc with
  | finished => cases hop
  | select j =>
    cases hop
    cases he with
    | raised | lost => trivial
    | @returned _ record _ hr =>
      cases hr
      cases hrow : st.db.cancelSelect j with
      | none => trivial
      | some record =>
        obtain ⟨r, hr, rfl⟩ := Database.cancelSelect_eq_some hrow
        obtain rfl := Database.id_of_job? hr
        dsimp only
        split_ifs <;> exact ⟨r, hr, rfl, fun hs => hs⟩
  | update j record =>
    cases hop
    cases he with
    | raised | lost => trivial
    | @returned _ x _ hr =>
      have hx : (st.db.cancelUpdate st.clock j).2 = x := congrArg Prod.snd (Option.some.inj hr)
      by_cases hpending : st.db.status? j = some .pending
      · obtain ⟨r, hrow, _, hupdated⟩ := Database.cancelUpdate_eq_some st.clock hpending
        rw [hupdated] at hx
        subst hx
        obtain ⟨r', hr', horigin, _⟩ := hdb j r hrow
        obtain rfl := Database.id_of_job? hrow
        exact ⟨r', hr', (origin_eq horigin).1, nofun⟩
      · rw [Database.cancelUpdate_of_not_pending st.clock hpending] at hx
        subst hx
        exact hkept
  | lrem q qs record =>
    cases hop
    cases he with
    | raised | lost => trivial
    | returned => cases qs <;> exact hkept
  | zrem record =>
    cases hop
    cases he with
    | raised | lost => trivial
    | returned => exact hkept
  | emit record =>
    cases hop
    cases he <;> trivial

theorem Worker.vouches_of_goes {w : WorkerId} {pc pc' : Pc} {c : Call}
    (h : pc.Goes env w ch st st' c pc') (hend : ∀ job v, c = .markJobSuccess job v → ch.fault = .none →
      st'.db.status? job = some .success) : pc'.Vouches st'.db := by
  have hfailure (job : LockedJob) (e : String) : (onFailure job e).Vouches st'.db :=
    onFailure_cases (P := fun pc => pc.Vouches st'.db) e (fun _ => trivial) fun _ => trivial
  have hsuccess (job : LockedJob) : (afterSuccess job).Vouches st'.db :=
    afterSuccess_cases (P := fun pc => pc.Vouches st'.db) (fun _ => trivial) trivial
  cases h with
  | succeeded hf => exact hend _ _ rfl hf
  | raised | successFault => exact hfailure _ _
  | emitSuccess => exact hsuccess _
  | _ => trivial

/-- Who publishes an event. -/
inductive Proc.Publishes (pid : Nat) : Proc → Event → Prop
  | status {p : Worker} {job : LockedJob} {x : JobStatus} : p.pc.job? = some job →
      (x = .success → p.pc = .emitSuccess job) →
      Publishes pid (.worker p) (.jobStatusChanged job.id job.type x (some pid))
  | dead {p : Worker} : p.pc = .emitDead → Publishes pid (.worker p) (.workerDead pid)
  | submitted (req : JobCreateRequest) (j : Uuid) :
      Publishes pid (.submit (.emit req j)) (.jobSubmitted j req.type req.priority req.scheduledFor)
  | cancelled (record : CancelRecord) :
      Publishes pid (.cancel (.emit record)) (.jobStatusChanged record.id record.type record.status none)

theorem publishes_of_next {p : Proc} {op : Op Proc} {e : Event} (hop : p.next env pid = some op)
    (he : op.call.published? = some e) : p.Publishes pid e := by
  cases p with
  | worker p =>
    obtain ⟨pc, running, n⟩ := p
    cases pc with
    | poll qs => cases qs <;> cases hop <;> cases he
    | stopped => cases hop
    | emitSuccess job =>
      cases hop
      cases he
      exact .status rfl fun _ => rfl
    | emitRunning job | emitRetrying job | emitDeadLetter job =>
      cases hop
      cases he
      exact .status rfl nofun
    | emitDead =>
      cases hop
      cases he
      exact .dead rfl
    | _ =>
      cases hop
      cases he
  | submit pc =>
    obtain ⟨_, hnext, rfl⟩ := Option.map_eq_some_iff.mp hop
    cases Submit.does_of_next hnext <;> cases he
    exact .submitted _ _
  | cancel pc =>
    cases pc with
    | emit record =>
      cases hop
      cases he
      exact .cancelled record
    | _ =>
      cases hop
      all_goals cases he
  | replay pc => cases pc <;> cases hop <;> cases he
  | scheduler p =>
    obtain ⟨pc, running, last⟩ := p
    cases pc <;> cases hop <;> cases he
  | reaper p =>
    obtain ⟨v, n, pc, running⟩ := p
    cases pc <;> cases hop <;> cases he
  | gone => cases hop

theorem publishes_of_call? {c : Call} {e : Event} (hc : s.call? env a = some (pid, c))
    (he : c.published? = some e) : ∃ p, s.procs[pid]? = some p ∧ p.Publishes pid e := by
  obtain ⟨_, p, op, hp, ⟨_, hop⟩ | ⟨_, hop⟩, rfl⟩ := call?_eq_some hc
  · exact ⟨p, hp, publishes_of_next hop he⟩
  · obtain ⟨n, rfl⟩ := heartbeat_eq_some hop
    cases he

/-- Whoever publishes an event vouches for it. -/
theorem holds_of_publishes {p : Proc} {e : Event} (h : p.Publishes pid e) (hv : p.Vouches db)
    (hcarried : ∀ job, p.job? = some job → ∃ r, db.job? job.id = some r ∧ r.type = job.type) : e.Holds db := by
  cases h with
  | status hjob hx =>
    obtain ⟨r, hr, htype⟩ := hcarried _ hjob
    refine ⟨r, hr, htype, fun hsuccess => ?_⟩
    rw [Proc.Vouches, hx hsuccess] at hv
    obtain ⟨r', hr', hs⟩ := Option.map_eq_some_iff.mp hv
    cases hr.symm.trans hr'
    exact hs
  | dead => trivial
  | submitted =>
    obtain ⟨r, hr, horigin⟩ := hv
    exact ⟨r, hr, origin_eq horigin⟩
  | cancelled => exact hv

theorem Carried.type {p : Proc} {job : LockedJob} {i : Nat} (hC : Carried s) (hp : s.procs[i]? = some p)
    (hjob : p.job? = some job) : ∃ r, s.store.db.job? job.id = some r ∧ r.type = job.type := by
  obtain ⟨r, hr, hrow⟩ := hC i p job hp hjob
  exact ⟨r, hr, by rw [hrow]; rfl⟩

/-- All that has been published is so, and what the processes are about to publish will be. -/
structure Told (s : State) : Prop where
  events : ∀ e ∈ s.store.redis.events, e.Holds s.store.db
  procs : ∀ (i : Nat) (p : Proc), s.procs[i]? = some p → p.Vouches s.store.db

theorem told_events (hI : Told s) (hC : Carried s) (hdb : s.store.db.Extends s'.store.db)
    (h : step env s a = some s') : ∀ e ∈ s'.store.redis.events, e.Holds s'.store.db := by
  intro e he
  rcases store_of_step h with ⟨pid, ch, c, x, hc, hx⟩ | ⟨_, _, hredis⟩
  · rw [Call.events_of_run hx] at he
    rcases List.mem_append.mp he with he | he
    · exact (hI.events e he).mono hdb
    · obtain ⟨p, hp, hpub⟩ := publishes_of_call? hc (Option.mem_toList.mp he)
      exact (holds_of_publishes hpub (hI.procs _ _ hp) fun job hjob => hC.type hp hjob).mono hdb
  · rw [hredis] at he
    exact (hI.events e he).mono hdb

theorem told_procs (hI : Told s) (hf : Fenced env s a) (hdb : s.store.db.Extends s'.store.db)
    (h : step env s a = some s') {i : Nat} {p' : Proc} (hp' : s'.procs[i]? = some p') :
    p'.Vouches s'.store.db := by
  cases became_of_step h hp' with
  | kept hp => exact (hI.procs i p' hp).mono hdb
  | spawned r hr =>
    rw [hr]
    exact vouches_toProc r
  | signalled p hp hr =>
    rw [hr]
    exact ((hI.procs i p hp).mono hdb).signal
  | crashed hr =>
    rw [hr]
    trivial
  | @ran p ch op hp hop he =>
    have hv := hI.procs i p hp
    have hmakes : MakesOp env (.run i ch) i ch p op := .inl ⟨rfl, hop⟩
    cases Proc.goes_of_next hop he with
    | @worker q q' opw hnext hcall hends =>
      refine Worker.vouches_of_goes (Worker.goes_of_next hnext hends) fun j v hc hfault => ?_
      have hc' : s.call? env (.run i ch) = some (i, .markJobSuccess j v) :=
        hc ▸ hcall ▸ call?_of_no_fault hp hmakes hfault
      obtain ⟨r, hr, _⟩ := (hf _ hc').1 j rfl
      obtain ⟨ch', x, hx⟩ := run_of_call? h hc'
      have hr' := Call.run_job?_of_update hx hr rfl (by simp [Database.id_of_job? hr])
      exact Database.status?_of_job? hr'
    | submit hnext _ hends => exact Submit.vouches_of_next hnext hends hdb hv
    | cancel hnext _ hends => exact Cancel.vouches_of_next hnext hends hdb hv
    | replay | scheduler | reaper => trivial

theorem told_of_reachable {t : Nat} (h : Reachable (Fenced env) (step env) (.init t) s) : Told s := by
  have hknown (s : State) (h : Reachable (Fenced env) (step env) (.init t) s) :
      s.store.db.LettersAgree ∧ Carried s := ⟨lettersAgree_of_reachable h, carried_of_reachable h⟩
  refine h.invariant_with hknown ?_ fun s a s' hJ hI hf hs => ?_
  · refine ⟨fun e he => ?_, fun i p hp => ?_⟩
    · cases he
    · cases hp
  · have hdb := extends_of_step hJ.1 hf hs
    exact ⟨told_events hI hJ.2 hdb hs, fun i p' hp' => told_procs hI hf hdb hs hp'⟩

/-! A success is announced once. -/

/-- A worker announces that `j` has succeeded. -/
def Event.succeeds (j : Uuid) : Event → Bool
  | jobStatusChanged k _ .success (some _) => k = j
  | _ => false

def Worker.Pc.succeeded? : Worker.Pc → Option Uuid
  | emitSuccess job => some job.id
  | _ => none

/-- The job whose success a worker is about to announce. -/
def Proc.succeeded? (p : Proc) : Option Uuid := p.ofPc Worker.Pc.succeeded?

def Proc.heralds (j : Uuid) (p : Proc) : Nat := indicator (p.succeeded? = some j)

theorem Worker.succeeded_of_goes {w : WorkerId} {pc pc' : Pc} {c : Call}
    (h : pc.Goes env w ch st st' c pc') (hj : pc'.succeeded? = some j) :
    ch.fault = .none ∧ ∃ v, c = .markJobSuccess j v := by
  have hfailure (job : LockedJob) (e : String) : (onFailure job e).succeeded? = none :=
    onFailure_cases (P := fun pc => pc.succeeded? = none) e (fun _ => rfl) fun _ => rfl
  have hsuccess (job : LockedJob) : (afterSuccess job).succeeded? = none :=
    afterSuccess_cases (P := fun pc => pc.succeeded? = none) (fun _ => rfl) rfl
  cases h with
  | succeeded hf =>
    cases hj
    exact ⟨hf, _, rfl⟩
  | raised | successFault => cases (hfailure _ _).symm.trans hj
  | emitSuccess => cases (hsuccess _).symm.trans hj
  | _ => cases hj

theorem succeeded_of_publishes {p : Proc} {e : Event} (h : p.Publishes pid e) (hj : e.succeeds j = true) :
    p.succeeded? = some j := by
  cases h with
  | @status p job x hjob hx =>
    cases x with
    | success =>
      rw [Proc.succeeded?, Proc.ofPc, hx rfl]
      exact congrArg some (of_decide_eq_true hj)
    | _ => cases hj
  | cancelled record =>
    obtain ⟨_, status, _, _⟩ := record
    cases status <;> cases hj
  | dead | submitted => cases hj

/-- The announcements of a success of `j`, made and still to be made. -/
def State.heralds (s : State) (j : Uuid) : Nat :=
  s.store.redis.events.countP (·.succeeds j) + tally (Proc.heralds j) s.procs

@[simp] theorem heralds_signal (p : Proc) : p.signal.heralds j = p.heralds j := by
  cases p <;> rfl

theorem heralds_run {p p' : Proc} {op : Op Proc} (hf : Fenced env s (.run pid ch)) (hp : s.procs[pid]? = some p)
    (hop : p.next env pid = some op) (he : op.Ends env ch s.store s'.store p')
    (h : step env s (.run pid ch) = some s')
    (hI : s.heralds j ≤ indicator (s.store.db.status? j = some .success))
    (htally : tally (Proc.heralds j) s'.procs + p.heralds j = tally (Proc.heralds j) s.procs + p'.heralds j)
    (hdb : s.store.db.Extends s'.store.db) :
    s'.heralds j ≤ indicator (s'.store.db.status? j = some .success) := by
  have hmono := indicator_mono fun h : s.store.db.status? j = some .success => hdb.status? h
  have hevents : s'.store.redis.events.countP (·.succeeds j) ≤
      s.store.redis.events.countP (·.succeeds j) + p.heralds j := by
    rcases events_of_ends he with hsame | ⟨e, hpub, hadd⟩
    · rw [hsame]
      exact Nat.le_add_right _ _
    · rw [hadd, List.countP_append]
      refine Nat.add_le_add_left ?_ _
      cases hj : e.succeeds j with
      | false => simp [hj]
      | true =>
        have hsucceeded := succeeded_of_publishes (publishes_of_next hop (congrArg Call.published? hpub)) hj
        rw [Proc.heralds, indicator_pos hsucceeded]
        simp [hj]
  by_cases hj : p'.succeeded? = some j
  · -- the success has just been written, on a row that was `RUNNING`
    cases Proc.goes_of_next hop he with
    | @worker q q' opw hnext hcall hends =>
      obtain ⟨hfault, v, hc⟩ := Worker.succeeded_of_goes (Worker.goes_of_next hnext hends) hj
      have hc' : s.call? env (.run pid ch) = some (pid, .markJobSuccess j v) :=
        hc ▸ hcall ▸ call?_of_no_fault hp (.inl ⟨rfl, hop⟩) hfault
      obtain ⟨r, hr, hrunning, _⟩ := (hf _ hc').1 j rfl
      obtain ⟨_, x, hx⟩ := run_of_call? h hc'
      have hr' := Call.run_job?_of_update hx hr rfl (by simp [Database.id_of_job? hr])
      have hbefore : s.store.db.status? j ≠ some .success := by
        rw [Database.status?_of_job? hr, hrunning]
        nofun
      have hafter : s'.store.db.status? j = some .success := Database.status?_of_job? hr'
      have hone := indicator_le_one (p := (Proc.worker q').succeeded? = some j)
      rw [indicator_neg hbefore, State.heralds] at hI
      rw [indicator_pos hafter, State.heralds]
      simp only [Proc.heralds] at htally hevents hI ⊢
      omega
    | submit | cancel | replay | scheduler | reaper => cases hj
  · have hzero : p'.heralds j = 0 := indicator_neg hj
    rw [State.heralds] at hI ⊢
    omega

theorem heralds_step (hL : s.store.db.LettersAgree) (hf : Fenced env s a) (h : step env s a = some s')
    (hI : s.heralds j ≤ indicator (s.store.db.status? j = some .success)) :
    s'.heralds j ≤ indicator (s'.store.db.status? j = some .success) := by
  have hdb := extends_of_step hL hf h
  have hmono := indicator_mono fun h : s.store.db.status? j = some .success => hdb.status? h
  cases shifts_of_step (f := Proc.heralds j) (indicator_neg nofun) heralds_signal
      (fun r => by cases r <;> exact indicator_neg nofun) h with
  | quiet hq htally =>
    rw [State.heralds, hq.redis, htally]
    exact hI.trans hmono
  | crashed hp hst htally =>
    rw [State.heralds] at hI ⊢
    rw [hst]
    omega
  | ran hp hop he htally => exact heralds_run hf hp hop he h hI htally hdb

theorem heralds_of_reachable {t : Nat} (h : Reachable (Fenced env) (step env) (.init t) s) (j : Uuid) :
    s.heralds j ≤ indicator (s.store.db.status? j = some .success) :=
  h.invariant_with (I := fun s => s.heralds j ≤ indicator (s.store.db.status? j = some .success))
    (fun _ h => lettersAgree_of_reachable h) (Nat.zero_le _) fun _ _ _ hL hI hf hs => heralds_step hL hf hs hI

/-! A worker that is announced to be dead has sent its last heartbeat. -/

theorem Worker.beats_of_emitDead {w : WorkerId} {pc' : Pc} {c : Call}
    (h : Pc.Goes env w ch st st' .emitDead c pc') :
    pc'.beats = false := by
  cases h
  rfl

theorem silent_of_published {w : WorkerId} (h : step env s a = some s')
    (hc : s.call? env a = some (pid, .publish (.workerDead w))) : s'.Silent w := by
  obtain ⟨ch, p, op, hp, ⟨rfl, hop⟩ | ⟨_, hop⟩, hcall⟩ := call?_eq_some hc
  · obtain ⟨p₁, p', op', hp₁, hop', he, _, hp'⟩ := ran_of_step h
    cases hp.symm.trans hp₁
    cases hop.symm.trans hop'
    cases publishes_of_next hop (congrArg Call.published? hcall) with
    | @dead q hq =>
      cases Proc.goes_of_next hop he with
      | worker hnext _ hends =>
        have hgoes := Worker.goes_of_next hnext hends
        rw [hq] at hgoes
        exact .inr ⟨_, hp', Worker.beats_of_emitDead hgoes⟩
  · obtain ⟨n, rfl⟩ := heartbeat_eq_some hop
    cases hcall

theorem silent_of_reachable {ok : State → Action → Prop} {t : Nat} (h : Reachable ok (step env) (.init t) s)
    {w : WorkerId} : .workerDead w ∈ s.store.redis.events → s.Silent w := by
  refine h.invariant (I := fun s => .workerDead w ∈ s.store.redis.events → s.Silent w) (fun h => by cases h) ?_
  intro s a s' hI _ hs hw
  rcases store_of_step hs with ⟨pid, ch, c, x, hc, hx⟩ | ⟨_, _, hredis⟩
  · rw [Call.events_of_run hx] at hw
    rcases List.mem_append.mp hw with hw | hw
    · exact silent_step (hI hw) hs
    · cases c with
      | publish e =>
        obtain rfl : Event.workerDead w = e := by simpa [Call.published?] using hw
        exact silent_of_published hs hc
      | _ => cases hw
  · exact silent_step (hI (hredis ▸ hw)) hs

end DistribuQ
