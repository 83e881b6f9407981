import DistribuQ.Proofs.Solo

/-! What a submission leaves behind when calls raise. -/

namespace DistribuQ
open Transition
variable {env : Env} {pid : Nat} {st st₁ st' : Store} {req : JobCreateRequest} {i j : Uuid}

/-- The queue that the request is for refers to `j`. -/
def JobCreateRequest.Queued (req : JobCreateRequest) (j : Uuid) (r : Redis) : Prop :=
  match req.scheduledFor with
  | none => j ∈ r.lists (Queue.ofPriority req.priority)
  | some t => (j, t) ∈ r.scheduled.entries

/-- No row was added, or one `PENDING` row that the queue of the request refers to. -/
def AllOrNothing (req : JobCreateRequest) (st st' : Store) : Prop :=
  st'.db = st.db ∨ ∃ now id, st'.db.jobs.rows = st.db.jobs.rows ++ [req.toNewJob.toJob now id] ∧
    req.Queued id st'.redis

def Proc.answered : Proc → Bool
  | submit .finished => true
  | _ => false

/-- `submit_job` comes to its end, whichever of its calls raise without an effect. -/
abbrev Submit.Finishes (env : Env) (pid : Nat) (st : Store) (pc : Submit.Pc)
    (Q : List ((Store × Proc) × Turn) → Store × Proc → Prop) : Prop :=
  Eventually (fun x => x.2.answered = true) NoLoss (Solo.step env pid)
    (st, .submit pc) Q

/-- Each push that raises is of an id that the queue referred to before. -/
def PushesMissed (env : Env) (pid : Nat) (req : JobCreateRequest) (r : Redis)
    (tr : List ((Store × Proc) × Turn)) : Prop :=
  ∀ y ∈ tr, ∀ c ∈ Solo.raised? env pid y.1 y.2, ∀ j ∈ c.put?, req.Queued j r

namespace Submit
variable {Q : List ((Store × Proc) × Turn) → Store × Proc → Prop}

theorem next_proc (env : Env) (pid : Nat) {pc : Pc} {op : Op Pc} (hop : next pc = some op) :
    (Proc.submit pc).next env pid = some (op.map .submit) := by
  rw [Proc.next, hop, Option.map_some]

theorem finishes_call {pc : Pc} {op : Op Pc} (hop : next pc = some op)
    (h : ∀ m st' pc', NoLoss (st, .submit pc) m → op.Ends env m.choice (st.wait m.elapsed) st' pc' →
      Finishes env pid st' pc' fun tr => Q (((st, .submit pc), m) :: tr)) :
    Finishes env pid st pc Q := by
  have hnext := next_proc env pid hop
  obtain ⟨m, x, _, hm, _, _, hs⟩ := Solo.exists_step hnext (.ok .null) default st
  refine Solo.eventually_call ?_ hnext ⟨m, x, noLoss_of_none hm _, hs⟩ fun m st' p' hm he => ?_
  · intro h
    cases pc with
    | finished => cases hop
    | _ => cases h
  · obtain ⟨pc', rfl, hends⟩ := he.of_map
    exact h m st' pc' hm hends

theorem pushesMissed_nil {r : Redis} : PushesMissed env pid req r [] :=
  fun _ hy => absurd hy List.not_mem_nil

theorem pushesMissed_cons {pc : Pc} {op : Op Pc} {m : Turn} {r : Redis}
    {tr : List ((Store × Proc) × Turn)}
    (hop : next pc = some op) (hc : op.call.put? = none ∨ m.choice.fault = .none) :
    PushesMissed env pid req r (((st, .submit pc), m) :: tr) ↔ PushesMissed env pid req r tr := by
  unfold PushesMissed
  rw [List.forall_mem_cons, and_iff_right]
  intro c hr j hj
  obtain ⟨rfl, _, e, he⟩ := (Solo.raised?_eq_some (next_proc env pid hop)).mp hr
  rcases hc with hc | hc
  · cases hc.symm.trans hj
  · cases hc.symm.trans he

theorem queued_congr {r r' : Redis} (hlists : r'.lists = r.lists)
    (hscheduled : r'.scheduled = r.scheduled) :
    req.Queued j r' ↔ req.Queued j r := by
  unfold JobCreateRequest.Queued
  rw [hlists, hscheduled]

theorem queued_push {ch : Choice} {op : Op Pc} {pc : Pc} (hop : next (.push req j) = some op)
    (he : op.Ends env ch st st' pc) (hl : ch.fault.isLost = false) :
    st'.db = st.db ∧ op.call.put? = some j ∧ op.call.isLocal = false ∧
      (ch.fault = .none ∧ pc = .emit req j ∧ req.Queued j st'.redis ∨
        (∃ e, ch.fault = .raised e) ∧ pc = .finished ∧ st' = st) := by
  unfold JobCreateRequest.Queued
  cases does_of_next hop with
  | push hs =>
    rw [hs]
    cases he with
    | returned hf hr =>
      cases hr
      refine ⟨rfl, rfl, rfl, .inl ⟨hf.resolve_right nofun, rfl, ?_⟩⟩
      dsimp only [Redis.lpush]
      rw [Redis.lists_setList, Function.update_self]
      exact List.mem_cons_self
    | raised hf => exact ⟨rfl, rfl, rfl, .inr ⟨⟨_, hf⟩, rfl, rfl⟩⟩
    | lost hf =>
      rw [hf] at hl
      cases hl
  | schedule hs =>
    rw [hs]
    cases he with
    | returned hf hr =>
      cases hr
      refine ⟨rfl, rfl, rfl, .inl ⟨hf.resolve_right nofun, rfl, ?_⟩⟩
      exact SortedSet.mem_entries_add.mpr (.inl rfl)
    | raised hf => exact ⟨rfl, rfl, rfl, .inr ⟨⟨_, hf⟩, rfl, rfl⟩⟩
    | lost hf =>
      rw [hf] at hl
      cases hl

theorem finishes_emit {now : Time}
    (hrows : st.db.jobs.rows = st₁.db.jobs.rows ++ [req.toNewJob.toJob now j])
    (hq : req.Queued j st.redis) : Finishes env pid st (.emit req j) fun tr x =>
      AllOrNothing req st₁ x.1 ∧ PushesMissed env pid req st₁.redis tr := by
  refine finishes_call rfl fun m st' pc' _ he => ?_
  have hkept : pc' = .finished ∧ st'.db = st.db ∧ st'.redis.lists = st.redis.lists ∧
      st'.redis.scheduled = st.redis.scheduled := by
    cases he with
    | returned _ hr | lost _ _ hr =>
      cases hr
      exact ⟨rfl, rfl, rfl, rfl⟩
    | raised => exact ⟨rfl, rfl, rfl, rfl⟩
  obtain ⟨rfl, hdb, hlists, hscheduled⟩ := hkept
  refine .done rfl ⟨.inr ⟨now, j, ?_, (queued_congr hlists hscheduled).mpr hq⟩, ?_⟩
  · rw [hdb, hrows]
  · exact (pushesMissed_cons rfl (.inl rfl)).mpr pushesMissed_nil

/-- The push, with the row already in its table. -/
theorem finishes_push {now : Time} (hredis : st.redis = st₁.redis)
    (hrows : st.db.jobs.rows = st₁.db.jobs.rows ++ [req.toNewJob.toJob now j]) :
    Finishes env pid st (.push req j) fun tr x =>
      AllOrNothing req st₁ x.1 ↔ PushesMissed env pid req st₁.redis tr := by
  obtain ⟨op, hop⟩ : ∃ op, next (.push req j) = some op := by
    unfold next
    dsimp only
    split <;> exact ⟨_, rfl⟩
  refine finishes_call hop fun m st' pc' hl he => ?_
  obtain ⟨hdb, hput, hlocal, ⟨hf, rfl, hq⟩ | ⟨hf, rfl, rfl⟩⟩ := queued_push hop he hl
  · have hrows' : st'.db.jobs.rows = st₁.db.jobs.rows ++ [req.toNewJob.toJob now j] := by
      rw [hdb]
      exact hrows
    refine (finishes_emit hrows' hq).mono fun tr x h => ?_
    rw [pushesMissed_cons hop (.inr hf)]
    exact iff_of_true h.1 h.2
  · -- the row is there, and nothing has referred to it since
    have hraised : Solo.raised? env pid (st, .submit (.push req j)) m = some op.call :=
      (Solo.raised?_eq_some (next_proc env pid hop)).mpr ⟨rfl, hlocal, hf⟩
    refine .done rfl ⟨?_, ?_⟩
    · rintro (hsame | ⟨now', id, hrows', hq⟩)
      · have hrows' := congrArg (fun db : Database => db.jobs.rows.length) hsame
        simp [Store.wait, hrows] at hrows'
      · have hrow : req.toNewJob.toJob now j = req.toNewJob.toJob now' id := by
          have := hrows.symm.trans hrows'
          simpa using this
        obtain rfl : j = id := congrArg Job.id hrow
        intro y hy c hc k hk
        cases List.mem_singleton.mp hy
        cases hraised.symm.trans hc
        cases hput.symm.trans hk
        rw [← hredis]
        exact hq
    · intro h
      have hq := h _ (List.mem_singleton_self _) _ hraised _ hput
      refine .inr ⟨now, j, hrows, ?_⟩
      rw [← hredis] at hq
      exact hq

theorem finishes_create (hdb : st.db = st₁.db) (hredis : st.redis = st₁.redis) :
    Finishes env pid st (.create req) fun tr x =>
      AllOrNothing req st₁ x.1 ↔ PushesMissed env pid req st₁.redis tr := by
  refine finishes_call rfl fun m st' pc' hl he => ?_
  cases he with
  | @returned _ row _ hr =>
    simp only [Call.run, Option.map_eq_some_iff, Prod.exists, Prod.mk.injEq] at hr
    obtain ⟨db, row', hinsert, rfl, rfl⟩ := hr
    have hrow := (Database.insertJob_eq_some hinsert).1
    have hrows : db.jobs.rows = st₁.db.jobs.rows ++
        [req.toNewJob.toJob (st.wait m.elapsed).clock m.choice.freshId] := by
      rw [← hdb]
      unfold Database.createJob Database.insertJob at hinsert
      split_ifs at hinsert
      cases hinsert
      rfl
    subst hrow
    have hpush : Finishes env pid { st.wait m.elapsed with db := db } (.push req m.choice.freshId)
        fun tr x => AllOrNothing req st₁ x.1 ↔ PushesMissed env pid req st₁.redis tr :=
      finishes_push hredis hrows
    refine hpush.mono fun tr x h => ?_
    rwa [pushesMissed_cons rfl (.inl rfl)]
  | raised =>
    refine .done rfl (iff_of_true (.inl hdb) ?_)
    exact (pushesMissed_cons rfl (.inl rfl)).mpr pushesMissed_nil
  | lost hf => exact absurd hl (not_noLoss hf _)

/-- The check of the recurrence rule leaves the store as it is. -/
theorem kept_of_validate {ch : Choice} {op : Op Pc} {pc : Pc} (hop : next (.validate req) = some op)
    (he : op.Ends env ch st st' pc) : op.call.put? = none ∧ st' = st ∧ (pc = .create req ∨ pc = .finished) := by
  cases does_of_next hop with
  | check =>
    cases he with
    | @returned _ r _ hr =>
      obtain rfl : st = st' := congrArg Prod.fst (Option.some.inj hr)
      cases r with
      | none => exact ⟨rfl, rfl, .inr rfl⟩
      | some t => exact ⟨rfl, rfl, .inl rfl⟩
    | raised _ hl => cases hl
    | lost _ hl => cases hl
  | uncheck =>
    cases he with
    | returned _ hr =>
      cases hr
      exact ⟨rfl, rfl, .inl rfl⟩
    | raised _ hl => cases hl
    | lost _ hl => cases hl

end Submit

/-- A submission is all or nothing if and only if the push that follows its insert returns, or raises when
the queue refers to the new id anyway. -/
theorem allOrNothing_iff (env : Env) (pid : Nat) (st : Store) (req : JobCreateRequest) :
    Submit.Finishes env pid st (.validate req) fun tr x =>
      AllOrNothing req st x.1 ↔ PushesMissed env pid req st.redis tr := by
  obtain ⟨op, hop⟩ : ∃ op, Submit.next (.validate req) = some op := by
    unfold Submit.next
    dsimp only
    split
    · split_ifs <;> exact ⟨_, rfl⟩
    · exact ⟨_, rfl⟩
  refine Submit.finishes_call hop fun m st' pc' _ he => ?_
  obtain ⟨hput, rfl, rfl | rfl⟩ := Submit.kept_of_validate hop he
  · have hcreate : Submit.Finishes env pid (st.wait m.elapsed) (.create req) fun tr x =>
        AllOrNothing req st x.1 ↔ PushesMissed env pid req st.redis tr := Submit.finishes_create rfl rfl
    refine hcreate.mono fun tr x h => ?_
    rwa [Submit.pushesMissed_cons hop (.inl hput)]
  · refine .done rfl (iff_of_true (.inl rfl) ?_)
    exact (Submit.pushesMissed_cons hop (.inl hput)).mpr Submit.pushesMissed_nil

/-- Job 7 is inserted and its push raises. -/
theorem not_allOrNothing :
    ¬ Submit.Finishes minutely 0 (State.init 0).store (.validate report) fun _ x =>
      AllOrNothing report (State.init 0).store x.1 := by
  intro hall
  obtain ⟨tr, x, h, hx⟩ : ∃ tr x, Run (Going (fun x => x.2.answered = true) NoLoss)
      (Solo.step minutely 0) ((State.init 0).store, .submit (.validate report)) tr x ∧ _ :=
    exists_run_of_exec [{}, { choice := { freshId := 7 } },
      { choice := { fault := .raised "connection refused" } }]
      (fun _ x => x.1.db.jobs.rows.length = 1 ∧ x.1.redis.lists .default = [] ∧ x.2.answered = true)
      (by decide)
  obtain ⟨hrows, hlist, hstop⟩ := of_decide_eq_true hx
  rcases hall.of_run h hstop with hdb | ⟨_, id, _, hq⟩
  · rw [hdb] at hrows
    cases hrows
  · have hq : id ∈ x.1.redis.lists .default := hq
    rw [hlist] at hq
    cases hq

end DistribuQ
