import DistribuQ.Proofs.Passes

/-! The passes of the reaper and of the scheduler, run on the same store at the same time. -/

namespace DistribuQ
open Transition
variable {env : Env} {pid : Nat} {st st' : Store} {p : Proc} {op : Op Proc} {r r' r'' : Redis}
  {q : Queue} {i j : Uuid}
  {xs ys : List (Queue × Uuid)}

/-- `r'` has the pushes `xs` on top of what `r` has. -/
def Redis.Pushed (xs : List (Queue × Uuid)) (r r' : Redis) : Prop :=
  ∀ q, (r'.lists q).Perm ((xs.filter fun x => x.1 = q).map Prod.snd ++ r.lists q)

namespace Redis

theorem pushed_refl : Pushed [] r r := fun _ => .refl _

theorem Pushed.trans (h : Pushed xs r r') (h' : Pushed ys r' r'') : Pushed (ys ++ xs) r r'' := by
  intro q
  rw [List.filter_append, List.map_append, List.append_assoc]
  exact (h' q).trans ((h q).append_left _)

theorem Pushed.perm (h : Pushed xs r r') (hxs : xs.Perm ys) : Pushed ys r r' := by
  intro q
  exact (h q).trans (((hxs.filter _).map _).append_right _)

theorem pushed_setList {l : List Uuid} (hl : l.Perm (j :: r.lists q)) :
    Pushed [(q, j)] r (r.setList q l) := by
  intro q'
  rw [lists_setList]
  by_cases hq : q = q'
  · subst hq
    simpa using hl
  · simp [hq, Function.update_of_ne (Ne.symm hq)]

theorem pushed_lpush : Pushed [(q, j)] r (r.lpush q j) := pushed_setList (.refl _)

theorem pushed_rpush : Pushed [(q, j)] r (r.rpush q j) :=
  pushed_setList (List.perm_append_singleton j _)

/-- Pushes on the same lists agree if they agree list by list. -/
theorem Pushed.perm_iff (h : Pushed xs r r') (h' : Pushed ys r r'') : (r'.lists q).Perm (r''.lists q) ↔
    ((xs.filter fun x => x.1 = q).map Prod.snd).Perm ((ys.filter fun x => x.1 = q).map Prod.snd) := by
  rw [(h q).congr_left, (h' q).congr_right, List.perm_append_right_iff]

end Redis

/-- The call returns at once. -/
def AtOnce (_ : Store × Proc) (m : Turn) : Prop := m.elapsed = 0 ∧ m.choice.fault = .none

instance (x : Store × Proc) (m : Turn) : Decidable (AtOnce x m) :=
  inferInstanceAs (Decidable (m.elapsed = 0 ∧ m.choice.fault = .none))

/-- The pass of `p` ends in `Q` if all of its calls return at once. -/
abbrev PassEnds (env : Env) (pid : Nat) (st : Store) (p : Proc) (Q : Store × Proc → Prop) : Prop :=
  Eventually (fun x => x.2.recovering = false) AtOnce (Solo.step env pid) (st, p) fun _ x => Q x

theorem Store.wait_zero : st.wait 0 = st := by
  unfold wait
  simp

theorem passEnds_call {Q : Store × Proc → Prop} (hp : p.recovering = true)
    (hop : p.next env pid = some op) (h : ∀ ch st' x, op.call.run env ch st = some (st', x) →
        PassEnds env pid st' (op.resume (.ok x)) Q) :
    PassEnds env pid st p Q := by
  obtain ⟨m, x, hm, hf, _, _, hs⟩ := Solo.exists_step hop (.ok .null) default st
  refine Solo.eventually_call (by rw [hp]; nofun) hop ⟨m, x, ⟨hm, hf⟩, hs⟩ fun m st' p' hm he => ?_
  obtain ⟨x, hrun, rfl⟩ := he.of_no_fault hm.2
  rw [hm.1, Store.wait_zero] at hrun
  exact h m.choice st' x hrun

theorem passEnds_done {Q : Store × Proc → Prop} (hp : p.recovering = false) (h : Q (st, p)) :
    PassEnds env pid st p Q :=
  .done hp h

/-! The loops of a pass over a batch. -/

/-- A loop that pushes each job of its batch in turn adds one push for each. -/
theorem passEnds_pushLoop {α : Type} {token : α → Queue × Uuid} (loop : List α → Proc)
    {Q : Store × Proc → Prop} (hdone : (loop []).recovering = false)
    (hloop : ∀ y ys, (loop (y :: ys)).recovering = true ∧ ∃ f, (∀ x, f (.ok x) = loop ys) ∧
      (loop (y :: ys)).next env pid = some ⟨.lpush (token y).1 (token y).2, f⟩)
    (ys : List α) (h : ∀ rd : Redis, Redis.Pushed (ys.map token) st.redis rd →
      rd.processing = st.redis.processing → Q ({ st with redis := rd }, loop [])) :
    PassEnds env pid st (loop ys) Q := by
  induction ys generalizing st with
  | nil => exact passEnds_done hdone (h st.redis Redis.pushed_refl rfl)
  | cons y ys ih =>
    obtain ⟨hrecovering, f, hf, hnext⟩ := hloop y ys
    refine passEnds_call hrecovering hnext fun ch st' x hrun => ?_
    dsimp only
    rw [hf x]
    cases hrun
    refine ih fun rd hrd hprocessing => h rd ?_ hprocessing
    have hpushed := Redis.pushed_lpush.trans hrd
    exact hpushed.perm (List.perm_append_singleton _ _)

namespace Scheduler
variable {Q : Store × Proc → Prop} {s : Scheduler}

def staleToken (y : StaleJob) : Queue × Uuid := (Queue.ofPriority y.priority, y.id)

def retryToken (y : DueRetry) : Queue × Uuid := (Queue.ofPriority y.priority, y.id)

theorem passEnds_staleLoop (ys : List StaleJob)
    (h : ∀ rd : Redis, Redis.Pushed (ys.map staleToken) st.redis rd →
      rd.processing = st.redis.processing → Q ({ st with redis := rd }, .scheduler (s.at' .loop))) :
    PassEnds env pid st (.scheduler (s.at' (staleLoop ys))) Q := by
  refine passEnds_pushLoop (fun ys => .scheduler (s.at' (staleLoop ys))) rfl (fun y ys => ?_) ys h
  exact ⟨rfl, _, fun _ => rfl, rfl⟩

theorem passEnds_retryLoop (ys : List DueRetry)
    (h : ∀ rd : Redis, Redis.Pushed (ys.map retryToken) st.redis rd →
      rd.processing = st.redis.processing →
      Q ({ st with redis := rd }, .scheduler (s.at' .monotonic))) :
    PassEnds env pid st (.scheduler (s.at' (retryLoop ys))) Q := by
  refine passEnds_pushLoop (fun ys => .scheduler (s.at' (retryLoop ys))) rfl (fun y ys => ?_) ys h
  exact ⟨rfl, _, fun _ => rfl, rfl⟩

end Scheduler

namespace Reaper
variable {Q : Store × Proc → Prop} {p : Reaper}

def staleToken (y : StaleJob) : Queue × Uuid := (.default, y.id)

def retryToken (y : DueRetry) : Queue × Uuid := (.default, y.id)

theorem passEnds_staleLoop (ys : List StaleJob)
    (h : ∀ rd : Redis, Redis.Pushed (ys.map staleToken) st.redis rd →
      rd.processing = st.redis.processing.diff (ys.map StaleJob.id) →
      PassEnds env pid { st with redis := rd } (.reaper (p.at' .retries)) Q) :
    PassEnds env pid st (.reaper (p.at' (staleLoop ys))) Q := by
  induction ys generalizing st with
  | nil => exact h st.redis Redis.pushed_refl rfl
  | cons y ys ih =>
    refine passEnds_call rfl rfl fun ch st' x hrun => ?_
    cases hrun
    refine passEnds_call rfl rfl fun ch st' x hrun => ?_
    cases hrun
    refine ih fun rd hrd hprocessing => h rd ?_ (hprocessing.trans ?_)
    · have hpush : Redis.Pushed [staleToken y] st.redis ((st.redis.lremProcessing y.id).rpush .default y.id) :=
        Redis.pushed_rpush (r := st.redis.lremProcessing y.id)
      exact (hpush.trans hrd).perm (List.perm_append_singleton _ _)
    · rw [List.map_cons, List.diff_cons]
      rfl

theorem passEnds_retryLoop (ys : List DueRetry)
    (h : ∀ rd : Redis, Redis.Pushed (ys.map retryToken) st.redis rd →
      rd.processing = st.redis.processing → Q ({ st with redis := rd }, .reaper (p.at' .loop))) :
    PassEnds env pid st (.reaper (p.at' (retryLoop ys))) Q := by
  refine passEnds_pushLoop (fun ys => .reaper (p.at' (retryLoop ys))) rfl (fun y ys => ?_) ys h
  exact ⟨rfl, _, fun _ => rfl, rfl⟩

end Reaper

/-! The three queries of a pass, and the rows that the last two take. -/

namespace Database

def expired (db : Database) (env : Env) (now : Time) : Database :=
  (db.markExpiredWorkersDead now env.workerTimeoutSec).1

def staleRows (db : Database) (env : Env) (now : Time) : List Job :=
  (db.expired env now).jobs.select ((db.expired env now).stale now env.visibilityTimeoutSec)

def reclaimed (db : Database) (env : Env) (now : Time) : Database :=
  ((db.expired env now).reclaimStaleJobs now env.visibilityTimeoutSec).1

def dueRows (db : Database) (now : Time) : List Job := db.jobs.select fun r => r.dueRetry now

/-- The stale reclaim takes no job that is due for a retry, and makes none due. -/
theorem mem_dueRows_reclaimed {db : Database} {now : Time} {r : Job} :
    r ∈ (db.reclaimed env now).dueRows now ↔ r ∈ db.dueRows now := by
  have hrows : (db.reclaimed env now).jobs.rows = db.jobs.rows.map fun r =>
      if (db.expired env now).stale now env.visibilityTimeoutSec r then r.release.touch now else r := rfl
  unfold dueRows Table.select
  rw [List.mem_filter, List.mem_filter, hrows, List.mem_map]
  constructor
  · rintro ⟨⟨r₀, hr₀, rfl⟩, hdue⟩
    split_ifs at hdue ⊢ with hstale
    · cases Job.retrying_of_dueRetry hdue
    · exact ⟨hr₀, hdue⟩
  · rintro ⟨hr, hdue⟩
    refine ⟨⟨r, hr, if_neg fun hstale => ?_⟩, hdue⟩
    cases (running_of_stale hstale).symm.trans (Job.retrying_of_dueRetry hdue)

end Database

/-- The id of a row, for the reaper's queue and for the queue of its priority. -/
def Job.toSource (r : Job) : Queue × Uuid := (.default, r.id)

def Job.toOwnQueue (r : Job) : Queue × Uuid := (Queue.ofPriority r.priority, r.id)

section
variable {db : Database} {now : Time} {ids : List Uuid} {n : Nat}

theorem perm_inOrder_map {α β : Type} {key : α → Uuid} {f : Job → α} {g : α → β} {h : Job → β}
    {rows : List Job}
    (hg : ∀ r, g (f r) = h r) : ((Table.inOrder key ids (rows.map f)).map g).Perm (rows.map h) := by
  refine ((Table.perm_inOrder ids _).map g).trans (.of_eq ?_)
  rw [List.map_map]
  exact List.map_congr_left fun r _ => hg r

end

/-- What `run_once` does with the timeouts of the scheduler. -/
theorem Reaper.passEnds_runOnce {p : Reaper} (hv : p.visibilityTimeoutSec = env.visibilityTimeoutSec)
    (hw : p.heartbeatTimeoutSec = env.workerTimeoutSec) :
    PassEnds env pid st (Pass.runOnce p).start fun x =>
      x.1.db = ((st.db.reclaimed env st.clock).reclaimDueRetryJobs st.clock).1 ∧
        Redis.Pushed (((st.db.reclaimed env st.clock).dueRows st.clock ++
          st.db.staleRows env st.clock).map Job.toSource)
          st.redis x.1.redis ∧
        x.1.redis.processing = st.redis.processing.diff
          ((st.db.staleRows env st.clock).map Job.id) := by
  obtain ⟨v, b, pc, running⟩ := p
  obtain rfl : v = env.visibilityTimeoutSec := hv
  obtain rfl : b = env.workerTimeoutSec := hw
  refine passEnds_call rfl rfl fun ch st₁ x hrun => ?_
  cases hrun
  refine passEnds_call rfl rfl fun ch st₂ x hrun => ?_
  cases hrun
  refine Reaper.passEnds_staleLoop _ fun rd hrd hprocessing => ?_
  refine passEnds_call rfl rfl fun ch' st₃ x hrun => ?_
  cases hrun
  refine Reaper.passEnds_retryLoop _ fun rd' hrd' hprocessing' => ?_
  refine ⟨rfl, ?_, ?_⟩
  · rw [List.map_append]
    refine Redis.Pushed.trans (hrd.perm ?_) (hrd'.perm ?_)
    · exact perm_inOrder_map fun _ => rfl
    · exact perm_inOrder_map fun _ => rfl
  · rw [hprocessing', hprocessing]
    exact List.Perm.diff_left _ (perm_inOrder_map fun _ => rfl)

theorem Scheduler.passEnds_runReaper {s : Scheduler} :
    PassEnds env pid st (Pass.runReaper s).start fun x =>
    x.1.db = st.db.reclaimed env st.clock ∧ x.1.clock = st.clock ∧
      Redis.Pushed ((st.db.staleRows env st.clock).map Job.toOwnQueue) st.redis x.1.redis ∧
      x.1.redis.processing = st.redis.processing := by
  refine passEnds_call rfl rfl fun ch st₁ x hrun => ?_
  cases hrun
  refine passEnds_call rfl rfl fun ch st₂ x hrun => ?_
  cases hrun
  refine Scheduler.passEnds_staleLoop _ fun rd hrd hprocessing => ?_
  exact ⟨rfl, rfl, hrd.perm (perm_inOrder_map fun _ => rfl), hprocessing⟩

theorem Scheduler.passEnds_promoteRetries {s : Scheduler} :
    PassEnds env pid st (Pass.promoteRetries s).start fun x =>
    x.1.db = (st.db.reclaimDueRetryJobs st.clock).1 ∧
      Redis.Pushed ((st.db.dueRows st.clock).map Job.toOwnQueue) st.redis x.1.redis ∧
      x.1.redis.processing = st.redis.processing := by
  refine passEnds_call rfl rfl fun ch st₁ x hrun => ?_
  cases hrun
  refine Scheduler.passEnds_retryLoop _ fun rd hrd hprocessing => ?_
  exact ⟨rfl, hrd.perm (perm_inOrder_map fun _ => rfl), hprocessing⟩

/-- The same tables, and the same ids in each list. -/
def Store.Agrees (st st' : Store) : Prop :=
  st.db = st'.db ∧ (∀ q, (st.redis.lists q).Perm (st'.redis.lists q)) ∧
    st.redis.processing.Perm st'.redis.processing

/-- Every job that a pass takes has the priority 0, and no stale one is in `queue:processing`. -/
def Store.Uniform (env : Env) (st : Store) : Prop :=
  (∀ r ∈ st.db.staleRows env st.clock, r.priority = 0 ∧ r.id ∉ st.redis.processing) ∧
    ∀ r ∈ st.db.dueRows st.clock, r.priority = 0

instance (env : Env) (st : Store) : Decidable (st.Uniform env) :=
  inferInstanceAs (Decidable ((∀ r ∈ st.db.staleRows env st.clock, _) ∧
    ∀ r ∈ st.db.dueRows st.clock, _))

theorem Queue.ofPriority_eq_default {n : Int} : Queue.ofPriority n = .default ↔ n = 0 := by
  unfold ofPriority
  split_ifs with hpos hneg
  · exact iff_of_false nofun (by omega)
  · exact iff_of_false nofun (by omega)
  · exact iff_of_true rfl (by omega)

/-- The queues of the priorities are the one source queue only if each priority is 0. -/
theorem perm_toSource_iff {rows : List Job} :
    (∀ q, (((rows.map Job.toSource).filter fun x => x.1 = q).map Prod.snd).Perm
      (((rows.map Job.toOwnQueue).filter fun x => x.1 = q).map Prod.snd)) ↔
          ∀ r ∈ rows, r.priority = 0 := by
  constructor
  · intro h r hr
    by_contra hp
    have hq : Queue.ofPriority r.priority ≠ .default := mt Queue.ofPriority_eq_default.mp hp
    have hempty : (rows.map Job.toSource).filter (fun x => x.1 = Queue.ofPriority r.priority) = [] := by
      refine List.filter_eq_nil_iff.mpr fun x hx => ?_
      obtain ⟨r', _, rfl⟩ := List.mem_map.mp hx
      rw [decide_eq_true_eq]
      exact hq.symm
    have hkept : r.toOwnQueue ∈ (rows.map Job.toOwnQueue).filter fun x => x.1 = Queue.ofPriority r.priority :=
      List.mem_filter.mpr ⟨List.mem_map_of_mem hr, by simp [Job.toOwnQueue]⟩
    have hmem := List.mem_map_of_mem (f := Prod.snd) hkept
    have hperm := h (Queue.ofPriority r.priority)
    rw [hempty, List.map_nil, List.nil_perm] at hperm
    rw [hperm] at hmem
    cases hmem
  · intro h q
    have hsame : rows.map Job.toSource = rows.map Job.toOwnQueue := by
      refine List.map_congr_left fun r hr => ?_
      rw [Job.toSource, Job.toOwnQueue, Queue.ofPriority_eq_default.mpr (h r hr)]
    rw [hsame]

theorem diff_perm_iff {l l' : List Uuid} : (l.diff l').Perm l ↔ ∀ j ∈ l', j ∉ l := by
  rw [List.perm_iff_count]
  constructor
  · intro h j hj' hj
    have hcount := h j
    have hpos := List.count_pos_iff.mpr hj
    have hpos' := List.count_pos_iff.mpr hj'
    rw [List.count_diff] at hcount
    omega
  · intro h j
    rw [List.count_diff]
    by_cases hj : j ∈ l'
    · rw [List.count_eq_zero_of_not_mem (h j hj), Nat.zero_sub]
    · rw [List.count_eq_zero_of_not_mem hj, Nat.sub_zero]

/-- One pass of the reaper against the two of the scheduler. -/
abbrev RecoveriesAgree (env : Env) (i k : Nat) (p : Reaper) (s : Scheduler) (st : Store) : Prop :=
  PassEnds env i st (Pass.runOnce p).start fun x =>
    PassEnds env k st (Pass.runReaper s).start fun y =>
      PassEnds env k y.1 (Pass.promoteRetries s).start fun z => x.1.Agrees z.1

/-- The two components agree if and only if the jobs they take have priority 0 and the stale ones are not in
`queue:processing`. -/
theorem recoveriesAgree_iff (env : Env) (i k : Nat) (st : Store) (p : Reaper) (s : Scheduler)
    (hv : p.visibilityTimeoutSec = env.visibilityTimeoutSec)
    (hw : p.heartbeatTimeoutSec = env.workerTimeoutSec) :
    RecoveriesAgree env i k p s st ↔ st.Uniform env := by
  refine eventually_iff ((Reaper.passEnds_runOnce hv hw).mono fun _ x hx => ?_)
  obtain ⟨hdb, hpushed, hprocessing⟩ := hx
  refine eventually_iff (Scheduler.passEnds_runReaper.mono fun _ y hy => ?_)
  obtain ⟨hdb', hclock', hpushed', hprocessing'⟩ := hy
  refine eventually_iff (Scheduler.passEnds_promoteRetries.mono fun _ z hz => ?_)
  obtain ⟨hdb'', hpushed'', hprocessing''⟩ := hz
  rw [hdb', hclock'] at hdb'' hpushed''
  have hz := hpushed'.trans hpushed''
  rw [← List.map_append] at hz
  show x.1.Agrees z.1 ↔ st.Uniform env
  unfold Store.Agrees
  rw [hdb, hdb'', hprocessing, hprocessing'', hprocessing', diff_perm_iff, and_iff_right rfl,
    forall_congr' fun q => hpushed.perm_iff hz (q := q), perm_toSource_iff]
  unfold Store.Uniform
  constructor
  · rintro ⟨hpriority, hmem⟩
    refine ⟨fun r hr => ⟨?_, ?_⟩, fun r hr => ?_⟩
    · exact hpriority r (List.mem_append_right _ hr)
    · exact hmem _ (List.mem_map_of_mem hr)
    · exact hpriority r (List.mem_append_left _ (Database.mem_dueRows_reclaimed.mpr hr))
  · rintro ⟨hstale, hdue⟩
    refine ⟨fun r hr => ?_, fun j hj => ?_⟩
    · rcases List.mem_append.mp hr with hr | hr
      · exact hdue r (Database.mem_dueRows_reclaimed.mp hr)
      · exact (hstale r hr).1
    · obtain ⟨r, hr, rfl⟩ := List.mem_map.mp hj
      exact (hstale r hr).2

theorem recoveriesAgree_iff_retriable : RecoveriesAgree minutely 0 0 {} {} (retriable report) :=
  (recoveriesAgree_iff minutely 0 0 (retriable report) {} {} rfl rfl).mpr (by decide)

def pressing : JobCreateRequest := { report with priority := 5 }

/-- Job 7 is due to be retried and has priority 5: the reaper pushes it onto `queue:default`. -/
theorem not_recoveriesAgree : ¬ RecoveriesAgree minutely 0 0 {} {} (retriable pressing) := by
  intro hall
  have hreaper := hall.of_run (run_get (List.replicate 4 {}) (by decide)) (by decide)
  have hscheduler := hreaper.of_run (run_get (List.replicate 2 {}) (by decide)) (by decide)
  have hagrees := hscheduler.of_run (run_get (List.replicate 2 {}) (by decide)) (by decide)
  exact absurd (hagrees.2.1 .default) (by decide)

end DistribuQ
