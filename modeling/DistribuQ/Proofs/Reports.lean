import DistribuQ.Model.Reports
import DistribuQ.Library.Ranks
import DistribuQ.Proofs.Budget

/-! What the API reports of dead letters and of the numbers of jobs, in any state of a run. -/

namespace DistribuQ
open Transition Ranks
variable {env : Env} {s s' : State} {a : Action} {j : Uuid} {r r' : Job} {d : DeadLetter} {x : JobStatus}

/-! The counts. -/

section
variable {κ β : Type} [DecidableEq κ] (f : κ → β)

theorem lookup_map_pair (keys : List κ) (k : κ) :
    (keys.map fun k => (k, f k)).lookup k = if k ∈ keys then some (f k) else none := by
  induction keys with
  | nil => rfl
  | cons k' keys ih =>
    rw [List.map_cons, List.lookup_cons]
    by_cases hk : k = k'
    · subst hk
      simp
    · have hbeq : (k == k') = false := beq_false_of_ne hk
      simp [hbeq, hk, ih]

theorem foldl_update_pair (keys : List κ) (base : κ → β) (k : κ) :
    (keys.map fun k => (k, f k)).foldl (fun base row => Function.update base row.1 row.2) base k =
      if k ∈ keys then f k else base k := by
  induction keys generalizing base with
  | nil => rfl
  | cons k' keys ih =>
    rw [List.map_cons, List.foldl_cons, ih]
    by_cases hmem : k ∈ keys
    · simp [hmem]
    · by_cases hk : k = k'
      · subst hk
        simp [hmem]
      · simp [hmem, hk]

end

namespace Job
variable {rows : List Job}

/-- The groups read as a dictionary give the count of each status, and 0 where there is no group. -/
theorem lookup_groupByStatus (rows : List Job) (x : JobStatus) :
    ((groupByStatus rows).lookup x).getD 0 = rows.countP fun r => r.status = x := by
  rw [groupByStatus, lookup_map_pair fun s => rows.countP fun r => r.status = s]
  by_cases hx : x ∈ (rows.map status).dedup
  · rw [if_pos hx]
    rfl
  · rw [if_neg hx]
    have hnone : ∀ r ∈ rows, ¬ decide (r.status = x) = true := by
      intro r hr hs
      exact hx (List.mem_dedup.mpr (List.mem_map.mpr ⟨r, hr, of_decide_eq_true hs⟩))
    exact (List.countP_eq_zero.mpr hnone).symm

theorem getJobCounts_eq (db : Database) (x : JobStatus) :
    db.getJobCounts x = db.jobs.rows.countP fun r => r.status = x := by
  rw [Database.getJobCounts, groupByStatus, foldl_update_pair fun s => db.jobs.rows.countP fun r =>
    r.status = s,
    ← lookup_groupByStatus, groupByStatus, lookup_map_pair fun s => db.jobs.rows.countP fun r => r.status = s]
  split_ifs <;> rfl

theorem countP_status_add (rows : List Job) :
    rows.countP (fun r => r.status = .pending) + rows.countP (fun r => r.status = .running) +
      rows.countP (fun r => r.status = .success) + rows.countP (fun r => r.status = .failed) +
      rows.countP (fun r => r.status = .retrying) + rows.countP (fun r => r.status = .deadLetter) =
        rows.length := by
  induction rows with
  | nil => rfl
  | cons r rows ih =>
    simp only [List.countP_cons, List.length_cons, decide_eq_true_eq]
    cases r.status <;> simp <;> omega

end Job

/-! The dead letters. -/

/-- A letter says of its job what the row says. -/
structure DeadLetter.Matches (d : DeadLetter) (r : Job) : Prop where
  status : r.status = .deadLetter
  error : r.error = some d.finalError
  attempts : r.attempts = d.attemptsMade
  time : r.updatedAt = d.movedAt
  spent : r.maxAttempts ≤ r.attempts

def Database.Audited (db : Database) : Prop :=
  ∀ d ∈ db.deadLetters.rows, ∃ r, db.job? d.jobId = some r ∧ d.Matches r

theorem Database.status?_of_letter {db : Database} (hL : db.LettersAgree) (hd : d ∈ db.deadLetters.rows) :
    db.status? d.jobId = some .deadLetter := by
  have hcount : 0 < db.deadLetterCount d.jobId := List.count_pos_iff.mpr (List.mem_map.mpr ⟨d, hd, rfl⟩)
  rw [hL] at hcount
  by_contra hne
  rw [if_neg hne] at hcount
  exact absurd hcount (lt_irrefl 0)

theorem attemptsMade_of_call? {pid n : Nat} {e : String} (hA : AttemptsAgree s) (hC : Carried s)
    (hc : s.call? env a = some (pid, .moveToDeadLetter j e n)) (hr : s.store.db.job? j = some r)
    (hs : r.status = .running) (hl : r.lockedBy = some pid) : r.attempts = n := by
  rcases makes_of_call? hc with ⟨_, p, _, hp, hm⟩ | ⟨_, _, _, hm⟩
  · cases hm with
    | @bury p job _ hpc =>
      have ha : (Proc.worker p).attempt? = some job := congrArg Worker.Pc.attempt? hpc
      exact (attempts_of_held hA hC hp ha hr hs hl).1.symm
    | other hp => cases hp.outcome
  · cases hm

theorem audited_step (hL : s.store.db.LettersAgree) (hA : AttemptsAgree s) (hC : Carried s) (hJ : Judged s)
    (hI : s.store.db.Audited) (hf : Fenced env s a) (h : step env s a = some s') : s'.store.db.Audited := by
  intro d hd
  have hstatus := Database.status?_of_letter (lettersAgree_step hL hf h) hd
  -- the row of an old letter could only change with a replay, and that takes the letter away
  have old (hold : d ∈ s.store.db.deadLetters.rows) : ∃ r, s'.store.db.job? d.jobId = some r ∧ d.Matches r := by
    obtain ⟨r, hr, hm⟩ := hI d hold
    rcases guarded_step hL hf h hr with hr' | ⟨pid, c, r', _, hr', hg⟩
    · exact ⟨r, hr', hm⟩
    · rw [Database.status?_of_job? hr'] at hstatus
      cases hg with
      | kept => exact ⟨r, hr', hm⟩
      | lock hclaim => simp [Job.claimable, hm.status] at hclaim
      | reset => cases hstatus
      | succeed _ hs | retry _ _ hs | bury _ _ hs | release _ hs | promote hs | cancel hs =>
        cases hs.symm.trans hm.status
  rcases store_of_step h with ⟨pid, ch, c, x, hc, hx⟩ | ⟨_, hdb, _⟩
  · rw [Call.run_letters hx] at hd
    cases c with
    | moveToDeadLetter j e n =>
      rcases List.mem_append.mp hd with hd | hd
      · exact old hd
      · obtain rfl := List.mem_singleton.mp hd
        obtain ⟨r, hr, hs, hl⟩ := (hf _ hc).1 j rfl
        have hrow := Call.run_job?_of_update hx hr rfl (decide_eq_true (Database.id_of_job? hr))
        have hmade := attemptsMade_of_call? hA hC hc hr hs hl
        have hspent := (judged_of_held hA hC hJ hc hr hs hl).2 e n rfl
        exact ⟨_, hrow, rfl, rfl, hmade, rfl, hspent⟩
    | replayWrite => exact old (List.mem_filter.mp hd).1
    | _ => exact old hd
  · exact old (hdb ▸ hd)

theorem audited_of_reachable {t : Nat} (h : Reachable (Fenced env) (step env) (.init t) s) :
    s.store.db.Audited := by
  have hknown (s : State) (h : Reachable (Fenced env) (step env) (.init t) s) :
      s.store.db.LettersAgree ∧ AttemptsAgree s ∧ Carried s ∧ Judged s :=
    ⟨lettersAgree_of_reachable h, attemptsAgree_of_reachable h, carried_of_reachable h, judged_of_reachable h⟩
  apply h.invariant_with hknown
  · intro d hd
    cases hd
  · rintro s a s' ⟨hL, hA, hC, hJ⟩ hI hf h
    exact audited_step hL hA hC hJ hI hf h

/-! The listing. -/

/-- The order of `ORDER BY moved_at DESC`. -/
def DeadLetter.newest (d : DeadLetter) : Timeᵒᵈ := OrderDual.toDual d.movedAt

namespace Database
variable {db : Database} {limit offset : Nat} {order : List Uuid} {e : DeadLetterRecord}

/-- What `get_dead_letters` takes its page from. -/
def letterListing (db : Database) (order : List Uuid) : List DeadLetter :=
  (Table.inOrder DeadLetter.id order db.deadLetters.rows).insertionSort fun d d' => d.newest ≤ d'.newest

theorem getDeadLetters_eq (db : Database) (limit offset : Nat) (order : List Uuid) :
    db.getDeadLetters limit offset order =
      (((db.letterListing order).drop offset).take limit).map db.joined := by
  rw [List.map_take, List.map_drop]
  rfl

theorem letterListing_perm (db : Database) (order : List Uuid) :
    (db.letterListing order).Perm db.deadLetters.rows :=
  (List.perm_insertionSort _ _).trans (Table.perm_inOrder _ _)

theorem letterListing_sorted (db : Database) (order : List Uuid) :
    Sorted DeadLetter.newest (db.letterListing order) :=
  List.pairwise_insertionSort _ _

/-- The jobs with a letter are those with status `DEAD_LETTER`. -/
theorem jobIds_perm (hL : db.LettersAgree) : (db.deadLetters.rows.map DeadLetter.jobId).Perm
    ((db.jobs.select fun r => r.status = .deadLetter).map Job.id) := by
  refine List.perm_iff_count.mpr fun j => ?_
  have hletters : (db.deadLetters.rows.map DeadLetter.jobId).count j = db.deadLetterCount j := rfl
  rw [hletters, hL j, Table.count_select]
  have hrow : (db.status? j = some .deadLetter) ↔
      (db.jobs.find? j).any (fun r => r.status = .deadLetter) = true := by
    rw [status?, job?]
    cases db.jobs.find? j <;> simp
  rw [if_congr hrow rfl rfl]

theorem nodup_jobIds (hL : db.LettersAgree) : (db.deadLetters.rows.map DeadLetter.jobId).Nodup :=
  (jobIds_perm hL).nodup_iff.mpr (db.jobs.nodup_select _)

end Database

/-- What the API reports in any state of a run in which outcomes are written under the lock. -/
structure ReportLaw (db : Database) : Prop where
  /-- Every entry of a page of dead letters is a `DEAD_LETTER` job with its type and payload, the error and the
  number of its last attempt, and the time of its last change; and its attempts are used up. -/
  entry (limit offset : Nat) (order : List Uuid) : ∀ e ∈ db.getDeadLetters limit offset order,
    ∃ r, db.job? e.jobId = some r ∧ r.status = .deadLetter ∧ r.error = some e.finalError ∧
      r.attempts = e.attemptsMade ∧ r.maxAttempts ≤ e.attemptsMade ∧ r.updatedAt = e.movedAt ∧
      e.jobType = some r.type ∧ e.payload = some r.payload
  /-- A page has no job twice, and the newest first. -/
  page (limit offset : Nat) (order : List Uuid) :
    ((db.getDeadLetters limit offset order).map DeadLetterRecord.jobId).Nodup ∧
      (db.getDeadLetters limit offset order).Pairwise fun e e' => e'.movedAt ≤ e.movedAt
  /-- The pages together have every `DEAD_LETTER` job, if no border falls between letters of the same time. -/
  pages (limit pages : Nat) (orders : Nat → List Uuid) : 0 < limit →
    Unbroken DeadLetter.newest limit db.deadLetters.rows → db.deadLetters.rows.length ≤ limit * pages →
    (((List.range pages).flatMap fun i => db.getDeadLetters limit (limit * i) (orders i)).map
      DeadLetterRecord.jobId).Perm ((db.jobs.select fun r => r.status = .deadLetter).map Job.id)
  /-- The counts are those of the rows, of all statuses together that of all rows, and of `DEAD_LETTER` that of
  the letters. -/
  counts : (∀ x, db.getJobCounts x = (db.jobs.select fun r => r.status = x).length) ∧
    db.getJobCounts .pending + db.getJobCounts .running + db.getJobCounts .success + db.getJobCounts .failed +
      db.getJobCounts .retrying + db.getJobCounts .deadLetter = db.jobs.rows.length ∧
    db.getJobCounts .deadLetter = db.deadLetters.rows.length

theorem reportLaw_of_audited {db : Database} (hL : db.LettersAgree) (hI : db.Audited) : ReportLaw db where
  entry limit offset order e he := by
    rw [Database.getDeadLetters_eq] at he
    obtain ⟨d, hd, rfl⟩ := List.mem_map.mp he
    have hmem : d ∈ db.letterListing order := List.mem_of_mem_drop (List.mem_of_mem_take hd)
    obtain ⟨r, hr, hm⟩ := hI d ((db.letterListing_perm order).mem_iff.mp hmem)
    refine ⟨r, hr, hm.status, hm.error, hm.attempts, hm.spent.trans hm.attempts.le, hm.time, ?_, ?_⟩
    · exact congrArg (Option.map Job.type) hr
    · exact congrArg (Option.map Job.payload) hr
  page limit offset order := by
    have hsub : (((db.letterListing order).drop offset).take limit).Sublist (db.letterListing order) :=
      (List.take_sublist _ _).trans (List.drop_sublist _ _)
    rw [Database.getDeadLetters_eq, List.map_map, List.pairwise_map]
    constructor
    · have hnodup := ((db.letterListing_perm order).map DeadLetter.jobId).nodup_iff.mpr
        (Database.nodup_jobIds hL)
      exact hnodup.sublist (hsub.map DeadLetter.jobId)
    · exact (db.letterListing_sorted order).sublist hsub
  pages limit n orders hlimit hunbroken hn := by
    have hall := pages_perm hunbroken hlimit
      (fun i => ⟨db.letterListing_sorted (orders i), db.letterListing_perm (orders i)⟩) hn
    have hmap : (List.range n).flatMap (fun i => db.getDeadLetters limit (limit * i) (orders i)) =
        (Ranks.pages limit (fun i => db.letterListing (orders i)) n).map db.joined := by
      simp only [Ranks.pages, List.map_flatMap, Database.getDeadLetters_eq]
      rfl
    rw [hmap, List.map_map]
    exact (hall.map DeadLetter.jobId).trans (Database.jobIds_perm hL)
  counts := by
    have hcount (x : JobStatus) : db.getJobCounts x = (db.jobs.select fun r => r.status = x).length := by
      rw [Job.getJobCounts_eq]
      exact List.countP_eq_length_filter
    refine ⟨hcount, ?_, ?_⟩
    · simp only [Job.getJobCounts_eq]
      exact Job.countP_status_add db.jobs.rows
    · rw [hcount]
      have hlen := (Database.jobIds_perm hL).length_eq
      rw [List.length_map, List.length_map] at hlen
      exact hlen.symm

theorem reportLaw {t : Nat} (h : Reachable (Fenced env) (step env) (.init t) s) : ReportLaw s.store.db :=
  reportLaw_of_audited (lettersAgree_of_reachable h) (audited_of_reachable h)

/-- Job 7 is dead-lettered after its three attempts. -/
theorem reportLaw_buried : ∃ s : State, s.store.db.status? 7 = some .deadLetter ∧ ReportLaw s.store.db := by
  obtain ⟨s, h, hs⟩ : ∃ s, Reachable (Fenced minutely) (step minutely) (.init 0) s ∧ _ :=
    exists_reachable_of_exec buried (fun s => s.store.db.status? 7 = some .deadLetter) (by decide +kernel)
  exact ⟨s, of_decide_eq_true hs, reportLaw h⟩

end DistribuQ
