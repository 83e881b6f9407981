import DistribuQ.Model.Listing
import DistribuQ.Library.Ranks
import DistribuQ.Proofs.Conditions

/-! The pages of `list_jobs`. -/

namespace DistribuQ
open Ranks
variable {db : Database} {q : ListQuery} {order : List Uuid} {l : List Job}

/-- The order of `ORDER BY created_at DESC`. -/
def Job.newest (r : Job) : Timeᵒᵈ := OrderDual.toDual r.createdAt

def Database.matching (db : Database) (q : ListQuery) : List Job := db.jobs.select q.selects

namespace Database

/-- What `list_jobs` takes its page from. -/
def listing (db : Database) (q : ListQuery) (order : List Uuid) : List Job :=
  (Table.inOrder Job.id order (db.matching q)).insertionSort fun r r' => r.newest ≤ r'.newest

theorem listJobs_nextPage (db : Database) (q : ListQuery) (i : Nat) (order : List Uuid) :
    db.listJobs (q.nextPage i) order = page q.limit i (db.listing q order) := rfl

theorem listing_perm (db : Database) (q : ListQuery) (order : List Uuid) :
    (db.listing q order).Perm (db.matching q) :=
  (List.perm_insertionSort _ _).trans (Table.perm_inOrder _ _)

theorem listing_sorted (db : Database) (q : ListQuery) (order : List Uuid) :
    Sorted Job.newest (db.listing q order) :=
  List.pairwise_insertionSort _ _

theorem nodup_matching (db : Database) (q : ListQuery) : (db.matching q).Nodup :=
  .of_map Job.id (db.jobs.nodup_select q.selects)

/-- Postgres may answer with any order that `ORDER BY` allows. -/
theorem listing_eq (hs : Sorted Job.newest l) (hp : l.Perm (db.matching q)) :
    db.listing q (l.map Job.id) = l := by
  unfold listing
  rw [Table.inOrder_map hp (db.jobs.nodup_select q.selects)]
  exact hs.insertionSort_eq

/-- The pages from the first on, as many as it takes, have every matching job once, the newest first; each page
is taken in an order of its own. -/
def ListedOnce (db : Database) (q : ListQuery) : Prop :=
  ∀ (orders : Nat → List Uuid) (pages : Nat), (db.matching q).length ≤ q.limit * pages →
    let all := (List.range pages).flatMap fun i => db.listJobs (q.nextPage i) (orders i)
    all.Perm (db.matching q) ∧ all.Pairwise fun r r' => r'.createdAt ≤ r.createdAt

/-- Exactly if no border between two pages falls between jobs created at the same time. -/
theorem listedOnce_iff (db : Database) (q : ListQuery) :
    db.ListedOnce q ↔ ∀ r ∈ db.matching q,
      (db.matching q).countP (fun r' => r.createdAt < r'.createdAt) / q.limit =
        ((db.matching q).countP (fun r' => r.createdAt ≤ r'.createdAt) - 1) / q.limit := by
  have hunbroken := unbroken_iff Job.newest (db.nodup_matching q) (Nat.zero_lt_of_lt q.one_le_limit)
  refine Iff.trans ⟨fun h => hunbroken.mpr fun ls hls pages hlen => ?_, fun h orders pages hlen => ?_⟩ Iff.rfl
  · have hall := h (fun i => (ls i).map Job.id) pages hlen
    simp only [listJobs_nextPage, listing_eq (hls _).1 (hls _).2] at hall
    exact hall
  · exact hunbroken.mp h (fun i => db.listing q (orders i))
      (fun i => ⟨db.listing_sorted q _, db.listing_perm q _⟩) pages hlen

end Database

/-- Two jobs of the same instant. -/
def twins : Database where
  jobs := ⟨[report.toNewJob.toJob 0 1, report.toNewJob.toJob 0 2], by decide⟩
  workers := Table.empty
  deadLetters := Table.empty

/-- Two pages of one job each, the second in the other order: both have job 1, and none has job 2. -/
theorem not_listedOnce : ¬ ∀ db q, Database.ListedOnce db q := by
  intro h
  have hperm := (h twins { limit := 1 } (fun i => if i = 0 then [1, 2] else [2, 1]) 2 (by decide)).1
  exact absurd (hperm.map Job.id) (by decide)

end DistribuQ
