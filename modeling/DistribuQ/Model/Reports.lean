import DistribuQ.Model.Schema

/-! What `api/db.py` reads for `list_dead_letters`, `get_stats` and the snapshots of the dashboard. -/

namespace DistribuQ

/-- A row of `get_dead_letters`. -/
structure DeadLetterRecord where
  id : Uuid
  jobId : Uuid
  finalError : String
  attemptsMade : Nat
  movedAt : Time
  jobType : Option String
  payload : Option Payload

namespace Database
variable (db : Database)

/-- The `LEFT JOIN`: the columns of `jobs` are `NULL` where it has no such row. -/
def joined (d : DeadLetter) : DeadLetterRecord :=
  let j := db.job? d.jobId
  ⟨d.id, d.jobId, d.finalError, d.attemptsMade, d.movedAt, j.map Job.type, j.map Job.payload⟩

/-- `ORDER BY moved_at DESC LIMIT limit OFFSET offset`; letters of the same time come as `order` has them. -/
def getDeadLetters (limit offset : Nat) (order : List Uuid) : List DeadLetterRecord :=
  let rows := Table.inOrder DeadLetter.id order db.deadLetters.rows
  (((rows.insertionSort fun d d' => d'.movedAt ≤ d.movedAt).map db.joined).drop offset).take limit

end Database

/-- `SELECT status, COUNT(*) .. GROUP BY status` over some rows; the groups come in no certain order. -/
def Job.groupByStatus (rows : List Job) : List (JobStatus × Nat) :=
  (rows.map Job.status).dedup.map fun s => (s, rows.countP fun r => r.status = s)

/-- `get_job_counts`: `base` has a zero for each status, and each group overwrites its own. -/
def Database.getJobCounts (db : Database) : JobStatus → Nat :=
  (Job.groupByStatus db.jobs.rows).foldl (fun base row => Function.update base row.1 row.2) fun _ => 0

end DistribuQ
