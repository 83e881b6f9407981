import DistribuQ.Library.Table
import Mathlib.Data.Rat.Defs

/-! The tables `jobs`, `workers` and `dead_letters` of `db/schema.sql`. A UUID is a number; a worker id,
unique to a process, is the number of that process; a time counts microseconds from the epoch, the
resolution of both `TIMESTAMPTZ` and `datetime`. -/

namespace DistribuQ

abbrev Uuid := Nat
abbrev WorkerId := Nat
abbrev Time := Int

def seconds (n : Nat) : Time := 1000000 * n

inductive Json
  | null
  | bool (b : Bool)
  | num (q : ℚ)
  | str (s : String)
  | arr (xs : List Json)
  | obj (kvs : List (String × Json))

/-- The column a result is stored in: `None` is stored as `NULL`. -/
def Json.column : Json → Option Json
  | .null => none
  | v => some v

/-- A JSON object, as `payload` always is. -/
abbrev Payload := List (String × Json)

inductive JobStatus
  | pending | running | success | failed | retrying | deadLetter
  deriving DecidableEq

inductive WorkerStatus
  | alive | dead
  deriving DecidableEq

structure Job where
  id : Uuid
  type : String
  payload : Payload
  status : JobStatus
  priority : Int
  attempts : Nat
  maxAttempts : Nat
  nextRetryAt : Option Time
  scheduledFor : Option Time
  recurrenceRule : Option String
  result : Option Json
  error : Option String
  lockedBy : Option WorkerId
  lockedAt : Option Time
  createdAt : Time
  updatedAt : Time

structure WorkerRow where
  id : WorkerId
  status : WorkerStatus
  lastHeartbeat : Time
  jobsProcessed : Nat
  startedAt : Time

structure DeadLetter where
  id : Uuid
  jobId : Uuid
  finalError : String
  attemptsMade : Nat
  movedAt : Time

structure Database where
  jobs : Table Job.id
  workers : Table WorkerRow.id
  deadLetters : Table DeadLetter.id

namespace Database

def empty : Database := ⟨Table.empty, Table.empty, Table.empty⟩

def job? (db : Database) (j : Uuid) : Option Job := db.jobs.find? j

theorem id_of_job? {db : Database} {j : Uuid} {r : Job} (h : db.job? j = some r) : r.id = j :=
  Table.key_of_find? h

def status? (db : Database) (j : Uuid) : Option JobStatus := (db.job? j).map Job.status

def deadLetterCount (db : Database) (j : Uuid) : Nat :=
  (db.deadLetters.rows.map DeadLetter.jobId).count j

end Database

end DistribuQ
