import DistribuQ.Model.Schema
import DistribuQ.Library.SortedSet
import Mathlib.Logic.Function.Basic

/-! The Redis keys of `api/config.py` and the commands that `api/redis_client.py` and `api/events.py`
send. A list is written from its left end. -/

namespace DistribuQ

/-- The ready queues: `HIGH_QUEUE`, `DEFAULT_QUEUE` and `LOW_QUEUE`. -/
inductive Queue
  | high | default | low
  deriving DecidableEq

def Queue.ordered : List Queue := [.high, .default, .low]

/-- The queue that `enqueue_job` picks for a priority. -/
def Queue.ofPriority (priority : Int) : Queue :=
  if priority > 0 then .high else if priority < 0 then .low else .default

/-- What is published on `distribuq:events`. -/
inductive Event
  | jobStatusChanged (jobId : Uuid) (jobType : String) (status : JobStatus) (workerId : Option WorkerId)
  | jobSubmitted (jobId : Uuid) (jobType : String) (priority : Int) (scheduledFor : Option Time)
  | workerDead (workerId : WorkerId)
  deriving DecidableEq

/-- The ready lists, `queue:processing`, `zset:scheduled` and all that was published so far. -/
structure Redis where
  lists : Queue → List Uuid
  processing : List Uuid
  scheduled : SortedSet Uuid Time
  events : List Event

namespace Redis

def empty : Redis := ⟨fun _ => [], [], SortedSet.empty, []⟩

def setList (r : Redis) (q : Queue) (l : List Uuid) : Redis :=
  { r with lists := Function.update r.lists q l }

def lpush (r : Redis) (q : Queue) (j : Uuid) : Redis := r.setList q (j :: r.lists q)

def rpush (r : Redis) (q : Queue) (j : Uuid) : Redis := r.setList q (r.lists q ++ [j])

/-- `LREM q 0 j`: every occurrence. -/
def lrem (r : Redis) (q : Queue) (j : Uuid) : Redis :=
  r.setList q ((r.lists q).filter fun i => i ≠ j)

def lpushProcessing (r : Redis) (j : Uuid) : Redis := { r with processing := j :: r.processing }

/-- `LREM queue:processing 1 j`: the first occurrence from the left. -/
def lremProcessing (r : Redis) (j : Uuid) : Redis := { r with processing := r.processing.erase j }

def rpop (r : Redis) (q : Queue) : Redis × Option Uuid :=
  match (r.lists q).getLast? with
  | none => (r, none)
  | some j => (r.setList q (r.lists q).dropLast, some j)

/-- `RPOPLPUSH q queue:processing` -/
def rpoplpush (r : Redis) (q : Queue) : Redis × Option Uuid :=
  match r.rpop q with
  | (r, none) => (r, none)
  | (r, some j) => (r.lpushProcessing j, some j)

/-- `BRPOP` on several keys: the first that is not empty, and `none` for a timeout. -/
def brpop (r : Redis) : List Queue → Redis × Option (Queue × Uuid)
  | [] => (r, none)
  | q :: qs =>
    match r.rpop q with
    | (r, some j) => (r, some (q, j))
    | (_, none) => r.brpop qs

def zadd (r : Redis) (j : Uuid) (score : Time) : Redis :=
  { r with scheduled := r.scheduled.add j score }

def zrem (r : Redis) (j : Uuid) : Redis := { r with scheduled := r.scheduled.remove j }

/-- `PROMOTE_SCHEDULED_LUA`: the due members leave the set one by one, each pushed onto `target`. -/
def promoteScheduled (r : Redis) (target : Queue) (now : Time) : Redis × List Uuid :=
  let due := r.scheduled.rangeTo now
  (due.foldl (fun r j => (r.zrem j).lpush target j) r, due)

def publish (r : Redis) (e : Event) : Redis := { r with events := r.events ++ [e] }

end Redis
end DistribuQ
