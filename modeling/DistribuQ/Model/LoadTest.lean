import DistribuQ.Model.System
import DistribuQ.Model.Reports
import DistribuQ.Model.Percentiles

/-! `run_load_test` of `benchmarks/load_test.py`, beside the service that it loads. -/

namespace DistribuQ

/-- The arguments of `run_load_test`. -/
structure LoadTest where
  totalJobs : Nat := 500
  concurrency : Nat := 20
  jobType : String := "test_echo"
  payload : Payload := [("data", .str "bench_load")]
  priority : Int := 0
  jobType_ne : jobType ≠ "" := by decide

namespace LoadTest

/-! `max_attempts` is left at its default. -/

theorem one_le_default : 1 ≤ 3 := by decide

theorem default_le : 3 ≤ 50 := by decide

/-- The request for index `jobIdx`; `{**payload, "bench_idx": job_idx}` as an object, whose keys have no order. -/
def request (test : LoadTest) (jobIdx : Nat) : JobCreateRequest where
  type := test.jobType
  payload := test.payload.filter (fun kv => kv.1 ≠ "bench_idx") ++ [("bench_idx", .num jobIdx)]
  priority := test.priority
  type_ne := test.jobType_ne
  one_le_maxAttempts := one_le_default
  maxAttempts_le := default_le

/-- An entry of `results`; `latency` is `t1 - t0`. -/
inductive Result
  | submitted (jobId : Uuid) (latency : Time)
  | failed (error : String)

def Result.jobId? : Result → Option Uuid
  | submitted j _ => some j
  | failed _ => none

/-- A task of `submit_worker`. -/
inductive Task
  -- at `while not queue.empty()`
  | loop
  -- the request of an index is on its way; process `pid` of the API serves it
  | posting (jobIdx : Nat) (t₀ : Time) (pid : Nat)
  -- the answer is there: with status 201 the id of a job, else none
  | answered (jobIdx : Nat) (t₀ : Time) (jobId : Option Uuid)
  | returned

def Task.isReturned : Task → Bool
  | returned => true
  | _ => false

/-- What the client hears when the process of a request goes from `p` to `p'`. -/
def answer? : Proc → Proc → Option (Option Uuid)
  | .submit (.emit _ j), .submit .finished => some (some j)
  | .submit .finished, _ => none
  | .submit _, .submit .finished | .submit _, .gone => some none
  | _, _ => none

def Task.hear (s s' : State) : Task → Task
  | .posting jobIdx t₀ pid =>
    let answer := do answer? (← s.procs[pid]?) (← s'.procs[pid]?)
    answer.elim (.posting jobIdx t₀ pid) (.answered jobIdx t₀)
  | task => task

abbrev Counts := List (JobStatus × Nat)

/-- `counts.get(status, 0)` -/
def Counts.get (counts : Counts) (s : JobStatus) : Nat := (counts.lookup s).getD 0

inductive Phase
  | submitting
  -- `wait_for_queue_drain`, at `while time.monotonic() < deadline`
  | draining (counts : Option Counts)
  | fetching (counts : Counts) (completedAll : Bool)
  -- the metrics: `status_counts`, and the latencies that `turnaround_latency_ms` is computed from
  | finished (counts : Counts) (completedAll : Bool) (latencies : List ℚ)
  -- `{"error": "Submission failed"}`
  | noneSubmitted
  | raised (error : String)

/-- The test and the service. -/
structure Bench where
  service : State
  queue : List Nat
  tasks : List Task
  results : List Result := []
  phase : Phase := .submitting

def init (test : LoadTest) (service : State) : Bench where
  service := service
  queue := List.range test.totalJobs
  tasks := List.replicate test.concurrency .loop

def Bench.jobIds (x : Bench) : List Uuid := x.results.filterMap Result.jobId?

inductive Action
  | service (a : DistribuQ.Action)
  -- task `k` goes on at the time `now`
  | resume (k : Nat) (now : Time)
  -- its `client.post` returns, or raises, wherever the request is by then
  | receive (k : Nat) (now : Time) (error : String)
  | disconnect (k : Nat) (error : String)
  -- `asyncio.gather` returns
  | gather
  | poll (beforeDeadline : Bool) (fault : Option String)
  | fetch (order : List Uuid) (fault : Option String)

/-- The rows with `id = ANY(job_ids)`. -/
def batch (db : Database) (jobIds : List Uuid) : List Job := db.jobs.select fun r => r.id ∈ jobIds

/-- The status breakdown that `wait_for_queue_drain` queries. -/
def statusCounts (db : Database) (jobIds : List Uuid) : Counts := Job.groupByStatus (batch db jobIds)

def completed (counts : Counts) : Nat := counts.get .success + counts.get .deadLetter + counts.get .failed

/-- `fetch_latencies_from_db`, in milliseconds. -/
def fetchLatencies (db : Database) (jobIds order : List Uuid) : List ℚ :=
  let rows := Table.inOrder Job.id order (db.jobs.select fun r => r.id ∈ jobIds && r.status = .success)
  rows.map fun r => ((r.updatedAt - r.createdAt : Int) : ℚ) / 1000

/-- A task ends its turn with a result. -/
def Bench.append (x : Bench) (k : Nat) (result : Result) : Bench :=
  { x with tasks := x.tasks.set k .loop, results := x.results ++ [result] }

def step (env : Env) (test : LoadTest) (x : Bench) : Action → Option Bench
  | .service a => (DistribuQ.step env x.service a).map fun s =>
      { x with service := s, tasks := x.tasks.map (Task.hear x.service s) }
  | .resume k now =>
    match x.tasks[k]?, x.queue with
    | some .loop, [] => some { x with tasks := x.tasks.set k .returned }
    | some .loop, jobIdx :: queue => some { x with
        service := { x.service with procs := x.service.procs ++
          [(Request.submit (test.request jobIdx)).toProc] }
        queue := queue
        tasks := x.tasks.set k (.posting jobIdx now x.service.procs.length) }
    | _, _ => none
  | .receive k now error =>
    match x.tasks[k]? with
    | some (.answered _ t₀ (some j)) => some (x.append k (.submitted j (now - t₀)))
    | some (.answered _ _ none) => some (x.append k (.failed error))
    | _ => none
  | .disconnect k error =>
    match x.tasks[k]? with
    | some (.posting ..) | some (.answered ..) => some (x.append k (.failed error))
    | _ => none
  | .gather =>
    match x.phase with
    | .submitting =>
      if x.tasks.all Task.isReturned then
        some { x with phase := if x.jobIds = [] then .noneSubmitted else .draining none }
      else none
    | _ => none
  | .poll beforeDeadline fault =>
    match x.phase with
    | .draining counts =>
      if beforeDeadline then
        match fault with
        | some e => some { x with phase := .raised e }
        | none =>
          let counts := statusCounts x.service.store.db x.jobIds
          some { x with phase := if x.jobIds.length ≤ completed counts then .fetching counts true
                                 else .draining (some counts) }
      else
        -- the loop ends; without a poll `counts` is not bound
        match counts with
        | some counts => some { x with phase := .fetching counts false }
        | none => some { x with phase := .raised "UnboundLocalError" }
    | _ => none
  | .fetch order fault =>
    match x.phase with
    | .fetching counts completedAll =>
      match fault with
      | some e => some { x with phase := .raised e }
      | none => some { x with
          phase := .finished counts completedAll (fetchLatencies x.service.store.db x.jobIds order) }
    | _ => none

end LoadTest
end DistribuQ
