import DistribuQ.Model.Fleet
import DistribuQ.Model.LoadTest

/-! `run_chaos_test` and its `chaos_injector` of `benchmarks/chaos_under_load.py`, beside the service whose workers
they kill. -/

namespace DistribuQ

/-- The arguments of `run_chaos_test`. -/
structure ChaosTest where
  totalJobs : Nat := 150
  jobType : String := "test_echo"
  jobType_ne : jobType ≠ ""

namespace ChaosTest

open LoadTest (Counts statusCounts answer?)

/-- The request for index `i`. -/
def request (test : ChaosTest) (i : Nat) : JobCreateRequest where
  type := test.jobType
  payload := [("idx", .num i), ("chaos_test", .bool true)]
  priority := 0
  maxAttempts := 3
  type_ne := test.jobType_ne
  one_le_maxAttempts := LoadTest.one_le_default
  maxAttempts_le := LoadTest.default_le

/-- The task `chaos_injector`. -/
inductive Injector
  -- in `wait_for(stop_event.wait(), ..)`
  | waiting
  -- kill request `k` is on its way
  | posting (k : Nat)
  | stopped

/-- What `run_chaos_test` returns. -/
structure Report where
  totalJobs : Nat
  workersKilled : Nat
  successCount : Nat
  reliabilityPct : ℚ
  statusCounts : Counts
  passed : Bool

inductive Phase
  | submitting (i : Nat)
  -- the request of index `i` is served by process `pid` of the API; the answer is there
  | posting (i : Nat) (pid : Nat)
  | answered (i : Nat) (jobId : Option Uuid)
  -- at `while time.monotonic() < deadline`
  | draining (counts : Counts)
  -- `stop_chaos` is set
  | stopping (counts : Counts)
  | finished (report : Report)
  | raised (error : String)

def Phase.hear (s s' : State) : Phase → Phase
  | posting i pid =>
    let answer := do answer? (← s.procs[pid]?) (← s'.procs[pid]?)
    answer.elim (posting i pid) (answered i)
  | phase => phase

def Phase.isStopping : Phase → Bool
  | stopping _ => true
  | _ => false

structure Bench where
  fleet : Fleet
  submittedIds : List Uuid := []
  killLog : List WorkerId := []
  injector : Injector := .waiting
  phase : Phase := .submitting 0

def init (fleet : Fleet) : Bench := { fleet := fleet }

inductive Action
  | fleet (a : Fleet.Action)
  -- `chaos_injector`: the delay is over; the response is there; the request raises; `stop_event` is set
  | inject
  | logged
  | failed
  | stop
  -- `run_chaos_test`
  | submit
  | receive
  | disconnect (error : String)
  | poll (beforeDeadline : Bool) (fault : Option String)
  | finish

def completed (counts : Counts) : Nat := counts.get .success + counts.get .deadLetter

def report (test : ChaosTest) (x : Bench) (counts : Counts) : Report :=
  let successCount := counts.get .success
  let reliabilityPct : ℚ := successCount / test.totalJobs * 100
  ⟨test.totalJobs, x.killLog.length, successCount, reliabilityPct, counts, reliabilityPct = 100⟩

def step (env : Env) (test : ChaosTest) (x : Bench) : Action → Option Bench
  | .fleet a => (Fleet.step env x.fleet a).map fun f =>
      { x with fleet := f, phase := x.phase.hear x.fleet.service f.service }
  | .inject =>
    match x.injector with
    | .waiting =>
      if x.phase.isStopping then none
      else (Fleet.step env x.fleet .post).map fun f =>
        { x with fleet := f, injector := .posting x.fleet.requests.length }
    | _ => none
  | .logged =>
    match x.injector with
    | .posting k =>
      match x.fleet.requests[k]? with
      | some (.answered killed) => some { x with killLog := x.killLog ++ killed.toList, injector := .waiting }
      | some .raised => some { x with injector := .waiting }
      | _ => none
    | _ => none
  | .failed =>
    match x.injector with
    | .posting _ => some { x with injector := .waiting }
    | _ => none
  | .stop =>
    match x.injector with
    | .waiting => if x.phase.isStopping then some { x with injector := .stopped } else none
    | _ => none
  | .submit =>
    match x.phase with
    | .submitting i =>
      if i < test.totalJobs then
        (Fleet.step env x.fleet (.service (.spawn (.submit (test.request i))))).map fun f =>
          { x with fleet := f, phase := .posting i x.fleet.service.procs.length }
      else some { x with phase := .draining [] }
    | _ => none
  | .receive =>
    match x.phase with
    | .answered i jobId => some { x with
        submittedIds := x.submittedIds ++ jobId.toList
        phase := .submitting (i + 1) }
    | _ => none
  | .disconnect error =>
    match x.phase with
    | .posting .. | .answered .. => some { x with phase := .raised error }
    | _ => none
  | .poll beforeDeadline fault =>
    match x.phase with
    | .draining counts =>
      if beforeDeadline then
        match fault with
        | some e => some { x with phase := .raised e }
        | none =>
          let counts := statusCounts x.fleet.service.store.db x.submittedIds
          some { x with phase := if test.totalJobs ≤ completed counts then .stopping counts
                                 else .draining counts }
      else some { x with phase := .stopping counts }
    | _ => none
  | .finish =>
    match x.phase, x.injector with
    | .stopping counts, .stopped =>
      -- `success_count / total_jobs`
      some { x with phase := if test.totalJobs = 0 then .raised "ZeroDivisionError"
                             else .finished (report test x counts) }
    | _, _ => none

end ChaosTest
end DistribuQ
