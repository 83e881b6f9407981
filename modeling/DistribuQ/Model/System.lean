import DistribuQ.Model.Worker
import DistribuQ.Model.Api
import DistribuQ.Model.Scheduler
import DistribuQ.Library.Tally

/-! The system: any number of processes over one store, the calls of all of them interleaved. -/

namespace DistribuQ

/-- A process; one that has crashed is gone, with all it held. -/
inductive Proc
  | worker (p : Worker)
  | submit (pc : Submit.Pc)
  | cancel (pc : Cancel.Pc)
  | replay (pc : Replay.Pc)
  | scheduler (p : Scheduler)
  | reaper (p : Reaper)
  | gone

namespace Proc

def next (env : Env) (pid : Nat) : Proc → Option (Op Proc)
  | worker p => (p.next pid).map (·.map worker)
  | submit pc => (Submit.next pc).map (·.map submit)
  | cancel pc => (Cancel.next pc).map (·.map cancel)
  | replay pc => (Replay.next pc).map (·.map replay)
  | scheduler p => (p.next env).map (·.map scheduler)
  | reaper p => p.next.map (·.map reaper)
  | gone => none

/-- `HeartbeatManager`: the heartbeats of a worker go on beside its loop until `stop`. -/
def heartbeat (pid : Nat) : Proc → Option (Op Proc)
  | worker p =>
    match p.pc with
    | .markDead | .stopped => none
    | _ => some ⟨.upsertWorkerHeartbeat pid p.jobsProcessed, fun _ => worker p⟩
  | _ => none

/-- A signal, or for a worker a kill message, clears `running`. -/
def signal : Proc → Proc
  | worker p => worker { p with running := false }
  | scheduler p => scheduler { p with running := false }
  | reaper p => reaper { p with running := false }
  | p => p

end Proc

/-- What can be started: a request to the API or a process. -/
inductive Request
  | submit (req : JobCreateRequest)
  | cancel (j : Uuid)
  | replay (identifier : Uuid)
  | worker
  | scheduler
  | reaper (visibilityTimeoutSec heartbeatTimeoutSec : Nat)

def Request.toProc : Request → Proc
  | submit req => .submit (.validate req)
  | cancel j => .cancel (.select j)
  | replay i => .replay (.select i)
  | worker => .worker {}
  | scheduler => .scheduler {}
  | reaper v h => .reaper { visibilityTimeoutSec := v, heartbeatTimeoutSec := h }

structure State where
  store : Store
  procs : List Proc

inductive Action
  | tick (elapsed : Nat)
  | spawn (r : Request)
  | run (pid : Nat) (ch : Choice)
  | heartbeat (pid : Nat) (ch : Choice)
  | signal (pid : Nat)
  | crash (pid : Nat)

namespace State

/-- Empty tables, empty queues and no process, at a time after the epoch. -/
def init (clock : Nat) : State := ⟨⟨Database.empty, Redis.empty, clock⟩, []⟩

/-- The call an action makes: the process, what the environment chooses, and the call. -/
def op? (env : Env) (s : State) : Action → Option (Nat × Choice × Op Proc)
  | .run pid ch => do
    let p ← s.procs[pid]?
    let op ← p.next env pid
    some (pid, ch, op)
  | .heartbeat pid ch => do
    let p ← s.procs[pid]?
    let op ← p.heartbeat pid
    some (pid, ch, op)
  | _ => none

/-- The call an action makes with an effect, and the process that makes it. -/
def call? (env : Env) (s : State) (a : Action) : Option (Nat × Call) :=
  match s.op? env a with
  | some (pid, ch, op) =>
    match ch.fault with
    | .raised _ => if op.call.isLocal then some (pid, op.call) else none
    | _ => some (pid, op.call)
  | none => none

end State

def step (env : Env) (s : State) (a : Action) : Option State :=
  match a with
  | .tick n => some { s with store := { s.store with clock := s.store.clock + n } }
  | .spawn r => some { s with procs := s.procs ++ [r.toProc] }
  | .signal pid => (s.procs[pid]?).map fun p => { s with procs := s.procs.set pid p.signal }
  | .crash pid => (s.procs[pid]?).map fun _ => { s with procs := s.procs.set pid .gone }
  | .run .. | .heartbeat .. => do
    let (pid, ch, op) ← s.op? env a
    let (st, p) ← op.exec env ch s.store
    some ⟨st, s.procs.set pid p⟩

end DistribuQ
