import DistribuQ.Model.System
import DistribuQ.Model.EventFeed

/-! The service with its kill channels: `kill_random_worker` of `api/main.py` publishes on the channel of one worker,
and the task `_kill_subscriber` of `worker/worker.py` listens there. Redis keeps no message for those who are not
subscribed. -/

namespace DistribuQ

/-- `get_workers`; rows that started at the same time come as `order` has them. -/
def Database.getWorkers (db : Database) (order : List WorkerId) : List WorkerRow :=
  (Table.inOrder WorkerRow.id order db.workers.rows).insertionSort fun v v' => v'.startedAt ≤ v.startedAt

/-- `message["type"] == "message" and message.get("data") == "kill"` -/
def PubSubMessage.isKill : PubSubMessage → Bool
  | message data => data = "kill"
  | subscribe => false

/-- A task `_kill_subscriber` that has neither returned nor been cancelled. -/
inductive KillSubscriber
  | connecting
  | listening (inbox : List PubSubMessage)
  | raised

namespace KillSubscriber

def isRaised : KillSubscriber → Bool
  | raised => true
  | _ => false

def deliver (m : PubSubMessage) : KillSubscriber → KillSubscriber
  | listening inbox => listening (inbox ++ [m])
  | s => s

end KillSubscriber

/-- `kill_random_worker` -/
inductive KillRequest
  | select
  | publish (target : WorkerId)
  -- with status 200 the id of the worker, or 404
  | answered (killed : Option WorkerId)
  | raised

def Request.subscriber? : Request → Option KillSubscriber
  | worker => some .connecting
  | _ => none

/-- The service, for each of its processes the kill subscriber if it has one, and the kill requests. -/
structure Fleet where
  service : State
  subscribers : List (Option KillSubscriber) := []
  requests : List KillRequest := []

namespace Fleet

def init (clock : Nat) : Fleet := { service := .init clock }

def subscriber? (x : Fleet) (pid : Nat) : Option KillSubscriber := x.subscribers[pid]?.join

def subscribe (x : Fleet) (pid : Nat) (sub : Option KillSubscriber) : Fleet :=
  { x with subscribers := x.subscribers.set pid sub }

def answer (x : Fleet) (k : Nat) (r : KillRequest) : Fleet := { x with requests := x.requests.set k r }

/-- `PUBLISH` on the channel of worker `w`. -/
def deliver (x : Fleet) (w : WorkerId) (m : PubSubMessage) : Fleet :=
  { x with subscribers := x.subscribers.modify w (Option.map (KillSubscriber.deliver m)) }

/-- The next step of worker `pid` takes it out of the loop of `start`. -/
def leaves (s : State) (pid : Nat) : Bool :=
  match s.procs[pid]? with
  | some (.worker ⟨.loop, false, _⟩) => true
  | _ => false

/-- What becomes of a step of the service: after the loop `await kill_task` raises what the subscriber has raised, and
the worker ends without its `shutdown`. -/
def effect (x : Fleet) : DistribuQ.Action → DistribuQ.Action
  | .run pid ch =>
    if leaves x.service pid && (x.subscriber? pid).any KillSubscriber.isRaised then .crash pid else .run pid ch
  | a => a

/-- A worker starts its subscriber, and cancels it when it leaves the loop. -/
def tasks (x : Fleet) : DistribuQ.Action → List (Option KillSubscriber)
  | .spawn r => x.subscribers ++ [r.subscriber?]
  | .run pid _ => if leaves x.service pid then x.subscribers.set pid none else x.subscribers
  | .crash pid => x.subscribers.set pid none
  | _ => x.subscribers

inductive Action
  | service (a : DistribuQ.Action)
  -- the subscriber of process `pid`: it subscribes, takes its next message, loses its connection
  | subscribe (pid : Nat)
  | listen (pid : Nat)
  | disconnect (pid : Nat) (reconnects : Bool)
  -- a request comes in; request `k` reads the workers and draws one, and publishes
  | post
  | select (k : Nat) (draw : Nat) (order : List WorkerId) (fails : Bool)
  | publish (k : Nat) (fault : Fault)

def step (env : Env) (x : Fleet) : Action → Option Fleet
  | .service a => (DistribuQ.step env x.service (x.effect a)).map fun s =>
      { x with service := s, subscribers := x.tasks a }
  | .subscribe pid =>
    match x.subscriber? pid with
    | some .connecting => some (x.subscribe pid (some (.listening [.subscribe])))
    | _ => none
  | .listen pid =>
    match x.subscriber? pid with
    | some (.listening (m :: inbox)) =>
      if m.isKill then
        -- `self.running = False`, and the task ends
        (DistribuQ.step env x.service (.signal pid)).map fun s => { x.subscribe pid none with service := s }
      else some (x.subscribe pid (some (.listening inbox)))
    | _ => none
  | .disconnect pid reconnects =>
    match x.subscriber? pid with
    | some .connecting | some (.listening _) =>
      some (x.subscribe pid (some (if reconnects then .connecting else .raised)))
    | _ => none
  | .post => some { x with requests := x.requests ++ [.select] }
  | .select k draw order fails =>
    match x.requests[k]? with
    | some .select =>
      if fails then some (x.answer k .raised)
      else
        match (x.service.store.db.getWorkers order).filter (·.status = .alive) with
        | [] => some (x.answer k (.answered none))
        | alive => (alive[draw]?).map fun target => x.answer k (.publish target.id)
    | _ => none
  | .publish k fault =>
    match x.requests[k]? with
    | some (.publish w) =>
      match fault with
      | .none => some ((x.deliver w (.message "kill")).answer k (.answered (some w)))
      | .raised _ => some (x.answer k .raised)
      | .lost _ => some ((x.deliver w (.message "kill")).answer k .raised)
    | _ => none

end Fleet
end DistribuQ
