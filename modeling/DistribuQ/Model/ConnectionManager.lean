import Mathlib.Data.Finset.Basic
import Mathlib.Data.Finset.SDiff
import Mathlib.Data.Finset.Dedup

/-! `ConnectionManager` of `api/ws_manager.py`, with one call of `broadcast` and any number of
`websocket_dashboard` tasks, each of which connects its socket and disconnects it after that. What a task does
between two suspension points is one step. -/

namespace DistribuQ

/-- Where a call of `broadcast` is. -/
inductive Broadcast (C : Type)
  | idle
  -- suspended in `ws.send_text(message)`, with the sockets that follow and those whose send has raised
  | sending (message : String) (ws : C) (rest : List C) (dead : Finset C)
  | finished

structure ConnectionManager (C : Type) where
  connections : Finset C
  /-- The sockets for which `connect` has been called to its end. -/
  connected : Finset C
  connections_subset : connections ⊆ connected
  broadcast : Broadcast C

namespace ConnectionManager
variable {C : Type} [DecidableEq C]

inductive Action (C : Type)
  -- `connect`, after `ws.accept()`
  | connect (ws : C)
  | disconnect (ws : C)
  -- `broadcast` up to its first send; `order` is `list(self._connections)`
  | start (message : String) (order : List C)
  -- a send ends
  | sent (raised : Bool)

def add (s : ConnectionManager C) (ws : C) : ConnectionManager C where
  connections := insert ws s.connections
  connected := insert ws s.connected
  connections_subset := Finset.insert_subset_insert ws s.connections_subset
  broadcast := s.broadcast

def discard (s : ConnectionManager C) (ws : C) : ConnectionManager C where
  connections := s.connections.erase ws
  connected := s.connected
  connections_subset := (Finset.erase_subset _ _).trans s.connections_subset
  broadcast := s.broadcast

/-- The end of `broadcast`: the dead connections are pruned. -/
def prune (s : ConnectionManager C) (dead : Finset C) : ConnectionManager C where
  connections := s.connections \ dead
  connected := s.connected
  connections_subset := Finset.sdiff_subset.trans s.connections_subset
  broadcast := .finished

/-- The loop of `broadcast`, at its next socket. -/
def send (s : ConnectionManager C) (message : String) (dead : Finset C) : List C → ConnectionManager C
  | ws :: rest => { s with broadcast := .sending message ws rest dead }
  | [] => s.prune dead

def step (s : ConnectionManager C) : Action C → Option (ConnectionManager C)
  -- a task calls `connect` once, for a socket of its own
  | .connect ws => if ws ∈ s.connected then none else some (s.add ws)
  | .disconnect ws => if ws ∈ s.connected then some (s.discard ws) else none
  | .start message order =>
    match s.broadcast with
    | .idle => if order.Nodup ∧ order.toFinset = s.connections then some (s.send message ∅ order) else none
    | _ => none
  | .sent raised =>
    match s.broadcast with
    | .sending message ws rest dead => some (s.send message (if raised then insert ws dead else dead) rest)
    | _ => none

end ConnectionManager
end DistribuQ
