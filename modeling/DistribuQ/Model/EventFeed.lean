import DistribuQ.Model.ConnectionManager
import Mathlib.Data.Finset.Card

/-! `redis_subscriber_loop` of `api/ws_manager.py`: what is published on `distribuq:events` is broadcast, one
message after the other, while sockets connect and disconnect and the connection to Redis breaks. -/

namespace DistribuQ

/-- A message of `pubsub.listen()`: Redis confirms the subscription, then passes on what is published. -/
inductive PubSubMessage
  | subscribe
  | message (data : String)

/-- Where `redis_subscriber_loop` is. -/
inductive Subscriber
  -- before `pubsub.subscribe` has ended, or in the sleep after an error
  | connecting
  -- in `pubsub.listen()`, or in the call of `broadcast` that the manager shows
  | listening
  | cancelled

structure EventFeed (C : Type) where
  manager : ConnectionManager C
  subscriber : Subscriber
  /-- Redis passes on to the subscriber what is published. -/
  subscribed : Bool
  /-- What Redis has passed on and `pubsub.listen()` has not returned yet. -/
  buffer : List PubSubMessage

namespace ConnectionManager
variable {C : Type}

def init (C : Type) : ConnectionManager C := ⟨∅, ∅, Finset.Subset.refl _, .idle⟩

def count (s : ConnectionManager C) : Nat := s.connections.card

/-- The next call of `broadcast` has not begun. -/
def rest (s : ConnectionManager C) : ConnectionManager C := { s with broadcast := .idle }

/-- A call of `broadcast` that is cancelled: nothing is pruned. -/
def abandon (s : ConnectionManager C) : ConnectionManager C := { s with broadcast := .finished }

end ConnectionManager

namespace EventFeed
variable {C : Type} [DecidableEq C]

def init (C : Type) : EventFeed C := ⟨.init C, .connecting, false, []⟩

inductive Action (C : Type)
  | publish (data : String)
  -- the tasks of `websocket_dashboard`
  | connect (ws : C)
  | disconnect (ws : C)
  | subscribe
  -- the connection to Redis breaks; the first `arrived` messages of the buffer have come through
  | lost (arrived : Nat)
  -- `pubsub.subscribe` or `pubsub.listen` raises
  | raised
  -- `pubsub.listen` returns a message; `order` is `list(self._connections)` where it is broadcast
  | next (order : List C)
  -- a send of the broadcast ends
  | sent (raised : Bool)
  | cancel

def step (s : EventFeed C) : Action C → Option (EventFeed C)
  | .publish data => some (if s.subscribed then { s with buffer := s.buffer ++ [.message data] } else s)
  | .connect ws => (s.manager.step (.connect ws)).map fun m => { s with manager := m }
  | .disconnect ws => (s.manager.step (.disconnect ws)).map fun m => { s with manager := m }
  | .subscribe =>
    match s.subscriber with
    | .connecting => some { s with subscriber := .listening, subscribed := true, buffer := [.subscribe] }
    | _ => none
  | .lost arrived => some { s with subscribed := false, buffer := s.buffer.take arrived }
  | .raised =>
    match s.subscriber, s.manager.broadcast with
    -- a send that raises is caught by `broadcast` itself
    | .cancelled, _ | .listening, .sending .. => none
    | _, _ => some { s with subscriber := .connecting, subscribed := false, buffer := [] }
  | .next order =>
    match s.subscriber, s.manager.broadcast, s.buffer with
    | .listening, .sending .., _ => none
    | .listening, _, .subscribe :: rest => some { s with buffer := rest }
    | .listening, _, .message data :: rest =>
      if 0 < s.manager.count then
        (s.manager.rest.step (.start data order)).map fun m => { s with manager := m, buffer := rest }
      else some { s with buffer := rest }
    | _, _, _ => none
  | .sent raised => (s.manager.step (.sent raised)).map fun m => { s with manager := m }
  | .cancel =>
    match s.subscriber with
    | .cancelled => none
    | _ => some { manager := s.manager.abandon, subscriber := .cancelled, subscribed := false, buffer := [] }

end EventFeed
end DistribuQ
