import DistribuQ.Model.Statements
import DistribuQ.Library.Simulation

/-! What the service is for, without its tables, queues and processes: a board of jobs, each of which is a small
state machine of its own. -/

namespace DistribuQ

/-- What becomes of a job. -/
inductive Phase
  | waiting
  -- worker `w` has taken it at time `since`
  | running (w : WorkerId) (since : Time)
  -- the last attempt has failed, and the next one is due then
  | backoff (error : String) (due : Time)
  | succeeded (result : Option Json)
  | buried (error : String)
  | cancelled

structure Ticket where
  job : NewJob
  attempts : Nat
  phase : Phase

/-- The moves of one job at time `now`; a job that is not posted yet is `none`. -/
inductive Ticket.Move (now : Time) : Option Ticket → Option Ticket → Prop
  | post (job : NewJob) : Move now none (some ⟨job, 0, .waiting⟩)
  | take (job : NewJob) (n : Nat) (w : WorkerId) :
      Move now (some ⟨job, n, .waiting⟩) (some ⟨job, n + 1, .running w now⟩)
  | retake (job : NewJob) (n : Nat) (e : String) (due : Time) (w : WorkerId) :
      Move now (some ⟨job, n, .backoff e due⟩) (some ⟨job, n + 1, .running w now⟩)
  | succeed (job : NewJob) (n : Nat) (w : WorkerId) (since : Time) (result : Option Json) :
      Move now (some ⟨job, n, .running w since⟩) (some ⟨job, n, .succeeded result⟩)
  | retry (job : NewJob) (n : Nat) (w : WorkerId) (since : Time) (e : String) (due : Time) :
      n < job.maxAttempts → Move now (some ⟨job, n, .running w since⟩) (some ⟨job, n, .backoff e due⟩)
  | bury (job : NewJob) (n : Nat) (w : WorkerId) (since : Time) (e : String) :
      job.maxAttempts ≤ n → Move now (some ⟨job, n, .running w since⟩) (some ⟨job, n, .buried e⟩)
  -- the worker is taken for lost
  | reclaim (job : NewJob) (n : Nat) (w : WorkerId) (since : Time) :
      Move now (some ⟨job, n, .running w since⟩) (some ⟨job, n, .waiting⟩)
  | wake (job : NewJob) (n : Nat) (e : String) (due : Time) : due ≤ now →
      Move now (some ⟨job, n, .backoff e due⟩) (some ⟨job, n, .waiting⟩)
  | cancel (job : NewJob) (n : Nat) : Move now (some ⟨job, n, .waiting⟩) (some ⟨job, n, .cancelled⟩)
  | replay (job : NewJob) (n : Nat) (e : String) :
      Move now (some ⟨job, n, .buried e⟩) (some ⟨job, 0, .waiting⟩)

structure Board where
  clock : Time
  tickets : Uuid → Option Ticket

namespace Board

def empty (clock : Time) : Board := ⟨clock, fun _ => none⟩

/-- Time goes on, and any jobs make a move each. -/
def Step (b b' : Board) : Prop :=
  b.clock ≤ b'.clock ∧ Transition.Each (Ticket.Move b.clock) b.tickets b'.tickets

end Board
end DistribuQ
