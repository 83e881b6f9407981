import DistribuQ.Model.System

/-! One process by itself: between its calls time passes, and no other process makes a call. -/

namespace DistribuQ

/-- The time until the next call of the process, and what the environment chooses for it. -/
structure Turn where
  elapsed : Nat := 0
  choice : Choice := {}

def Store.wait (st : Store) (n : Nat) : Store := { st with clock := st.clock + n }

namespace Solo

def step (env : Env) (pid : Nat) (x : Store × Proc) (m : Turn) : Option (Store × Proc) := do
  let op ← x.2.next env pid
  op.exec env m.choice (x.1.wait m.elapsed)

end Solo
end DistribuQ
