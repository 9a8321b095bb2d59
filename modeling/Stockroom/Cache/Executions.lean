import Stockroom.Cache.Deeds

/-!
Executions and what they store. A move is at most one execution's turn. In its turn an execution
either carries out what its loader asks for, which is the loader's own doing, or it goes on by
itself: it begins, waits, asks the archive, ends. What it writes by itself is its result.
-/

namespace Stockroom.Cache
set_option autoImplicit false

variable {V : Type}

/-- The execution that a task is, with what it was started for. -/
def Task.exec? : Task V → Option (Call × Cause)
  | .start call cause _ | .paused call cause .. | .fetching call cause .. => some (call, cause)
  | .restoring call _ => some (call, .miss)
  | _ => none

def Running.exec (r : Running V) : Call × Cause := (r.call, r.cause)

namespace World

/-- The executions whose call is alive: of the loader that runs, and of the tasks. -/
def execs (w : World V) (running : Option (Running V)) : List (Call × Cause) :=
  (running.map Running.exec).toList ++ w.tasks.filterMap Task.exec?

/-- The result, if its write does not crash. -/
def landing? (w : World V) (y : Option (Yield V)) : Option (Yield V) :=
  y.filter fun y => (y.deed? w).any Deed.isWrite

end World

namespace Moment

def execs (m : Moment V) : List (Call × Cause) := m.world.execs m.running

/-- The execution whose turn the next move is. -/
def turn? (m : Moment V) : Move V → Option (Call × Cause)
  | .run i => if m.running.isNone then m.world.ready[i]?.bind Task.exec? else none
  | .goOn => m.running.map Running.exec
  | _ => none

/-- The result that the next move stores. -/
def stored? (m : Moment V) (move : Move V) : Option (Yield V) :=
  m.world.landing? (m.yield? move)

/-- What the moves of a run store for the execution of a call, what its loader writes apart. -/
def insertions (call : Call) : Moment V → List (Move V) → List (Yield V)
  | _, [] => []
  | m, move :: moves =>
    ((m.stored? move).filter fun y => y.call = call).toList ++
      (m.step move).insertions call moves

end Moment

end Stockroom.Cache
