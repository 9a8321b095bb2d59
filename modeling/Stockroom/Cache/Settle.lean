import Stockroom.Cache.Step

/-!
Settling: the ready queue is run, first come first served, until nothing can run. Scripts are
finite, so this ends; the work that is left in the tasks bounds how long it takes.
-/

namespace Stockroom.Cache
set_option autoImplicit false

variable {V : Type}

/-- A bound on the runs that a script can cause. -/
def Script.work : Script V → Nat
  | .done _ | .relay => 4
  | .fail _ | .crash _ => 1
  | .await _ rest => rest.work + 1
  | .act _ rest => rest.work + 3
  | .fetch _ _ loader rest => loader.work + rest.work + 7

/-- A bound on the runs that a task can cause. -/
def Task.work : Task V → Nat
  | .request _ _ loader _ => loader.script.work + 8
  | .waiter .. => 1
  | .start _ _ loader => loader.script.work + 6
  | .restoring _ loader => loader.script.work + 5
  | .paused _ _ _ _ rest => rest.work + 1
  | .fetching _ _ _ _ rest => rest.work + 1
  | .save .. => 2
  | .saving .. => 1

namespace World

def work (w : World V) : Nat :=
  (w.ready ++ w.parked).foldl (fun n t => n + t.work) 0

/-- Run the first ready task, at most `fuel` times. -/
def runReady : (fuel : Nat) → World V → World V
  | 0, w => w
  | fuel + 1, w =>
    match w.ready with
    | [] => w
    | t :: rest => runReady fuel ({ w with ready := rest }.poll t)

/-- Enough fuel to run the queue dry: each run uses up work or shortens the queue, and there are
never more tasks than work. -/
def fuel (w : World V) : Nat := (w.work + 1) * (w.work + 1)

def settle (w : World V) : World V := runReady w.fuel w

theorem runReady_of_ready_eq_nil (fuel : Nat) {w : World V} (h : w.ready = []) :
    runReady fuel w = w := by
  cases fuel with
  | zero => rfl
  | succ fuel => simp [runReady, h]

end World

end Stockroom.Cache
