import Stockroom.Pool.Grace

/-!
Jobs that take many resources out of the sets at once and then destroy them one after the other.
-/

namespace Stockroom.Pool.Traffic
set_option autoImplicit false

/-- The job at this place takes these resources out of the sets, to destroy them: it closes the pool
and takes them all, or it sweeps and takes those that have waited too long. -/
inductive Empties (i : Nat) (t u : Traffic) : List ResourceId → Prop where
  | close : t.state.sets.closed = false → Does i .close t u → Empties i t u t.state.sets.close.1
  | sweep : Does i .sweep t u →
      Empties i t u (t.state.sets.takeDue t.state.limits.maxUsage t.now).1

end Stockroom.Pool.Traffic
