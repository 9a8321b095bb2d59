import Stockroom.Pool.Job

/-!
A pass over the sets that takes back what was checked out too long ago, from its first step to its
last. It waits for no callback, so nothing comes between its steps, and all of them are made at one
instant. The sets may list their resources in any order, which is the order in which the pass goes
through them.
-/

namespace Stockroom.Pool
set_option autoImplicit false

namespace Job

/-- So many steps in a row. A job that waits for a callback stays where it is, and so does one that
has ended. -/
def steps (now : Instant) : (count : Nat) → State → Job → State × Job
  | 0, s, j => (s, j)
  | count + 1, s, j => steps now count (j.step now s).1 (j.step now s).2

end Job

namespace State

/-- Whether it was checked out longer ago than a loan may last. -/
def isOverdue (s : State) (now : Instant) (r : ResourceId) : Bool :=
  Sets.isOver s.limits.maxUsage (s.stock.lastUsed r) now

/-- How many more resources can be kept. -/
def room (s : State) : Nat := s.limits.maxSize - (s.sets.idle.length + s.sets.checkedOut.length)

/-- What becomes of a pool when all that is overdue is taken back: it is idle as far as there is
room, and waits in pending close otherwise. -/
structure Reclaimed (s : State) (now : Instant) (s' : State) : Prop where
  frame : s' = { s with sets := s'.sets }
  closed : s'.sets.closed = false
  checkedOut : s'.sets.checkedOut = s.sets.checkedOut.filter fun r => !s.isOverdue now r
  overflow : s'.sets.overflow = s.sets.overflow.filter fun r => !s.isOverdue now r
  returned : ∃ kept left, s.sets.overflow.filter (s.isOverdue now) = kept ++ left ∧
    kept.length = min (s.sets.overflow.countP (s.isOverdue now)) s.room ∧
    s'.sets.idle = s.sets.idle ++ s.sets.checkedOut.filter (s.isOverdue now) ++ kept ∧
    ∀ r, s'.sets.pendingClose.get? r =
      if r ∈ left then some now else s.sets.pendingClose.get? r

end State

end Stockroom.Pool
