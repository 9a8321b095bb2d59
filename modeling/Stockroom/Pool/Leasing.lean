import Mathlib.Logic.Basic
import Stockroom.Pool.Grace

/-!
Loans: a resource is checked out for a body, which may do to the pool whatever it likes, and comes
back when the body has returned, failed, crashed or been dropped. Where nothing else goes on in the
meantime, what a loan leaves behind is told by what it found.
-/

namespace Stockroom.Pool
set_option autoImplicit false

namespace Traffic

variable (path : List (Traffic × Traffic)) (i : Nat)

/-- The body of the job at this place was given the resource. -/
def Lent (r : ResourceId) : Prop :=
  ∃ p ∈ path, ∃ j, p.2.jobs[i]? = some j ∧ j.waitsFor = some (.body r)

/-- The job at this place has nothing left to do. -/
def Ended (t : Traffic) : Prop := ∃ j, t.jobs[i]? = some j ∧ j.todo = []

instance (t : Traffic) : Decidable (Ended i t) :=
  inferInstanceAs (Decidable (∃ j ∈ t.jobs[i]?, j.todo = []))

/-- No job goes on but the one at this place, and no other is started. -/
def Alone : Prop := ∀ p ∈ path, ∀ k ≠ i, p.2.jobs[k]? = p.1.jobs[k]?

theorem alone_iff : Alone path i ↔ ∀ p ∈ path,
    ∀ k < max p.1.jobs.length p.2.jobs.length, k ≠ i → p.2.jobs[k]? = p.1.jobs[k]? := by
  refine forall₂_congr fun p _ => ⟨fun h k _ => h k, fun h k hne => ?_⟩
  rcases Nat.lt_or_ge k (max p.1.jobs.length p.2.jobs.length) with hlt | hge
  · exact h k hlt hne
  · rw [List.getElem?_eq_none (by omega), List.getElem?_eq_none (by omega)]

instance : Decidable (Alone path i) := decidable_of_iff' _ (alone_iff path i)

/-- Whenever the job at this place asks the factory for a resource to lend, it is made. -/
def Supplied : Prop :=
  ∀ p ∈ path, ∀ j, p.1.jobs[i]? = some j → j.waitsFor = some (.make .lend) →
    p.2.jobs[i]? = some j ∨ p.2.made ≠ p.1.made

instance : Decidable (Supplied path i) :=
  inferInstanceAs (Decidable (∀ p ∈ path, ∀ j ∈ p.1.jobs[i]?, _ → _))

/-- What a loan leaves of a pool that nothing else happened to. If nothing was idle, a resource was
made, and it is kept only if there was room for it among those that were checked out. -/
structure Restored (t u : Traffic) : Prop where
  closed : u.state.sets.closed = t.state.sets.closed
  checkedOut : u.state.sets.checkedOut = t.state.sets.checkedOut
  overflow : u.state.sets.overflow = t.state.sets.overflow
  pendingClose : u.state.sets.pendingClose = t.state.sets.pendingClose
  idle : t.state.sets.idle ≠ [] → u.state.sets.idle = t.state.sets.idle
  made : t.state.sets.idle = [] → ∃ r ∉ t.made, u.made = t.made ++ [r] ∧
    if t.state.sets.checkedOut.length < t.state.limits.maxSize then u.state.sets.idle = [r]
    else u.state.sets.idle = [] ∧ u.state.stock.isDestroyed r = true

end Traffic

end Stockroom.Pool
