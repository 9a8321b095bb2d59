import Mathlib.Data.List.Forall2
import Stockroom.Pool.Leasing

/-!
A pass over what is idle. It lists the idle resources, has each of them checked, and sends for
another one in the place of each that fails. Callbacks may do anything to the pool in the meantime,
so when the replacement is there the pass looks again whether the failed one is still idle.
-/

namespace Stockroom.Pool
set_option autoImplicit false

namespace Traffic

variable (path : List (Traffic × Traffic)) (i : Nat)

/-- The job at this place comes to this next. -/
def Faces (instr : Instr) (t : Traffic) : Prop :=
  ∃ j rest, t.jobs[i]? = some j ∧ j.todo = instr :: rest

/-- The callback that the job at this place waits for ends like this. -/
def Answers (callback : Callback) (reply : Reply) (t u : Traffic) : Prop :=
  ∃ before j after, t.jobs = before ++ j :: after ∧ before.length = i ∧
    j.waitsFor = some callback ∧ u = t.proceed before after (j.reply t.now t.state reply)

/-- The job at this place goes on after the check of the resource, whatever it has found. -/
def Checks (r : ResourceId) (t u : Traffic) : Prop :=
  Faces i (.call (.check r)) t ∧ u.jobs[i]? ≠ t.jobs[i]?

/-- It goes on, and does not ask for a replacement. -/
def Passes (r : ResourceId) (t u : Traffic) : Prop :=
  Checks i r t u ∧ ¬ Faces i (.call (.makeInstead r)) u

/-- The resource failed its check, and `new` was made to replace it. -/
def Offers (old new : ResourceId) (t u : Traffic) : Prop :=
  Faces i (.call (.makeInstead old)) t ∧ u.jobs[i]? ≠ t.jobs[i]? ∧ u.made = t.made ++ [new]

def Checked (r : ResourceId) : Prop := ∃ p ∈ path, Checks i r p.1 p.2

def Passed (r : ResourceId) : Prop := ∃ p ∈ path, Passes i r p.1 p.2

def Offered (old new : ResourceId) : Prop := ∃ p ∈ path, Offers i old new p.1 p.2

/-- The instant of a replacement, and which of the two has no place then. -/
inductive Settles (old new : ResourceId) (t u : Traffic) : ResourceId → Prop where
  /-- The failed one is still idle. The other one takes exactly its place. -/
  | replaced (front back : List ResourceId) : t.state.sets.idle = front ++ old :: back →
      u.state = { t.state with sets := { t.state.sets with idle := front ++ new :: back } } →
      Settles old new t u old
  /-- It was checked out, discarded, replaced or closed meanwhile. -/
  | refused : old ∉ t.state.sets.idle → u.state = t.state → Settles old new t u new

/-- The job at this place has put the one in the place of the other, or tried to. -/
def Exchanged (old new loser : ResourceId) : Prop :=
  ∃ p ∈ path, Does i (.exchange old new) p.1 p.2 ∧ Settles old new p.1 p.2 loser

/-- It had no place after a replacement of this pass. -/
def Lost (r : ResourceId) : Prop := ∃ old new, Exchanged path i old new r

/-- What the pass at this place does to the pool at one step. -/
structure Tends (t u : Traffic) : Prop where
  passes : ∀ r, Answers i (.check r) .ok t u → Passes i r t u
  fails : ∀ r text, Answers i (.check r) (.fail text) t u → Faces i (.call (.makeInstead r)) u
  makes : ∀ old, Answers i (.makeInstead old) .ok t u → ∃ new, Offers i old new t u
  offers : ∀ old new, Offers i old new t u → new ∉ t.made ∧ Faces i (.exchange old new) u
  exchanges : ∀ old new, Does i (.exchange old new) t u → Offered path i old new ∧
    ∃ loser, Settles old new t u loser ∧ Faces i (.destroy loser) u
  destroys : ∀ r, Does i (.destroy r) t u → Lost path i r ∧ u.state.stock.isDestroyed r = true
  spares : u.jobs[i]? ≠ t.jobs[i]? → (∀ old new, ¬ Does i (.exchange old new) t u) →
    u.state.sets = t.state.sets
  spared : u.jobs[i]? ≠ t.jobs[i]? → ∀ r ∈ t.made, ¬ Does i (.destroy r) t u →
    u.state.stock.isDestroyed r = t.state.stock.isDestroyed r

/-- What a pass has made of a pool that nothing else happened to: each idle resource is where it
was, or a new one is in its place. -/
structure Renewed (mayCrash : Callback → Prop) (t u : Traffic) : Prop where
  closed : u.state.sets.closed = t.state.sets.closed
  checkedOut : u.state.sets.checkedOut = t.state.sets.checkedOut
  overflow : u.state.sets.overflow = t.state.sets.overflow
  pendingClose : u.state.sets.pendingClose = t.state.sets.pendingClose
  idle : List.Forall₂
    (fun r r' => r' = r ∧ (∀ new, ¬ Offered path i r new) ∨ Offered path i r r' ∧ r' ∉ t.made)
    t.state.sets.idle u.state.sets.idle
  destroyed : ∀ old new, Offered path i old new → u.state.stock.isDestroyed old = true
  checked : (∀ callback, ¬ mayCrash callback) → ∀ r ∈ t.state.sets.idle, Checked path i r

end Traffic

end Stockroom.Pool
