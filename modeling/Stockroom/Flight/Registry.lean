import Stockroom.Table
import Stockroom.Failure

/-!
The registry of loads in progress. The first caller for a key leads: it gets a call, which it
must complete or abandon. Callers that come while the call is alive follow: they read the
outcome from the call's slot. Completing or abandoning a call settles its slot for good and
takes the key out of the registry, so that the next caller leads again. Slots stay readable
after their call has ended.
-/

namespace Stockroom
set_option autoImplicit false

/-- How a load ended: a value, "no value", or a failure. Every waiter gets the same outcome. -/
abbrev Outcome (V : Type) := Except Failure (Option V)

/-- What can be read from a slot. -/
inductive Progress (V : Type) where
  | running
  | published (outcome : Outcome V)
  | abandoned

/-- The right, and the duty, to end the load of `key` whose slot is `slot`. -/
structure Call where
  key : String
  slot : Nat
deriving DecidableEq, Repr

/-- The position of a caller towards the load of its key. -/
inductive Join where
  | leader (call : Call)
  | follower (slot : Nat)
deriving DecidableEq, Repr

/-- Keys in flight with their slots, and all slots handed out so far. -/
structure Registry (V : Type) where
  calls : Table String Nat := .empty
  slots : List (Progress V) := []

namespace Registry

variable {V : Type}

/-- What the slot holds. A slot that was never opened has nobody behind it. -/
def progress (r : Registry V) (slot : Nat) : Progress V := r.slots.getD slot .abandoned

def contains (r : Registry V) (key : String) : Bool := r.calls.contains key

/-- Open a call for a key that has none. -/
def register (r : Registry V) (key : String) : Call × Registry V :=
  (⟨key, r.slots.length⟩,
    { calls := r.calls.insert key r.slots.length, slots := r.slots ++ [.running] })

def join (r : Registry V) (key : String) : Join × Registry V :=
  match r.calls.get? key with
  | some slot => (.follower slot, r)
  | none => let opened := r.register key; (.leader opened.1, opened.2)

/-- Lead the load of a key only if nothing is in flight for it. -/
def tryLead (r : Registry V) (key : String) : Option Call × Registry V :=
  match r.calls.get? key with
  | some _ => (none, r)
  | none => let opened := r.register key; (some opened.1, opened.2)

/-- Settle the slot of a call and retire its key. -/
def settle (r : Registry V) (call : Call) (p : Progress V) : Registry V where
  calls := r.calls.erase call.key
  slots := r.slots.set call.slot p

def complete (r : Registry V) (call : Call) (outcome : Outcome V) : Registry V :=
  r.settle call (.published outcome)

/-- The call was dropped without an outcome. -/
def abandon (r : Registry V) (call : Call) : Registry V := r.settle call .abandoned

@[simp] theorem progress_register (r : Registry V) (key : String) :
    (r.register key).2.progress (r.register key).1.slot = .running := by
  simp [register, progress]

theorem contains_register (r : Registry V) (key : String) :
    (r.register key).2.contains key = true := by
  simp [register, contains, Table.contains]

theorem contains_settle (r : Registry V) (call : Call) (p : Progress V) :
    (r.settle call p).contains call.key = false := by
  simp [settle, contains, Table.contains]

/-- Only a key without a call gets a leader. -/
theorem join_eq_leader_iff (r : Registry V) (key : String) :
    (∃ call, (r.join key).1 = .leader call) ↔ r.contains key = false := by
  unfold join contains Table.contains
  cases r.calls.get? key <;> simp

theorem tryLead_isSome_iff (r : Registry V) (key : String) :
    (r.tryLead key).1.isSome = true ↔ r.contains key = false := by
  unfold tryLead contains Table.contains
  cases r.calls.get? key <;> simp

end Registry

/-- What a waiter for `key` gets from its slot, and `none` while it has to go on waiting. Where both
an outcome and a token that has fired are there, either may count; `tokenFirst` says which. -/
def Progress.answer {V : Type} (p : Progress V) (key : String) (cancelled : Bool)
    (tokenFirst : Bool := false) : Option (Outcome V) :=
  if tokenFirst && cancelled then some (.error (.cancelled key))
  else
    match p with
    | .published outcome => some outcome
    | .abandoned => some (.error (.loadAbandoned key))
    | .running => if cancelled then some (.error (.cancelled key)) else none

theorem Progress.answer_eq_none_iff {V : Type} {p : Progress V} {key : String}
    {cancelled tokenFirst : Bool} :
    p.answer key cancelled tokenFirst = none ↔ p = .running ∧ cancelled = false := by
  cases p <;> cases cancelled <;> cases tokenFirst <;> simp [answer]

end Stockroom
