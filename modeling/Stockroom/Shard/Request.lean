import Stockroom.Shard.Recency

/-!
Requests to a partition and their answers, so that a partition and a recency list can be given
the same requests at the same times and be compared by what they answer.
-/

namespace Stockroom
set_option autoImplicit false

inductive Shard.Request (V : Type) where
  | insert (key : Key) (value : Option V) (ttl : Duration) (weight : UInt64)
  | get (key : Key)
  | contains (key : Key)
  | remove (key : Key)
  | clear

inductive Shard.Answer (V : Type) where
  | inserted (result : Insertion)
  | found (result : Lookup V)
  | told (result : Bool)
  | counted (result : Nat)
  /-- The deadline of the entry could not be represented; nothing was done. -/
  | refused
  /-- The weight of the entry did not fit; what was there under its key is gone. -/
  | overflowed
deriving DecidableEq, Repr

/-- The answer to an insertion that was carried out or crashed. -/
def Shard.Answer.ofInsertion {V : Type} : Except Crash Insertion → Shard.Answer V
  | .ok result => .inserted result
  | .error _ => .overflowed

/-- How many stamps a request with this answer has drawn: one for a write and one for a hit. -/
def Shard.Answer.stamps {V : Type} : Shard.Answer V → Nat
  | .inserted _ | .overflowed | .found (.hit _) => 1
  | _ => 0

@[simp] theorem Shard.Answer.stamps_ofInsertion {V : Type} (r : Except Crash Insertion) :
    (ofInsertion r : Shard.Answer V).stamps = 1 := by
  cases r <;> rfl

/-- What can be seen after a request: the answer, the number of entries and their weight. -/
structure Shard.Observation (V : Type) where
  answer : Shard.Answer V
  size : Nat
  weight : Nat
deriving DecidableEq, Repr

variable {V : Type}

def Shard.handle (now : Instant) (s : Shard V) : Shard.Request V → Shard.Answer V × Shard V
  | .insert key value ttl weight =>
    match Entry.at? now value ttl weight with
    | none => (.refused, s)
    | some e => let r := s.insert key e; (.ofInsertion r.1, r.2)
  | .get key => let r := s.get key now; (.found r.1, r.2)
  | .contains key => (.told (s.contains key now), s)
  | .remove key => let r := s.remove key; (.told r.1, r.2)
  | .clear => let r := s.clear; (.counted r.1, r.2)

/-- The same requests to a recency list under a budget. -/
def Recency.handle (capacity : Nat) (now : Instant) (l : Recency V) :
    Shard.Request V → Shard.Answer V × Recency V
  | .insert key value ttl weight =>
    if (now.after? ttl).isNone then (.refused, l)
    else let r := l.insert capacity ⟨key, value, ttl, now, weight⟩; (.inserted r.1, r.2)
  | .get key => let r := l.get key now; (.found r.1, r.2)
  | .contains key => (.told (l.contains key now), l)
  | .remove key => let r := l.remove key; (.told r.1, r.2)
  | .clear => let r := l.clear; (.counted r.1, r.2)

/-- Carry out requests, each at its own time, and observe every step. -/
def Shard.run : Shard V → List (Instant × Shard.Request V) → List (Shard.Observation V) × Shard V
  | s, [] => ([], s)
  | s, (now, request) :: rest =>
    let r := s.handle now request
    let later := r.2.run rest
    (⟨r.1, r.2.size, r.2.usedBytes.toNat⟩ :: later.1, later.2)

/-- The same requests to a recency list, observed in the same way. -/
def Recency.run (capacity : Nat) :
    Recency V → List (Instant × Shard.Request V) → List (Shard.Observation V) × Recency V
  | l, [] => ([], l)
  | l, (now, request) :: rest =>
    let r := l.handle capacity now request
    let later := Recency.run capacity r.2 rest
    (⟨r.1, r.2.length, r.2.weight⟩ :: later.1, later.2)

/-- What is being written and what stays beside it weigh less than a word can count. -/
def Shard.Request.FitsBeside (l : Recency V) : Shard.Request V → Prop
  | .insert key _ _ weight => (l.without key).weight + weight.toNat < UInt64.size
  | _ => True

instance (l : Recency V) : (r : Shard.Request V) → Decidable (r.FitsBeside l)
  | .insert .. => inferInstanceAs (Decidable (_ < _))
  | .get _ | .contains _ | .remove _ | .clear => inferInstanceAs (Decidable True)

/-- Requests to a recency list for which words are wide enough: weights never add up to more than
a word can count, and after `drawn` stamps so few more are drawn that the counter never wraps. -/
def Recency.FitsWords (capacity : Nat) :
    (drawn : Nat) → Recency V → List (Instant × Shard.Request V) → Prop
  | _, _, [] => True
  | drawn, l, (now, request) :: rest =>
    let r := l.handle capacity now request
    request.FitsBeside l ∧ drawn + r.1.stamps < UInt64.size ∧
      FitsWords capacity (drawn + r.1.stamps) r.2 rest

instance Recency.decidableFitsWords (capacity : Nat) : (drawn : Nat) → (l : Recency V) →
    (requests : List (Instant × Shard.Request V)) → Decidable (l.FitsWords capacity drawn requests)
  | _, _, [] => inferInstanceAs (Decidable True)
  | drawn, l, (now, request) :: rest =>
    let r := l.handle capacity now request
    have := Recency.decidableFitsWords capacity (drawn + r.1.stamps) r.2 rest
    inferInstanceAs (Decidable (_ ∧ _ ∧ _))

end Stockroom
