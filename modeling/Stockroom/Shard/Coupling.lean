import Stockroom.Shard.Request

/-!
How the parts of a partition hang together. The order and the entries are two maps that ought to be
inverse to each other, and the used bytes a sum that is never worked out again. The operations do not
check this: where a stamp or an entry is missing they go on without it. The strict operations here do
the same work but give up as soon as something is missing, as more weight is to be taken off than
there is or added than can be counted, or as eviction is at its end and still over budget.
-/

namespace Stockroom.Shard
set_option autoImplicit false

variable {V : Type}

/-- A stamp leads to the key whose entry bears it, and all of them are below the counter. -/
structure Coupled (s : Shard V) : Prop where
  order_iff : ∀ (stamp : UInt64) (key : Key), s.order[stamp]? = some key ↔
    ∃ slot, s.slots[key]? = some slot ∧ slot.stamp = stamp
  fresh : ∀ (key : Key) (slot : Slot V), s.slots[key]? = some slot → slot.stamp < s.nextStamp

/-- The entries by their stamps, so that the least recently used one comes first. -/
def byUse (s : Shard V) : List (Key × Entry V) :=
  s.order.toList.filterMap fun r => (s.peek? r.2).map fun e => (r.2, e)

/-- The exact weight of a list of entries. -/
def weightOfAll (l : List (Key × Entry V)) : Nat :=
  l.foldr (fun r total => r.2.weight.toNat + total) 0

/-! ### Operations that tolerate nothing -/

namespace Strict

/-- Take a stamp out of the order. The answer is the key that it led to. -/
def takeStamp (s : Shard V) (stamp : UInt64) : Option (Key × Shard V) :=
  match s.order[stamp]? with
  | some key => some (key, { s with order := s.order.erase stamp })
  | none => none

def takeWeight (s : Shard V) (weight : UInt64) : Option (Shard V) :=
  if weight ≤ s.usedBytes then some { s with usedBytes := s.usedBytes - weight } else none

def remove (s : Shard V) (key : Key) : Option (Bool × Shard V) :=
  match s.slots[key]? with
  | some slot =>
    (takeStamp { s with slots := s.slots.erase key } slot.stamp).bind fun r =>
      (takeWeight r.2 slot.weight).map fun t => (true, t)
  | none => some (false, s)

/-- Draw a stamp for a key that bore another one. The entry is looked up again after that. -/
def touch (s : Shard V) (key : Key) (old : UInt64) : Option (Slot V × Shard V) :=
  let drawn := { s with nextStamp := s.nextStamp + 1 }
  match drawn.slots[key]? with
  | some slot =>
    let slots := drawn.slots.insert key { slot with stamp := s.nextStamp }
    (takeStamp { drawn with slots } old).map fun r =>
      (slot, { r.2 with order := r.2.order.insert s.nextStamp r.1 })
  | none => none

def get (s : Shard V) (key : Key) (now : Instant) : Option (Lookup V × Shard V) :=
  match s.slots[key]? with
  | some slot =>
    if slot.expired now then (remove s key).map fun r => (.expired, r.2)
    else (touch s key slot.stamp).map fun r => (.hit (r.1.snapshot now), r.2)
  | none => some (.miss, s)

def evict : (fuel : Nat) → Shard V → Option (Nat × Shard V)
  | 0, s => if s.overBudget then none else some (0, s)
  | fuel + 1, s =>
    if s.overBudget then
      match s.oldest? with
      | none => none
      | some (stamp, key) =>
        match s.slots[key]? with
        | some slot =>
          let rest := { s with slots := s.slots.erase key, order := s.order.erase stamp }
          (takeWeight rest slot.weight).bind fun t =>
            (evict fuel t).map fun r => (r.1 + 1, r.2)
        | none => none
    else some (0, s)

def insert (s : Shard V) (key : Key) (e : Entry V) : Option (Insertion × Shard V) :=
  (remove s key).bind fun removed =>
    if removed.2.HasRoom e then
      let added := removed.2.add key e
      (evict added.order.size added).map fun r => (⟨removed.1, r.1⟩, r.2)
    else none

def handle (now : Instant) (s : Shard V) : Request V → Option (Answer V × Shard V)
  | .insert key value ttl weight =>
    match Entry.at? now value ttl weight with
    | none => some (.refused, s)
    | some e => (insert s key e).map fun r => (.inserted r.1, r.2)
  | .get key => (get s key now).map fun r => (.found r.1, r.2)
  | .contains key => some (.told (s.contains key now), s)
  | .remove key => (remove s key).map fun r => (.told r.1, r.2)
  | .clear => let r := s.clear; some (.counted r.1, r.2)

/-- Carry out requests and observe every step, or give up. -/
def run : Shard V → List (Instant × Request V) → Option (List (Observation V) × Shard V)
  | s, [] => some ([], s)
  | s, (now, request) :: rest =>
    (handle now s request).bind fun r =>
      (run r.2 rest).map fun later =>
        (⟨r.1, r.2.size, r.2.usedBytes.toNat⟩ :: later.1, later.2)

end Strict

/-! ### What an insertion evicts -/

/-- The entries after an insertion, by use, before anything is evicted. -/
def candidates (s : Shard V) (key : Key) (e : Entry V) : List (Key × Entry V) :=
  (s.byUse.filter fun r => r.1 ≠ key) ++ [(key, e)]

/-- An insertion drops entries from the front, and no more than it must to come within the budget. -/
structure EvictsShortest (s : Shard V) (key : Key) (e : Entry V) (i : Insertion) : Prop where
  inserts : (s.insert key e).1 = .ok i
  kept : (s.insert key e).2.byUse = (s.candidates key e).drop i.evicted
  within : 0 < s.capacity →
    weightOfAll ((s.candidates key e).drop i.evicted) ≤ s.capacity.toNat
  shortest : ∀ n < i.evicted, 0 < s.capacity ∧
    s.capacity.toNat < weightOfAll ((s.candidates key e).drop n)

end Stockroom.Shard
