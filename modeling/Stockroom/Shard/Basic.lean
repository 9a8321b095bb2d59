import Std.Data.ExtTreeMap
import Stockroom.Failure
import Stockroom.Shard.Entry

/-!
One partition of a cache: entries under a byte budget, evicted in the order in which they were
last used. Recency is kept beside the entries. Each write or hit draws a new stamp, and `order`
takes stamps back to keys; since stamps grow, the least stamp of `order` is that of the least
recently used key. Both maps are search trees up to their shape: two that answer every look-up
alike are equal. `Stockroom.Shard.Recency` holds the plain list that this arrangement stands for.
-/

namespace Stockroom
set_option autoImplicit false

/-- A key together with the hash that picks its partition. -/
structure Key where
  hash : UInt64
  name : String
deriving DecidableEq, Repr, Inhabited

/-- Keys are ordered by hash, and by name where the hashes agree. -/
instance : Ord Key := ⟨fun a b => (compare a.hash b.hash).then (compare a.name b.name)⟩

instance : Std.TransOrd Key :=
  inferInstanceAs (Std.TransCmp (compareLex (compareOn Key.hash) (compareOn Key.name)))

instance : Std.LawfulEqOrd Key where
  eq_of_compare {a b} h := by
    obtain ⟨hhash, hname⟩ := Ordering.then_eq_eq.mp h
    cases a
    cases b
    cases Std.LawfulEqOrd.eq_of_compare hhash
    cases Std.LawfulEqOrd.eq_of_compare hname
    rfl

/-- An entry and the stamp of its last use. -/
structure Slot (V : Type) extends Entry V where
  stamp : UInt64

/-- Entries and their recency under a byte budget. -/
structure Shard (V : Type) where
  slots : Std.ExtTreeMap Key (Slot V) := ∅
  /-- The keys that stamps were drawn for. -/
  order : Std.ExtTreeMap UInt64 Key := ∅
  nextStamp : UInt64 := 0
  /-- The total weight, as a 64-bit word. -/
  usedBytes : UInt64 := 0
  /-- Zero for no bound. -/
  capacity : UInt64

/-- The answer to a look-up. An expired entry has been removed by it. -/
inductive Lookup (V : Type) where
  | hit (found : Snapshot V)
  | expired
  | miss
deriving DecidableEq, Repr

def Lookup.found? {V : Type} : Lookup V → Option (Snapshot V)
  | hit found => some found
  | _ => none

/-- What an insertion did besides adding its entry. -/
structure Insertion where
  replaced : Bool
  evicted : Nat
deriving DecidableEq, Repr

namespace Shard

variable {V : Type}

def new (capacity : UInt64) : Shard V := { capacity }

def size (s : Shard V) : Nat := s.slots.size

def peek? (s : Shard V) (key : Key) : Option (Entry V) := s.slots[key]?.map Slot.toEntry

def remove (s : Shard V) (key : Key) : Bool × Shard V :=
  match s.slots[key]? with
  | some slot =>
    (true, { s with
      slots := s.slots.erase key
      order := s.order.erase slot.stamp
      usedBytes := s.usedBytes - slot.weight })
  | none => (false, s)

/-- Make `key`, whose slot is `slot`, the most recently used one. -/
def touch (s : Shard V) (key : Key) (slot : Slot V) : Shard V :=
  { s with
    slots := s.slots.insert key { slot with stamp := s.nextStamp }
    order :=
      match s.order[slot.stamp]? with
      | some owner => (s.order.erase slot.stamp).insert s.nextStamp owner
      | none => s.order
    nextStamp := s.nextStamp + 1 }

/-- Look up a key: a hit becomes the most recently used entry, an expired entry is removed. -/
def get (s : Shard V) (key : Key) (now : Instant) : Lookup V × Shard V :=
  match s.slots[key]? with
  | some slot =>
    if slot.expired now then (.expired, (s.remove key).2)
    else (.hit (slot.snapshot now), s.touch key slot)
  | none => (.miss, s)

/-- Whether a live entry is there. Recency stays as it is. -/
def contains (s : Shard V) (key : Key) (now : Instant) : Bool :=
  match s.slots[key]? with
  | some slot => !slot.expired now
  | none => false

def overBudget (s : Shard V) : Bool := s.capacity > 0 && s.usedBytes > s.capacity

/-- The least recently used key, under its stamp. -/
def oldest? (s : Shard V) : Option (UInt64 × Key) :=
  s.order.minKey?.bind fun stamp => s.order[stamp]?.map fun key => (stamp, key)

/-- Drop the least recently used entries while over budget; `fuel` bounds how many stamps are
looked at. The answer counts the entries dropped. -/
def evict : (fuel : Nat) → Shard V → Nat × Shard V
  | 0, s => (0, s)
  | fuel + 1, s =>
    if s.overBudget then
      match s.oldest? with
      | none => (0, s)
      | some (stamp, key) =>
        match s.slots[key]? with
        | some slot =>
          let r := evict fuel { s with
            slots := s.slots.erase key
            order := s.order.erase stamp
            usedBytes := s.usedBytes - slot.weight }
          (r.1 + 1, r.2)
        | none => evict fuel { s with order := s.order.erase stamp }
    else (0, s)

/-- Add an entry as the most recently used one. -/
def add (s : Shard V) (key : Key) (e : Entry V) : Shard V :=
  { s with
    slots := s.slots.insert key { e with stamp := s.nextStamp }
    order := s.order.insert s.nextStamp key
    nextStamp := s.nextStamp + 1
    usedBytes := s.usedBytes + e.weight }

/-- The used bytes can be counted with an entry added to them. -/
def HasRoom (s : Shard V) (e : Entry V) : Prop :=
  s.usedBytes.toNat + e.weight.toNat < UInt64.size

instance (s : Shard V) (e : Entry V) : Decidable (s.HasRoom e) :=
  inferInstanceAs (Decidable (_ < _))

/-- Insert or replace an entry, then evict down to the budget. If a word cannot count the used bytes
on the way, this crashes; then the old entry is gone and a stamp has been drawn. -/
def insert (s : Shard V) (key : Key) (e : Entry V) : Except Crash Insertion × Shard V :=
  let removed := s.remove key
  if removed.2.HasRoom e then
    let added := removed.2.add key e
    let r := added.evict added.order.size
    (.ok ⟨removed.1, r.1⟩, r.2)
  else (.error .weightOverflow, { removed.2 with nextStamp := removed.2.nextStamp + 1 })

def clear (s : Shard V) : Nat × Shard V :=
  (s.size, { s with slots := ∅, order := ∅, usedBytes := 0 })

/-! ### What the operations leave alone -/

@[simp] theorem capacity_new (capacity : UInt64) : (new capacity : Shard V).capacity = capacity :=
  rfl

theorem capacity_remove (s : Shard V) (key : Key) : (s.remove key).2.capacity = s.capacity := by
  unfold remove
  split <;> rfl

theorem capacity_get (s : Shard V) (key : Key) (now : Instant) :
    (s.get key now).2.capacity = s.capacity := by
  unfold get
  split
  · split
    · exact capacity_remove s key
    · rfl
  · rfl

/-- Eviction keeps what is kept when the entry that the oldest stamp leads to is dropped, and when a
stamp that leads to no entry is. -/
theorem evict_induction {p : Shard V → Prop}
    (hdrop : ∀ {s : Shard V} {stamp : UInt64} {key : Key} {slot : Slot V},
      s.oldest? = some (stamp, key) → s.slots[key]? = some slot → p s →
      p { s with
        slots := s.slots.erase key
        order := s.order.erase stamp
        usedBytes := s.usedBytes - slot.weight })
    (hskip : ∀ {s : Shard V} {stamp : UInt64} {key : Key}, s.oldest? = some (stamp, key) →
      s.slots[key]? = none → p s → p { s with order := s.order.erase stamp })
    (fuel : Nat) {s : Shard V} (h : p s) : p (s.evict fuel).2 := by
  induction fuel generalizing s with
  | zero => exact h
  | succ fuel ih =>
    unfold evict
    split
    · split
      · exact h
      · rename_i hold
        split
        · rename_i hslot
          exact ih (hdrop hold hslot h)
        · rename_i hnone
          exact ih (hskip hold hnone h)
    · exact h

theorem capacity_evict (fuel : Nat) (s : Shard V) : (s.evict fuel).2.capacity = s.capacity := by
  apply evict_induction (p := fun t => t.capacity = s.capacity)
  · intro t stamp key slot hold hslot h
    exact h
  · intro t stamp key hold hnone h
    exact h
  · rfl

/-! ### The two ways of an insertion -/

/-- The used bytes can be counted with an entry in the place of that of its key. -/
def Fits (s : Shard V) (key : Key) (e : Entry V) : Prop := (s.remove key).2.HasRoom e

instance (s : Shard V) (key : Key) (e : Entry V) : Decidable (s.Fits key e) :=
  inferInstanceAs (Decidable (HasRoom _ _))

/-- What an insertion of an entry that fits does. -/
def place (s : Shard V) (key : Key) (e : Entry V) : Insertion × Shard V :=
  let added := (s.remove key).2.add key e
  let r := added.evict added.order.size
  (⟨(s.remove key).1, r.1⟩, r.2)

/-- What an insertion leaves that crashes. -/
def forfeit (s : Shard V) (key : Key) : Shard V :=
  { (s.remove key).2 with nextStamp := (s.remove key).2.nextStamp + 1 }

theorem insert_of_fits {s : Shard V} {key : Key} {e : Entry V} (h : s.Fits key e) :
    s.insert key e = (.ok (s.place key e).1, (s.place key e).2) := if_pos h

theorem insert_of_not_fits {s : Shard V} {key : Key} {e : Entry V} (h : ¬ s.Fits key e) :
    s.insert key e = (.error .weightOverflow, s.forfeit key) := if_neg h

/-- What both ways of an insertion lead to, the insertion leads to. -/
theorem insert_induction {p : Shard V → Prop} {s : Shard V} {key : Key} {e : Entry V}
    (hplace : s.Fits key e → p (s.place key e).2) (hforfeit : ¬ s.Fits key e → p (s.forfeit key)) :
    p (s.insert key e).2 := by
  by_cases h : s.Fits key e
  · rw [insert_of_fits h]
    exact hplace h
  · rw [insert_of_not_fits h]
    exact hforfeit h

theorem capacity_place (s : Shard V) (key : Key) (e : Entry V) :
    (s.place key e).2.capacity = s.capacity := by
  unfold place
  simp only [capacity_evict]
  exact capacity_remove s key

theorem capacity_forfeit (s : Shard V) (key : Key) : (s.forfeit key).capacity = s.capacity :=
  capacity_remove s key

theorem capacity_insert (s : Shard V) (key : Key) (e : Entry V) :
    (s.insert key e).2.capacity = s.capacity := by
  apply insert_induction (p := fun t => t.capacity = s.capacity)
  · intro hfits
    exact capacity_place s key e
  · intro hfits
    exact capacity_forfeit s key

end Shard

end Stockroom
