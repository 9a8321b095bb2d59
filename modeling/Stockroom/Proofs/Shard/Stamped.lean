import Mathlib.Data.List.Nodup
import Mathlib.Data.List.Pairwise
import Stockroom.Shard.Request
import Stockroom.Table

/-! The list that a partition stands for. Its rows are writes under their stamps; stamps grow
along the list, so the first row is the one that eviction comes to next. -/

namespace Stockroom
set_option autoImplicit false

variable {V : Type}

/-- The entry that a write puts into a partition. -/
def Written.entry (w : Written V) : Entry V :=
  ⟨w.value, w.ttl, ⟨w.since.nanos + w.ttl.nanos⟩, w.weight⟩

theorem Written.expired_entry (w : Written V) (now : Instant) :
    w.entry.expired now = decide (w.Expired now) := by
  rw [Bool.eq_iff_iff, Entry.expired_iff, decide_eq_true_iff]
  exact Iff.rfl

theorem Written.snapshot_entry (w : Written V) (now : Instant) :
    w.entry.snapshot now = w.view now := by
  simp [entry, view, Entry.snapshot, Entry.remaining, Duration.isZero, Instant.since]

/-- The entry of a write exists as soon as its deadline can be represented. -/
theorem Written.entry_eq_of_at? {w : Written V} {e : Entry V}
    (h : Entry.at? w.since w.value w.ttl w.weight = some e) : e = w.entry := by
  unfold Entry.at? at h
  obtain ⟨deadline, hd, rfl⟩ := Option.map_eq_some_iff.mp h
  have hn := Instant.nanos_of_after? hd
  cases deadline
  simp_all [entry]

/-- Writes under the stamps of their last use. -/
abbrev Stamped (V : Type) := List (UInt64 × Written V)

namespace Stamped

/-- The same writes without stamps. -/
def writes (l : Stamped V) : Recency V := l.map Prod.snd

/-- All rows but that of a key. -/
def without (l : Stamped V) (key : Key) : Stamped V := l.filter fun r => r.2.key ≠ key

@[simp] theorem writes_nil : writes ([] : Stamped V) = [] := rfl

@[simp] theorem writes_cons (r : UInt64 × Written V) (l : Stamped V) :
    writes (r :: l) = r.2 :: writes l := rfl

@[simp] theorem writes_append (l m : Stamped V) : writes (l ++ m) = writes l ++ writes m := by
  simp [writes]

@[simp] theorem length_writes (l : Stamped V) : (writes l).length = l.length := by simp [writes]

@[simp] theorem writes_without (l : Stamped V) (key : Key) :
    writes (l.without key) = (writes l).without key := by
  simp [writes, without, Recency.without, List.filter_map, Function.comp_def]

theorem mem_without {l : Stamped V} {key : Key} {r : UInt64 × Written V} :
    r ∈ l.without key ↔ r ∈ l ∧ r.2.key ≠ key := by
  simp [without]

end Stamped

/-- A partition stands for a list of stamped writes: both maps hold exactly its rows, stamps grow
along it, no key is there twice, and the used bytes are the exact weight of the rows. -/
structure Shard.Represents (s : Shard V) (l : Stamped V) : Prop where
  slot_iff : ∀ (key : Key) (slot : Slot V), s.slots[key]? = some slot ↔
    ∃ w, (slot.stamp, w) ∈ l ∧ w.key = key ∧ w.entry = slot.toEntry
  order_iff : ∀ (stamp : UInt64) (key : Key), s.order[stamp]? = some key ↔
    ∃ w, (stamp, w) ∈ l ∧ w.key = key
  sorted : l.Pairwise fun a b => a.1 < b.1
  keys_nodup : (l.map fun r => r.2.key).Nodup
  fresh : ∀ r ∈ l, r.1 < s.nextStamp
  weight_eq : s.usedBytes.toNat = l.writes.weight
  slots_size : s.slots.size = l.length
  order_size : s.order.size = l.length

end Stockroom
