import Stockroom.Proofs.Cache.Conservation
import Stockroom.Proofs.Cache.Contents
import Stockroom.Proofs.Cache.Weights

/-! An operation on one name changes the entry of that name and nothing else. What it answers and
counts, and by how much the number and the weight of all entries change, depends on that entry
alone, not on how the entries are spread over partitions. -/

namespace Stockroom
set_option autoImplicit false

variable {V : Type}

/-- How many entries there are under a name. -/
def Entry.number (e? : Option (Entry V)) : Nat := e?.elim 0 fun _ => 1

/-- What there is under a name weighs this much. -/
def Entry.load (e? : Option (Entry V)) : UInt64 := e?.elim 0 Entry.weight

/-- The answer to a look-up that comes upon this. -/
def Lookup.of (now : Instant) : Option (Entry V) → Lookup V
  | none => .miss
  | some e => if e.expired now then .expired else .hit (e.snapshot now)

namespace Shard

variable {s s' : Shard V} {key : Key} {e : Option (Entry V)}

/-- The entry of the key is now `e`, and the bookkeeping has followed. -/
structure Edit (s s' : Shard V) (key : Key) (e : Option (Entry V)) : Prop where
  capacity : s'.capacity = s.capacity
  entries : ∀ key', s'.peek? key' = if key = key' then e else s.peek? key'
  size : s'.size + Entry.number (s.peek? key) = s.size + Entry.number e
  used : s'.usedBytes + Entry.load (s.peek? key) = s.usedBytes + Entry.load e

theorem get_fst (s : Shard V) (key : Key) (now : Instant) :
    (s.get key now).1 = .of now (s.peek? key) := by
  unfold get
  split
  · rename_i slot hslot
    rw [peek?_of_slot hslot, Lookup.of]
    split <;> rfl
  · rename_i hnone
    rw [peek?_of_none hnone]
    rfl

theorem contains_eq (s : Shard V) (key : Key) (now : Instant) :
    s.contains key now = (s.live? key now).isSome := by
  unfold contains
  split
  · rename_i slot hslot
    rw [live?_of_slot hslot]
    cases slot.expired now <;> rfl
  · rename_i hnone
    rw [live?, peek?_of_none hnone]
    rfl

theorem edit_remove (s : Shard V) (key : Key) : s.Edit (s.remove key).2 key none where
  capacity := capacity_remove s key
  entries := peek?_remove s key
  size := by
    have hsize := size_remove s key
    rw [remove_fst] at hsize
    cases h : s.peek? key <;> rw [h] at hsize <;> exact hsize
  used := by
    unfold remove
    split
    · rename_i slot hslot
      rw [peek?_of_slot hslot]
      exact (UInt64.sub_add_cancel _ _).trans (UInt64.add_zero _).symm
    · rename_i hnone
      rw [peek?_of_none hnone]

theorem edit_forfeit (s : Shard V) (key : Key) : s.Edit (s.forfeit key) key none where
  capacity := (edit_remove s key).capacity
  entries := (edit_remove s key).entries
  size := (edit_remove s key).size
  used := (edit_remove s key).used

theorem edit_touch {slot : Slot V} (h : s.slots[key]? = some slot) :
    s.Edit (s.touch key slot) key (some slot.toEntry) where
  capacity := rfl
  entries key' := by
    rw [peek?_touch h]
    split
    · rename_i he
      exact he ▸ peek?_of_slot h
    · rfl
  size := by
    rw [peek?_of_slot h]
    refine congrArg (· + 1) ?_
    change (s.slots.insert key _).size = s.slots.size
    rw [Std.ExtTreeMap.size_insert, if_pos]
    rw [Std.ExtTreeMap.contains_eq_isSome_getElem?, h]
    rfl
  used := by
    rw [peek?_of_slot h]
    rfl

theorem edit_get (s : Shard V) (key : Key) (now : Instant) :
    s.Edit (s.get key now).2 key (s.live? key now) := by
  unfold get
  split
  · rename_i slot hslot
    rw [live?_of_slot hslot]
    split
    · exact edit_remove s key
    · exact edit_touch hslot
  · rename_i hnone
    have hlive : s.live? key now = s.peek? key := by
      rw [live?, peek?_of_none hnone]
      rfl
    rw [hlive]
    refine ⟨rfl, fun key' => ?_, rfl, rfl⟩
    split
    · rename_i he
      rw [he]
    · rfl

/-- Without a bound, an insertion counts as one that found the entry of the key there. -/
theorem place_fst (h : s.capacity = 0) (key : Key) (e : Entry V) :
    (s.place key e).1 = ⟨(s.peek? key).isSome, 0⟩ := by
  have hcapacity : ((s.remove key).2.add key e).capacity = 0 := (capacity_remove s key).trans h
  rw [place, evict_of_unbounded hcapacity, remove_fst]

theorem edit_place (h : s.capacity = 0) (key : Key) (e : Entry V) :
    s.Edit (s.place key e).2 key (some e) where
  capacity := capacity_place s key e
  entries key' := peek?_place h key key' e
  size := by
    have hsize := size_place s key e
    rw [place_fst h] at hsize
    cases hpeek : s.peek? key <;> rw [hpeek] at hsize <;> exact hsize
  used := by
    have hcapacity : ((s.remove key).2.add key e).capacity = 0 := (capacity_remove s key).trans h
    have hremoved := (edit_remove s key).used
    rw [place, evict_of_unbounded hcapacity]
    change (s.remove key).2.usedBytes + e.weight + _ = s.usedBytes + e.weight
    rw [UInt64.add_assoc, UInt64.add_comm e.weight, ← UInt64.add_assoc, hremoved]
    exact congrArg (· + e.weight) (UInt64.add_zero _)

/-- Whatever an insertion evicts, it puts nothing there but its own entry. -/
theorem peek?_of_place {key' : Key} {e e' : Entry V} (h : (s.place key e).2.peek? key' = some e') :
    if key = key' then e' = e else s.peek? key' = some e' := by
  obtain ⟨slot, hslot, rfl⟩ := Option.map_eq_some_iff.mp h
  have hadded := getElem?_slots_evict _ hslot
  rw [add, Std.ExtTreeMap.getElem?_insert] at hadded
  simp only [Std.LawfulEqCmp.compare_eq_iff_eq] at hadded
  split at hadded
  · rename_i he
    cases hadded
    rw [if_pos he]
  · rename_i hne
    have hremoved := peek?_remove s key key'
    rw [if_neg hne] at hremoved ⊢
    rw [← hremoved, peek?_of_slot hadded]

end Shard

namespace Cache

variable {c c' : Cache V} {name : String} {e : Option (Entry V)}

/-! ### The weight of all entries -/

theorem usedBytes_setShard (h : 0 < c.shards.size) (name : String) (s : Shard V) :
    (c.setShard name s).usedBytes + (c.shard name).usedBytes = c.usedBytes + s.usedBytes := by
  apply UInt64.toNat.inj
  rw [UInt64.toNat_add, UInt64.toNat_add, toNat_usedBytes, toNat_usedBytes]
  change (_ % UInt64.size + _) % UInt64.size = (_ % UInt64.size + _) % UInt64.size
  rw [Nat.mod_add_mod, Nat.mod_add_mod]
  exact congrArg (· % UInt64.size) (total_setShard (f := fun s => s.usedBytes.toNat) h name s)

theorem usedBytes_purge (c : Cache V) : c.purge.usedBytes = 0 := by
  apply UInt64.toNat.inj
  rw [toNat_usedBytes, total_eq_zero]
  · rfl
  · intro s hs
    rw [purge, Array.toList_map] at hs
    obtain ⟨t, -, rfl⟩ := List.mem_map.mp hs
    rfl

theorem usedBytes_new (config : Config V) : (new config).usedBytes = 0 := by
  apply UInt64.toNat.inj
  rw [toNat_usedBytes, total_eq_zero]
  · rfl
  · intro s hs
    rw [new, Array.toList_replicate] at hs
    rw [List.eq_of_mem_replicate hs]
    rfl

/-! ### Edits -/

/-- The entry of the name is now `e`, and number and weight have followed. -/
structure Edit (c c' : Cache V) (name : String) (e : Option (Entry V)) : Prop where
  entries : ∀ name', c'.peek? name' = if name = name' then e else c.peek? name'
  size : c'.size + Entry.number (c.peek? name) = c.size + Entry.number e
  used : c'.usedBytes + Entry.load (c.peek? name) = c.usedBytes + Entry.load e

theorem edit_setShard (h : 0 < c.shards.size) {s : Shard V}
    (hs : (c.shard name).Edit s (c.key name) e) : c.Edit (c.setShard name s) name e where
  entries := peek?_setShard h name hs.entries
  size := by
    have hset := size_setShard h name s
    have hsize := hs.size
    rw [peek?]
    omega
  used := by
    have hset := usedBytes_setShard h name s
    have hused := hs.used
    rw [peek?]
    grind

theorem edit_lookup (h : 0 < c.shards.size) (now : Instant) (name : String) :
    c.Edit (c.lookup now name).2 name (c.live? now name) := by
  have hs := edit_setShard h ((c.shard name).edit_get (c.key name) now)
  exact ⟨hs.entries, hs.size, hs.used⟩

theorem edit_delete (h : 0 < c.shards.size) (name : String) :
    c.Edit (c.delete name).2 name none := by
  have hs := edit_setShard h ((c.shard name).edit_remove (c.key name))
  exact ⟨hs.entries, hs.size, hs.used⟩

theorem edit_forfeit (h : 0 < c.shards.size) (name : String) :
    c.Edit (c.forfeit name) name none := edit_setShard h ((c.shard name).edit_forfeit (c.key name))

theorem edit_add (h : c.Unbounded) (name : String) (e : Entry V) :
    c.Edit (c.add name e) name (some e) := by
  have hs := edit_setShard h.shards
    ((c.shard name).edit_place (capacity_shard h name) (c.key name) e)
  exact ⟨hs.entries, hs.size, hs.used⟩

/-! ### Answers and counts -/

theorem contains_eq (c : Cache V) (now : Instant) (name : String) :
    c.contains now name = (c.live? now name).isSome := (c.shard name).contains_eq (c.key name) now

theorem delete_fst (c : Cache V) (name : String) : (c.delete name).1 = (c.peek? name).isSome :=
  (c.shard name).remove_fst (c.key name)

theorem counters_lookup (c : Cache V) (now : Instant) (name : String) :
    (c.lookup now name).2.counters = countLookup c.counters (.of now (c.peek? name)) :=
  congrArg (countLookup c.counters) ((c.shard name).get_fst (c.key name) now)

theorem counters_delete (c : Cache V) (name : String) :
    (c.delete name).2.counters = { c.counters with
      removals := c.counters.removals + if (c.peek? name).isSome then 1 else 0 } := by
  change { c.counters with removals := c.counters.removals + if (c.delete name).1 then 1 else 0 } = _
  rw [delete_fst]

theorem counters_add (h : c.Unbounded) (name : String) (e : Entry V) :
    (c.add name e).counters = countInsertion c.counters ⟨(c.peek? name).isSome, 0⟩ :=
  congrArg (countInsertion c.counters)
    ((c.shard name).place_fst (capacity_shard h name) (c.key name) e)

/-- In a bounded cache a write puts nothing under another name, and nothing else under its own. -/
theorem peek?_of_add (h : 0 < c.shards.size) {name name' : String} {e e' : Entry V}
    (he : (c.add name e).peek? name' = some e') :
    if name = name' then e' = e else c.peek? name' = some e' := by
  change ((c.setShard name ((c.shard name).place (c.key name) e).2).shard name').peek?
    (c.key name') = _ at he
  rw [shard_setShard h] at he
  split at he
  · rename_i hindex
    have hplace := Shard.peek?_of_place he
    simp only [key_inj] at hplace
    rwa [peek?, ← show c.shard name = c.shard name' by rw [shard, shard, hindex]]
  · rename_i hindex
    rw [if_neg]
    · exact he
    · rintro rfl
      exact hindex rfl

end Cache

end Stockroom
