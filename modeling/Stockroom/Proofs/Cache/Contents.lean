import Stockroom.Backend.Memory
import Stockroom.Proofs.Cache.Totals
import Stockroom.Proofs.Shard.Accounting

/-! What the operations of a cache do to its entries, one name at a time. A write may evict other
entries, but not in a cache without a bound. -/

namespace Stockroom
set_option autoImplicit false

variable {V : Type}

namespace Shard

variable {s : Shard V} {key : Key} {e : Entry V}

/-- The entry of a key, unless it has expired. -/
def live? (s : Shard V) (key : Key) (now : Instant) : Option (Entry V) :=
  (s.peek? key).filter fun e => !e.expired now

theorem peek?_touch {slot : Slot V} (h : s.slots[key]? = some slot) (key' : Key) :
    (s.touch key slot).peek? key' = s.peek? key' := by
  rw [peek?, touch, Std.ExtTreeMap.getElem?_insert]
  simp only [Std.LawfulEqCmp.compare_eq_iff_eq]
  split
  · rename_i he
    rw [peek?, ← he, h]
    rfl
  · rfl

theorem live?_of_slot {slot : Slot V} (h : s.slots[key]? = some slot) (now : Instant) :
    s.live? key now = if slot.expired now then none else some slot.toEntry := by
  rw [live?, peek?, h, Option.map_some, Option.filter_some]
  cases slot.expired now <;> rfl

theorem peek?_get (s : Shard V) (key key' : Key) (now : Instant) :
    (s.get key now).2.peek? key' = if key = key' then s.live? key now else s.peek? key' := by
  rw [get]
  split
  · rename_i slot hslot
    rw [live?_of_slot hslot]
    split
    · exact peek?_remove s key key'
    · rw [peek?_touch hslot]
      split
      · rename_i he
        rw [peek?, ← he, hslot]
        rfl
      · rfl
  · rename_i hnone
    split
    · rename_i he
      rw [live?, peek?, peek?, ← he, hnone]
      rfl
    · rfl

theorem found?_get (s : Shard V) (key : Key) (now : Instant) :
    (s.get key now).1.found? = (s.live? key now).map fun e => e.snapshot now := by
  rw [get]
  split
  · rename_i slot hslot
    rw [live?_of_slot hslot]
    split <;> rfl
  · rename_i hnone
    rw [live?, peek?, hnone]
    rfl

theorem evict_of_unbounded (h : s.capacity = 0) (fuel : Nat) : s.evict fuel = (0, s) := by
  have hover : s.overBudget = false := by
    rw [overBudget, h]
    rfl
  cases fuel with
  | zero => rfl
  | succ fuel =>
    rw [evict, hover]
    rfl

theorem peek?_place (h : s.capacity = 0) (key key' : Key) (e : Entry V) :
    (s.place key e).2.peek? key' = if key = key' then some e else s.peek? key' := by
  have hcapacity : ((s.remove key).2.add key e).capacity = 0 := (capacity_remove s key).trans h
  rw [place, evict_of_unbounded hcapacity, peek?, add, Std.ExtTreeMap.getElem?_insert]
  simp only [Std.LawfulEqCmp.compare_eq_iff_eq]
  split
  · rfl
  · rename_i hne
    have hremoved := peek?_remove s key key'
    rw [if_neg hne] at hremoved
    exact hremoved

theorem weightBeside_place (h : s.capacity = 0) (key : Key) (e : Entry V) :
    (s.place key e).2.weightBeside key = s.weightBeside key := by
  have hcapacity : ((s.remove key).2.add key e).capacity = 0 := (capacity_remove s key).trans h
  rw [place, evict_of_unbounded hcapacity]
  exact (congrArg weightOf (erase_insert _ _ _)).trans (weightBeside_remove s key)

end Shard

namespace Cache

variable {c : Cache V}

/-- A cache that evicts nothing. -/
structure Unbounded (c : Cache V) : Prop where
  shards : 0 < c.shards.size
  capacity : ∀ s ∈ c.shards, s.capacity = 0

theorem unbounded_new {config : Config V} (h : config.capacity = 0) : Unbounded (new config) where
  shards := by
    rw [size_shards_new]
    exact Sharding.count_pos _ _
  capacity s hs := by
    rw [(Array.mem_replicate.mp hs).2, Shard.capacity_new, h, Sharding.budget, UInt64.zero_div]

theorem capacity_shard (h : c.Unbounded) (name : String) : (c.shard name).capacity = 0 :=
  h.capacity _ (Array.mem_of_getElem? (getElem?_shardIndex h.shards name))

theorem key_inj {name name' : String} : c.key name = c.key name' ↔ name = name' := by
  constructor
  · exact congrArg Key.name
  · rintro rfl
    rfl

theorem shard_setShard (h : 0 < c.shards.size) (name name' : String) (s : Shard V) :
    (c.setShard name s).shard name' =
      if c.shardIndex name = c.shardIndex name' then s else c.shard name' := by
  have hindex : (c.setShard name s).shardIndex name' = c.shardIndex name' := by
    rw [shardIndex, setShard, Array.size_setIfInBounds]
    rfl
  rw [shard, hindex, setShard, Array.getD_eq_getD_getElem?, Array.getElem?_setIfInBounds]
  split
  · rw [if_pos (shardIndex_lt h name)]
    rfl
  · rw [shard, Array.getD_eq_getD_getElem?]

/-- A partition that differs in one key, put back: the cache differs in one name. -/
theorem peek?_setShard (h : 0 < c.shards.size) (name : String) {s : Shard V}
    {e : Option (Entry V)}
    (hs : ∀ key, s.peek? key = if c.key name = key then e else (c.shard name).peek? key)
    (name' : String) :
    (c.setShard name s).peek? name' = if name = name' then e else c.peek? name' := by
  change ((c.setShard name s).shard name').peek? (c.key name') = _
  rw [shard_setShard h]
  split
  · rename_i hindex
    rw [hs]
    simp only [key_inj]
    split
    · rfl
    · rw [peek?, shard, shard, hindex]
  · rename_i hindex
    rw [if_neg]
    · rfl
    · rintro rfl
      exact hindex rfl

theorem unbounded_setShard (h : c.Unbounded) (name : String) {s : Shard V} (hs : s.capacity = 0) :
    (c.setShard name s).Unbounded where
  shards := by
    rw [setShard, Array.size_setIfInBounds]
    exact h.shards
  capacity x hx := by
    rcases Array.mem_or_eq_of_mem_setIfInBounds hx with hx | rfl
    · exact h.capacity x hx
    · exact hs

/-- The entry of a name, unless it has expired. -/
def live? (c : Cache V) (now : Instant) (name : String) : Option (Entry V) :=
  (c.peek? name).filter fun e => !e.expired now

/-! ### One operation -/

theorem lookup_fst (c : Cache V) (now : Instant) (name : String) :
    (c.lookup now name).1 = (c.live? now name).map fun e => e.snapshot now :=
  (c.shard name).found?_get (c.key name) now

theorem peek?_lookup (h : 0 < c.shards.size) (now : Instant) (name name' : String) :
    (c.lookup now name).2.peek? name' = if name = name' then c.live? now name else c.peek? name' :=
  peek?_setShard (c := { c with counters := _ }) h name
    (fun key => (c.shard name).peek?_get (c.key name) key now) name'

theorem peek?_delete (h : 0 < c.shards.size) (name name' : String) :
    (c.delete name).2.peek? name' = if name = name' then none else c.peek? name' :=
  peek?_setShard (c := { c with counters := _ }) h name
    (fun key => (c.shard name).peek?_remove (c.key name) key) name'

theorem peek?_add (h : c.Unbounded) (name name' : String) (e : Entry V) :
    (c.add name e).peek? name' = if name = name' then some e else c.peek? name' :=
  peek?_setShard (c := { c with counters := _ }) h.shards name
    (fun key => (c.shard name).peek?_place (capacity_shard h name) (c.key name) key e) name'

/-- The entry that was added is there, or it was evicted at once. -/
theorem peek?_add_self (h : 0 < c.shards.size) (name : String) (e : Entry V) :
    (c.add name e).peek? name = some e ∨
      (c.add name e).peek? name = none ∧ c.counters.evictions < (c.add name e).counters.evictions := by
  have hpeek : (c.add name e).peek? name =
      ((c.shard name).place (c.key name) e).2.peek? (c.key name) := by
    change ((c.setShard name _).shard name).peek? (c.key name) = _
    rw [shard_setShard h, if_pos rfl]
  rw [hpeek]
  exact ((c.shard name).peek?_place_self (c.key name) e).imp_right fun hnone =>
    ⟨hnone.1, Nat.lt_add_of_pos_right hnone.2⟩

theorem peek?_forfeit (h : 0 < c.shards.size) (name name' : String) :
    (c.forfeit name).peek? name' = if name = name' then none else c.peek? name' :=
  peek?_setShard h name (fun key => (c.shard name).peek?_forfeit (c.key name) key) name'

theorem unbounded_lookup (h : c.Unbounded) (now : Instant) (name : String) :
    (c.lookup now name).2.Unbounded := by
  have hset := unbounded_setShard h name
    ((Shard.capacity_get (c.shard name) (c.key name) now).trans (capacity_shard h name))
  exact ⟨hset.shards, hset.capacity⟩

theorem unbounded_delete (h : c.Unbounded) (name : String) : (c.delete name).2.Unbounded := by
  have hset := unbounded_setShard h name
    ((Shard.capacity_remove (c.shard name) (c.key name)).trans (capacity_shard h name))
  exact ⟨hset.shards, hset.capacity⟩

theorem unbounded_add (h : c.Unbounded) (name : String) (e : Entry V) :
    (c.add name e).Unbounded := by
  have hset := unbounded_setShard h name
    ((Shard.capacity_place (c.shard name) (c.key name) e).trans (capacity_shard h name))
  exact ⟨hset.shards, hset.capacity⟩

theorem unbounded_forfeit (h : c.Unbounded) (name : String) : (c.forfeit name).Unbounded :=
  unbounded_setShard h name
    ((Shard.capacity_forfeit (c.shard name) (c.key name)).trans (capacity_shard h name))

theorem peek?_purge (c : Cache V) (name : String) : c.purge.peek? name = none := by
  have hslots : (c.purge.shard name).slots = ∅ := by
    rw [shard, Array.getD_eq_getD_getElem?]
    change ((c.shards.map fun s => (Shard.clear s).2)[c.purge.shardIndex name]?.getD _).slots = ∅
    rw [Array.getElem?_map]
    cases c.shards[c.purge.shardIndex name]? <;> rfl
  rw [peek?, Shard.peek?, hslots]
  rfl

theorem unbounded_purge (h : c.Unbounded) : c.purge.Unbounded where
  shards := Nat.lt_of_lt_of_eq h.shards Array.size_map.symm
  capacity x hx := by
    obtain ⟨s, hs, rfl⟩ := Array.mem_map.mp hx
    exact h.capacity s hs

theorem unbounded_purgeShard (h : c.Unbounded) (index : Nat) :
    (c.purgeShard index).2.Unbounded := by
  unfold purgeShard
  split
  · exact h
  · rename_i s hs
    refine ⟨Array.size_setIfInBounds.symm ▸ h.shards, fun x hx => ?_⟩
    rcases Array.mem_or_eq_of_mem_setIfInBounds hx with hx | rfl
    · exact h.capacity x hx
    · exact h.capacity s (Array.mem_of_getElem? hs)

theorem unbounded_carry (h : c.Unbounded) (now : Instant) (d : Option (Deed V)) :
    (c.carry now d).Unbounded := by
  rcases d with _ | name | ⟨name, e⟩ | name | name | _ | index
  · exact h
  · exact unbounded_lookup h now name
  · exact unbounded_add h name e
  · exact unbounded_forfeit h name
  · exact unbounded_delete h name
  · exact unbounded_purge h
  · exact unbounded_purgeShard h index

theorem peek?_new (config : Config V) (name : String) : (new config).peek? name = none := by
  have hshard : ∃ capacity, (new config).shard name = .new capacity := by
    rw [shard, new, Array.getD_eq_getD_getElem?, Array.getElem?_replicate]
    split
    · exact ⟨_, rfl⟩
    · exact ⟨_, rfl⟩
  obtain ⟨capacity, hshard⟩ := hshard
  rw [peek?, hshard]
  rfl

theorem value?_fst (c : Cache V) (now : Instant) (name : String) :
    (c.value? now name).1 = (c.live? now name).bind Entry.value := by
  rw [value?, lookup_fst]
  cases c.live? now name <;> rfl

theorem entry_eq_ok {now : Instant} {name : String} {value : Option V} {ttl : Duration}
    {e : Entry V} (h : c.entry now name value ttl = .ok e) :
    ∃ weight, Entry.at? now value ttl weight = some e := by
  unfold entry at h
  split at h
  · cases h
  · rename_i weight _
    split at h
    · cases h
    · rename_i e' he
      cases h
      exact ⟨weight, he⟩

theorem entry_fields {now : Instant} {name : String} {value : Option V} {ttl : Duration}
    {e : Entry V} (h : c.entry now name value ttl = .ok e) :
    e.value = value ∧ e.ttl = ttl ∧ now.after? ttl = some e.expiresAt := by
  obtain ⟨weight, he⟩ := entry_eq_ok h
  obtain ⟨deadline, hdeadline, rfl⟩ := Option.map_eq_some_iff.mp he
  exact ⟨rfl, rfl, hdeadline⟩

theorem weightOf_of_entry {now : Instant} {name : String} {value : Option V} {ttl : Duration}
    {e : Entry V} (h : c.entry now name value ttl = .ok e) :
    c.config.weightOf name value = .ok e.weight := by
  unfold entry at h
  split at h
  · cases h
  · rename_i weight hweight
    split at h
    · cases h
    · rename_i e' he
      cases h
      obtain ⟨deadline, -, rfl⟩ := Option.map_eq_some_iff.mp he
      exact hweight

theorem shards_requestSave (c : Cache V) (inRuntime : Bool) :
    (c.requestSave inRuntime).2.config = c.config ∧
      (c.requestSave inRuntime).2.shards = c.shards := by
  unfold requestSave
  split
  · exact ⟨rfl, rfl⟩
  · split <;> exact ⟨rfl, rfl⟩

/-- A write that crashes leaves the cache as it was, or without the entry that it was to replace. -/
theorem put_eq_some {crash : Crash} {c' : Cache V} {now : Instant} {name : String} {value : V}
    {ttl : Duration} (h : c.put now name value ttl = (some crash, c')) :
    c' = c ∨ crash = .weightOverflow ∧ c' = c.forfeit name := by
  unfold put at h
  rcases c.write_cases now name (some value) ttl with
    ⟨other, -, hw⟩ | ⟨e, -, -, hw⟩ | ⟨e, -, -, hw⟩ <;> rw [hw] at h <;> cases h
  · exact .inl rfl
  · exact .inr ⟨rfl, rfl⟩

/-- A write that does not crash adds its entry; a save of it changes no entry. -/
theorem put_eq_none {c' : Cache V} {now : Instant} {name : String} {value : V} {ttl : Duration}
    (h : c.put now name value ttl = (none, c')) :
    ∃ e weight, Entry.at? now (some value) ttl weight = some e ∧
      c'.config = (c.add name e).config ∧ c'.shards = (c.add name e).shards := by
  unfold put at h
  rcases c.write_cases now name (some value) ttl with
    ⟨crash, -, hw⟩ | ⟨e, -, -, hw⟩ | ⟨e, hentry, -, hw⟩
  · rw [hw] at h
    cases h
  · rw [hw] at h
    cases h
  · rw [hw] at h
    obtain ⟨weight, he⟩ := entry_eq_ok hentry
    obtain rfl := (Prod.mk.inj h).2
    refine ⟨e, weight, he, ?_⟩
    split <;> exact shards_requestSave (c.add name e) true

theorem peek?_put (h : c.Unbounded) {c' : Cache V} {now : Instant} {name : String} {value : V}
    {ttl : Duration} (hput : c.put now name value ttl = (none, c')) :
    c'.Unbounded ∧ ∃ e weight, Entry.at? now (some value) ttl weight = some e ∧
      ∀ name', c'.peek? name' = if name = name' then some e else c.peek? name' := by
  obtain ⟨e, weight, he, hconfig, hshards⟩ := put_eq_none hput
  have hadd := unbounded_add h name e
  refine ⟨⟨hshards ▸ hadd.shards, hshards ▸ hadd.capacity⟩, e, weight, he, fun name' => ?_⟩
  rw [← peek?_add h, peek?, peek?, shard, shard, key, key, shardIndex, shardIndex, hconfig, hshards]

end Cache

end Stockroom
