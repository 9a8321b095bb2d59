import Stockroom.Proofs.Cache.Weights

/-! A cache with a budget stays within it: each partition has a share of at least one byte, keeps to
it, and holds the names that belong there. -/

namespace Stockroom.Cache
set_option autoImplicit false

variable {V : Type} {c : Cache V}

/-! ### Shares of the budget -/

namespace Config

variable {config : Config V}

/-- The budget of each partition. -/
def budget (config : Config V) : UInt64 := Sharding.budget config.capacity config.shardCount

/-- A key of this cache, in the partition that its hash points to. -/
def Belongs (config : Config V) (i : Nat) (key : Key) : Prop :=
  key.hash = config.hash key.name ∧ i = (config.hash key.name).toNat &&& (config.shardCount - 1)

theorem shardCount_pos (config : Config V) : 0 < config.shardCount := Sharding.count_pos _ _

theorem toNat_budget (config : Config V) :
    config.budget.toNat = config.capacity.toNat / config.shardCount :=
  Sharding.toNat_budget _ (Sharding.count_le_maximumCount _ _)

theorem shardCount_le_capacity (h : 0 < config.capacity) :
    config.shardCount ≤ config.capacity.toNat :=
  Sharding.count_le_capacity (UInt64.lt_iff_toNat_lt.mp h) _

theorem budget_pos (h : 0 < config.capacity) : 0 < config.budget.toNat := by
  rw [toNat_budget]
  exact Nat.div_pos (shardCount_le_capacity h) config.shardCount_pos

end Config

/-! ### Partitions -/

/-- The partitions are as many as there should be, and each keeps to its share of the budget and to
the keys that belong there. -/
structure Within (config : Config V) (shards : Array (Shard V)) : Prop where
  size_eq : shards.size = config.shardCount
  keeps : ∀ i (s : Shard V), shards[i]? = some s → s.Keeps config.budget (config.Belongs i)

namespace Within

variable {config : Config V} {shards : Array (Shard V)}

theorem set (h : Within config shards) {i : Nat} {s : Shard V}
    (hs : s.Keeps config.budget (config.Belongs i)) :
    Within config (shards.setIfInBounds i s) where
  size_eq := Array.size_setIfInBounds.trans h.size_eq
  keeps j t ht := by
    rw [Array.getElem?_setIfInBounds] at ht
    split at ht
    · rename_i hij
      split at ht
      · cases ht
        exact hij ▸ hs
      · cases ht
    · exact h.keeps j t ht

theorem map_clear (h : Within config shards) :
    Within config (shards.map fun s => s.clear.2) where
  size_eq := Array.size_map.trans h.size_eq
  keeps i s hs := by
    rw [Array.getElem?_map] at hs
    obtain ⟨t, ht, rfl⟩ := Option.map_eq_some_iff.mp hs
    exact (h.keeps i t ht).clear

theorem shard (h : Within c.config c.shards) (name : String) :
    (c.shard name).Keeps c.config.budget (c.config.Belongs (c.shardIndex name)) :=
  h.keeps _ _ (getElem?_shardIndex (h.size_eq ▸ c.config.shardCount_pos) name)

theorem belongs (h : Within c.config c.shards) (name : String) :
    c.config.Belongs (c.shardIndex name) (c.key name) := ⟨rfl, h.size_eq ▸ rfl⟩

theorem carry (h : Within c.config c.shards) (hpos : 0 < c.config.capacity) (now : Instant)
    {d : Option (Deed V)} (hadmits : c.Admits d) :
    Within (c.carry now d).config (c.carry now d).shards := by
  rcases d with _ | name | ⟨name, e⟩ | name | name | _ | index
  · exact h
  · exact h.set ((h.shard name).get _ now)
  · exact h.set ((h.shard name).place (Config.budget_pos hpos) (h.belongs name) hadmits)
  · exact h.set ((h.shard name).forfeit _)
  · exact h.set ((h.shard name).remove _)
  · exact h.map_clear
  · simp only [Cache.carry, purgeShard]
    split
    · exact h
    · rename_i s hs
      exact h.set (h.keeps _ _ hs).clear

theorem new (config : Config V) : Within (Cache.new config).config (Cache.new config).shards where
  size_eq := size_shards_new config
  keeps i s hs := by
    simp only [Cache.new, Array.getElem?_replicate] at hs
    split at hs
    · cases hs
      exact .new _ _
    · cases hs

/-! ### The whole cache -/

theorem total_weight_le (h : Within config shards) :
    total Shard.weight shards.toList ≤ config.capacity.toNat := by
  have hsum : total Shard.weight shards.toList ≤ shards.toList.length * config.budget.toNat := by
    apply total_le
    intro s hs
    obtain ⟨i, hi⟩ := exists_index_of_mem hs
    exact (h.keeps i s hi).weight_le
  rw [Array.length_toList, h.size_eq, config.toNat_budget] at hsum
  exact Nat.le_trans hsum (Nat.mul_div_le _ _)

theorem exact (h : Within config shards) : Exact shards := by
  intro s hs
  obtain ⟨i, hi⟩ := exists_index_of_mem hs
  exact (h.keeps i s hi).used_eq

/-- The weights of all entries fit into a word, and so the total can be asked for. -/
theorem total_weight_lt (h : Within config shards) : total Shard.weight shards.toList < UInt64.size :=
  Nat.lt_of_le_of_lt h.total_weight_le config.capacity.toNat_lt_size

end Within

/-! ### Runs -/

namespace Moment

variable {m : Moment V}

theorem within_run (h : Within m.world.cache.config m.world.cache.shards)
    (hpos : 0 < m.world.cache.config.capacity) (moves : List (Move V)) :
    Within (m.run moves).world.cache.config (m.run moves).world.cache.shards :=
  (kept_run (P := fun c => 0 < c.config.capacity ∧ Within c.config c.shards) (fun _ => Iff.rfl)
    (fun c now d hadmits hc =>
      ⟨(config_carry c now d).symm ▸ hc.1, hc.2.carry hc.1 now hadmits⟩) ⟨hpos, h⟩ moves).2

/-- In every run of a cache with a budget, the partitions share it, and none is over its share. -/
theorem bounded (config : Config V) (hpos : 0 < config.capacity) (moves : List (Move V)) :
    let n := config.shardCount
    let c := ((new config).run moves).world.cache
    n.isPowerOfTwo ∧ 1 ≤ n ∧ n ≤ 65536 ∧ n ≤ config.capacity.toNat ∧
    c.shards.size = n ∧ (∀ hash : UInt64, hash.toNat &&& (n - 1) < n) ∧
    (∀ i (s : Shard V), c.shards[i]? = some s →
      s.capacity.toNat = config.capacity.toNat / n ∧ 1 ≤ s.capacity.toNat ∧
      s.usedBytes.toNat = s.weight ∧ s.usedBytes ≤ s.capacity ∧
      ∀ (key : Key) slot, s.slots[key]? = some slot →
        key.hash = config.hash key.name ∧ i = (config.hash key.name).toNat &&& (n - 1)) ∧
    c.totalBytes = .ok c.usedBytes ∧
    c.usedBytes.toNat = total Shard.weight c.shards.toList ∧ c.usedBytes ≤ config.capacity := by
  intro n c
  have h : Within c.config c.shards := within_run (Within.new config) hpos moves
  have hconfig : c.config = config := config_run (new config) moves
  have htotal := totalBytes_of_exact h.exact h.total_weight_lt
  have hused := toNat_usedBytes_of_exact h.exact h.total_weight_lt
  have hle := h.total_weight_le
  rw [hconfig] at h hle
  refine ⟨Sharding.isPowerOfTwo_count _ _, config.shardCount_pos,
    Sharding.count_le_maximumCount _ _, Config.shardCount_le_capacity hpos, h.size_eq,
    fun hash => Sharding.index_lt hash config.shardCount_pos, ?_, htotal, hused, ?_⟩
  · intro i s hs
    obtain ⟨hcapacity, hexact, hweight, hkeys⟩ := h.keeps i s hs
    refine ⟨?_, ?_, hexact, ?_, hkeys⟩
    · rw [hcapacity]
      exact config.toNat_budget
    · rw [hcapacity]
      exact Config.budget_pos hpos
    · rw [UInt64.le_iff_toNat_le, hcapacity, hexact]
      exact hweight
  · rw [UInt64.le_iff_toNat_le, hused]
    exact hle

/-- Four bytes, and more partitions asked for than that. -/
def fourBytes : Config Nat :=
  { capacity := 4, shards := some 6, weigh := fun _ v => .ok v.toUInt64 }

/-- An entry that fills its share, and one that is too heavy for any. -/
def overfilling : List (Move Nat) :=
  [.outside (.perform (.set "a" 1)), .outside (.perform (.set "b" 9))]

theorem bounded_overfilling :
    0 < fourBytes.capacity ∧ fourBytes.shardCount = 4 ∧
      ((new fourBytes).run overfilling).world.cache.usedBytes ≤ fourBytes.capacity := by
  obtain ⟨-, -, -, -, -, -, -, -, -, hle⟩ := bounded fourBytes (by decide) overfilling
  exact ⟨by decide, by decide, hle⟩

end Moment

end Stockroom.Cache
