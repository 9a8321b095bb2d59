import Stockroom.Proofs.Cache.Totals
import Stockroom.Proofs.Shard.Accounting

/-! What all entries of a cache weigh. The used bytes of its partitions are exact whatever is written,
and where a word can count their sum, the total can be asked for. -/

namespace Stockroom.Cache
set_option autoImplicit false

variable {V : Type} {c : Cache V} {shards : Array (Shard V)}

/-! ### Sums of words -/

theorem toNat_foldl (l : List (Shard V)) (n : UInt64) :
    (l.foldl (fun n s => n + s.usedBytes) n).toNat =
      (n.toNat + total (fun s => s.usedBytes.toNat) l) % UInt64.size := by
  induction l generalizing n with
  | nil => exact (Nat.mod_eq_of_lt n.toNat_lt).symm
  | cons s l ih =>
    rw [List.foldl_cons, ih, total, UInt64.toNat_add, ← Nat.add_assoc]
    exact Nat.mod_add_mod _ _ _

theorem foldl_toNat (l : List (Shard V)) (n : Nat) :
    l.foldl (fun n s => n + s.usedBytes.toNat) n = n + total (fun s => s.usedBytes.toNat) l := by
  induction l generalizing n with
  | nil => rfl
  | cons s l ih => rw [List.foldl_cons, ih, total, Nat.add_assoc]

theorem toNat_usedBytes (c : Cache V) :
    c.usedBytes.toNat = total (fun s => s.usedBytes.toNat) c.shards.toList % UInt64.size := by
  rw [usedBytes, ← Array.foldl_toList, toNat_foldl]
  exact congrArg (· % UInt64.size) (Nat.zero_add _)

theorem totalBytes_of_lt (h : total (fun s => s.usedBytes.toNat) c.shards.toList < UInt64.size) :
    c.totalBytes = .ok c.usedBytes := by
  rw [totalBytes, ← Array.foldl_toList, foldl_toNat, Nat.zero_add, if_pos h]

/-! ### Exact weights -/

/-- The used bytes of every partition are what its entries weigh. -/
def Exact (shards : Array (Shard V)) : Prop := ∀ s ∈ shards.toList, s.Exact

/-- The weight of all entries, however large. -/
def weight (shards : Array (Shard V)) : Nat := total Shard.weight shards.toList

theorem total_eq_weight (h : Exact shards) :
    total (fun s => s.usedBytes.toNat) shards.toList = weight shards := by
  unfold weight
  unfold Exact at h
  generalize shards.toList = l at h ⊢
  induction l with
  | nil => rfl
  | cons s l ih =>
    have hs : s.usedBytes.toNat = s.weight := h s List.mem_cons_self
    rw [total, total, hs, ih fun t ht => h t (List.mem_cons_of_mem _ ht)]

theorem toNat_usedBytes_of_exact (h : Exact c.shards) (hlt : weight c.shards < UInt64.size) :
    c.usedBytes.toNat = weight c.shards := by
  rw [toNat_usedBytes, total_eq_weight h, Nat.mod_eq_of_lt hlt]

theorem totalBytes_of_exact (h : Exact c.shards) (hlt : weight c.shards < UInt64.size) :
    c.totalBytes = .ok c.usedBytes := totalBytes_of_lt (total_eq_weight h ▸ hlt)

theorem Exact.set (h : Exact shards) (i : Nat) {s : Shard V} (hs : s.Exact) :
    Exact (shards.setIfInBounds i s) := by
  intro t ht
  rw [Array.toList_setIfInBounds] at ht
  rcases List.mem_or_eq_of_mem_set ht with ht | rfl
  · exact h t ht
  · exact hs

theorem Exact.shard (h : Exact c.shards) (hpos : 0 < c.shards.size) (name : String) :
    (c.shard name).Exact :=
  h _ (Array.mem_toList_iff.mpr (Array.mem_of_getElem? (getElem?_shardIndex hpos name)))

theorem exact_new (config : Config V) : Exact (new config).shards := by
  intro s hs
  rw [new, Array.toList_replicate] at hs
  rw [List.eq_of_mem_replicate hs]
  exact .new _

theorem weight_new (config : Config V) : weight (new config).shards = 0 := by
  apply total_eq_zero
  intro s hs
  rw [new, Array.toList_replicate] at hs
  rw [List.eq_of_mem_replicate hs]
  rfl

theorem Exact.carry (h : Exact c.shards) (hpos : 0 < c.shards.size) (now : Instant)
    {d : Option (Deed V)} (hadmits : c.Admits d) : Exact (c.carry now d).shards := by
  rcases d with _ | name | ⟨name, e⟩ | name | name | _ | index
  · exact h
  · exact h.set _ ((h.shard hpos name).get _ now)
  · exact h.set _ (((h.shard hpos name).add_remove hadmits).evict _)
  · exact h.set _ ((h.shard hpos name).remove _)
  · exact h.set _ ((h.shard hpos name).remove _)
  · intro s hs
    change s ∈ (c.shards.map fun s => s.clear.2).toList at hs
    rw [Array.toList_map] at hs
    obtain ⟨t, -, rfl⟩ := List.mem_map.mp hs
    exact rfl
  · simp only [Cache.carry, purgeShard]
    split
    · exact h
    · exact h.set _ rfl

/-! ### What deeds add to the weight -/

/-- The weight of what the deed writes. -/
def Deed.weight : Option (Deed V) → Nat
  | some (.write _ e) => e.weight.toNat
  | _ => 0

theorem shard_weight_le (hpos : 0 < c.shards.size) (name : String) :
    (c.shard name).weight ≤ weight c.shards := by
  have hindex := getElem?_shardIndex hpos name
  rw [← Array.getElem?_toList] at hindex
  rw [weight, total_eq_add_eraseIdx hindex]
  exact Nat.le_add_right _ _

/-- What fits beside all entries of the cache fits into its partition. -/
theorem Exact.fits (h : Exact c.shards) (hpos : 0 < c.shards.size) (name : String) {e : Entry V}
    (hlt : weight c.shards + e.weight.toNat < UInt64.size) : c.Fits name e := by
  apply (h.shard hpos name).fits_iff.mpr
  have hle := shard_weight_le hpos name
  have hbeside : (c.shard name).weightBeside (c.key name) ≤ (c.shard name).weight :=
    Shard.weightOf_erase_le _ _
  omega

theorem weight_setShard_le (hpos : 0 < c.shards.size) (name : String) {s : Shard V} {n : Nat}
    (hs : s.weight ≤ (c.shard name).weight + n) :
    weight (c.setShard name s).shards ≤ weight c.shards + n := by
  have hset := total_setShard (f := Shard.weight) hpos name s
  unfold weight
  omega

theorem weight_carry_le (hpos : 0 < c.shards.size) (now : Instant) (d : Option (Deed V)) :
    weight (c.carry now d).shards ≤ weight c.shards + Deed.weight d := by
  rcases d with _ | name | ⟨name, e⟩ | name | name | _ | index
  · exact Nat.le_refl _
  · exact weight_setShard_le hpos name (Shard.weight_get_le _ _ now)
  · exact weight_setShard_le hpos name (Shard.weight_place_le _ _ e)
  · exact weight_setShard_le hpos name (Shard.weight_remove_le _ _)
  · exact weight_setShard_le hpos name (Shard.weight_remove_le _ _)
  · refine Nat.le_trans (Nat.le_of_eq (total_eq_zero fun s hs => ?_)) (Nat.zero_le _)
    change s ∈ (c.shards.map fun s => s.clear.2).toList at hs
    rw [Array.toList_map] at hs
    obtain ⟨t, -, rfl⟩ := List.mem_map.mp hs
    rfl
  · simp only [Cache.carry, purgeShard]
    split
    · exact Nat.le_refl _
    · rename_i s hs
      have hset := total_setIfInBounds (f := Shard.weight) hs s.clear.2
      change total Shard.weight (c.shards.setIfInBounds index s.clear.2).toList ≤
        total Shard.weight c.shards.toList + 0
      have hclear : s.clear.2.weight = 0 := rfl
      omega

/-! ### Room to spare -/

/-- The used bytes are exact, and a word can count them and `n` more. -/
structure Spare (n : Nat) (c : Cache V) : Prop where
  shards : 0 < c.shards.size
  exact : Exact c.shards
  lt : weight c.shards + n < UInt64.size

namespace Spare

variable {n k : Nat}

theorem new {config : Config V} (h : n < UInt64.size) : (Cache.new config).Spare n where
  shards := (size_shards_new config).symm ▸ Sharding.count_pos _ _
  exact := exact_new config
  lt := by rwa [weight_new, Nat.zero_add]

theorem of_shards {c' : Cache V} (h : c.Spare n) (hshards : c'.shards = c.shards) : c'.Spare n :=
  ⟨hshards ▸ h.shards, hshards ▸ h.exact, hshards ▸ h.lt⟩

theorem fits (h : c.Spare n) {e : Entry V} (he : e.weight.toNat ≤ n) (name : String) :
    c.Fits name e := h.exact.fits h.shards name (by have := h.lt; omega)

theorem totalBytes (h : c.Spare n) : c.totalBytes = .ok c.usedBytes :=
  totalBytes_of_exact h.exact (by have := h.lt; omega)

/-- A deed takes up what it writes. -/
theorem carry (h : c.Spare (k + n)) (now : Instant) {d : Option (Deed V)} (hadmits : c.Admits d)
    (hd : Deed.weight d ≤ k) : (c.carry now d).Spare n where
  shards := (size_shards_carry c now d).symm ▸ h.shards
  exact := h.exact.carry h.shards now hadmits
  lt := by
    have hle := weight_carry_le h.shards now d
    have hlt := h.lt
    omega

end Spare

end Stockroom.Cache
