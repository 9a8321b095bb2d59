import Stockroom.Proofs.Cache.Edits
import Stockroom.Proofs.Cache.Lasting

/-! Two caches without a bound, compared under one name. Whatever is done to either of them under other
names, they go on holding the same under this one. -/

namespace Stockroom.Cache
set_option autoImplicit false

variable {V : Type} {c d : Cache V} {name : String}

def Deed.Aside (name : String) : Deed V → Prop
  | .look n | .write n _ | .forfeit n | .delete n => n ≠ name
  | .purge | .purgeShard _ => False

structure AgreeAt (name : String) (c d : Cache V) : Prop where
  left : c.Unbounded
  right : d.Unbounded
  config : d.config = c.config
  shards : d.shards.size = c.shards.size
  peek? : d.peek? name = c.peek? name

theorem shardIndex_congr (hconfig : d.config = c.config) (hsize : d.shards.size = c.shards.size) :
    d.shardIndex name = c.shardIndex name := by
  rw [shardIndex, shardIndex, hconfig, hsize]

theorem entry_eq (h : d.config = c.config) (now : Instant) (n : String) (value : Option V)
    (ttl : Duration) : d.entry now n value ttl = c.entry now n value ttl := by
  rw [entry, entry, h]

theorem peek?_purgeShard_self (h : c.Unbounded) (name : String) :
    (c.purgeShard (c.shardIndex name)).2.peek? name = none := by
  have hs := getElem?_shardIndex h.shards name
  unfold purgeShard
  rw [hs]
  have hindex : ({ c with
      shards := c.shards.setIfInBounds (c.shardIndex name) (c.shard name).clear.2
      counters.removals := c.counters.removals + (c.shard name).clear.1 } : Cache V).shardIndex
        name = c.shardIndex name := by
    rw [shardIndex, Array.size_setIfInBounds]
    rfl
  dsimp only
  rw [Cache.peek?, shard, hindex, Array.getD_eq_getD_getElem?,
    Array.getElem?_setIfInBounds_self_of_lt (shardIndex_lt h.shards name)]
  rfl

theorem peek?_carry_of_aside (h : c.Unbounded) {deed : Option (Deed V)}
    (hdeed : ∀ x, deed = some x → x.Aside name) (now : Instant) :
    (c.carry now deed).peek? name = c.peek? name := by
  rcases deed with _ | n | ⟨n, e⟩ | n | n | _ | index
  · rfl
  · have hne : n ≠ name := hdeed _ rfl
    exact (peek?_lookup h.shards now n name).trans (if_neg hne)
  · have hne : n ≠ name := hdeed _ rfl
    exact (peek?_add h n name e).trans (if_neg hne)
  · have hne : n ≠ name := hdeed _ rfl
    exact (peek?_forfeit h.shards n name).trans (if_neg hne)
  · have hne : n ≠ name := hdeed _ rfl
    exact (peek?_delete h.shards n name).trans (if_neg hne)
  · exact (hdeed _ rfl).elim
  · exact (hdeed _ rfl).elim

namespace AgreeAt

theorem refl (h : c.Unbounded) (name : String) : c.AgreeAt name c := ⟨h, h, rfl, rfl, rfl⟩

theorem symm (h : c.AgreeAt name d) : d.AgreeAt name c :=
  ⟨h.right, h.left, h.config.symm, h.shards.symm, h.peek?.symm⟩

theorem live? (h : c.AgreeAt name d) (now : Instant) : d.live? now name = c.live? now name := by
  rw [Cache.live?, Cache.live?, h.peek?]

theorem lookup_fst (h : c.AgreeAt name d) (now : Instant) :
    (d.lookup now name).1 = (c.lookup now name).1 := by
  rw [Cache.lookup_fst, Cache.lookup_fst, h.live?]

theorem delete_fst (h : c.AgreeAt name d) : (d.delete name).1 = (c.delete name).1 := by
  rw [Cache.delete_fst, Cache.delete_fst, h.peek?]

theorem contains (h : c.AgreeAt name d) (now : Instant) :
    d.contains now name = c.contains now name := by
  rw [contains_eq, contains_eq, h.live?]

theorem of_store {c' d' : Cache V} (hc : c'.store = c.store) (hd : d'.store = d.store)
    (h : c.AgreeAt name d) : c'.AgreeAt name d' where
  left := unbounded_store.mp (hc ▸ unbounded_store.mpr h.left)
  right := unbounded_store.mp (hd ▸ unbounded_store.mpr h.right)
  config := (congrArg Cache.config hd).trans (h.config.trans (congrArg Cache.config hc).symm)
  shards := (congrArg (fun c : Cache V => c.shards.size) hd).trans
    (h.shards.trans (congrArg (fun c : Cache V => c.shards.size) hc).symm)
  peek? := (congrArg (Cache.peek? · name) hd).trans
    (h.peek?.trans (congrArg (Cache.peek? · name) hc).symm)

/-- Neither the registry nor what is counted has a part in it. -/
theorem setFlights (h : c.AgreeAt name d) (f f' : Registry V) (n n' : Counters) :
    AgreeAt name { c with counters := n, flights := f } { d with counters := n', flights := f' } where
  left := ⟨h.left.shards, h.left.capacity⟩
  right := ⟨h.right.shards, h.right.capacity⟩
  config := h.config
  shards := h.shards
  peek? := h.peek?

/-- The same is done to both. -/
theorem carry (h : c.AgreeAt name d) (now : Instant) (deed : Option (Deed V)) :
    (c.carry now deed).AgreeAt name (d.carry now deed) where
  left := unbounded_carry h.left now deed
  right := unbounded_carry h.right now deed
  config := by rw [config_carry, config_carry, h.config]
  shards := by rw [size_shards_carry, size_shards_carry, h.shards]
  peek? := by
    rcases deed with _ | n | ⟨n, e⟩ | n | n | _ | index
    · exact h.peek?
    · refine (peek?_lookup h.right.shards now n name).trans
        (Eq.trans ?_ (peek?_lookup h.left.shards now n name).symm)
      split
      · rename_i hn
        rw [hn, h.live?]
      · exact h.peek?
    · refine (peek?_add h.right n name e).trans (Eq.trans ?_ (peek?_add h.left n name e).symm)
      rw [h.peek?]
    · refine (peek?_forfeit h.right.shards n name).trans
        (Eq.trans ?_ (peek?_forfeit h.left.shards n name).symm)
      rw [h.peek?]
    · refine (peek?_delete h.right.shards n name).trans
        (Eq.trans ?_ (peek?_delete h.left.shards n name).symm)
      rw [h.peek?]
    · exact (peek?_purge d name).trans (peek?_purge c name).symm
    · have hindex : d.shardIndex name = c.shardIndex name := shardIndex_congr h.config h.shards
      change (d.purgeShard index).2.peek? name = (c.purgeShard index).2.peek? name
      by_cases hi : index = c.shardIndex name
      · rw [hi, peek?_purgeShard_self h.left, ← hindex, peek?_purgeShard_self h.right]
      · rw [peek?_purgeShard hi, peek?_purgeShard (hindex ▸ hi), h.peek?]

/-- Something else is done to the one of them. -/
theorem aside (h : c.AgreeAt name d) (now : Instant) (deed : Option (Deed V))
    (hdeed : ∀ x, deed = some x → x.Aside name) : (c.carry now deed).AgreeAt name d where
  left := unbounded_carry h.left now deed
  right := h.right
  config := h.config.trans (config_carry c now deed).symm
  shards := h.shards.trans (size_shards_carry c now deed).symm
  peek? := h.peek?.trans (peek?_carry_of_aside h.left hdeed now).symm

end AgreeAt

/-! ### A cache that holds nothing else -/

/-- No entry but that of the name weighs anything, and the used bytes are exact. -/
structure Lone (name : String) (c : Cache V) : Prop where
  exact : Exact c.shards
  beside : ∀ s ∈ c.shards.toList, s.weightBeside (c.key name) = 0

namespace Lone

theorem new (config : Config V) (name : String) : (Cache.new config).Lone name where
  exact := exact_new config
  beside s hs := by
    rw [Cache.new, Array.toList_replicate] at hs
    rw [List.eq_of_mem_replicate hs]
    exact Nat.le_zero.mp (Shard.weightOf_erase_le _ _)

theorem shard (h : c.Lone name) (hpos : 0 < c.shards.size) :
    (c.shard name).weightBeside (c.key name) = 0 :=
  h.beside _ (Array.mem_toList_iff.mpr (Array.mem_of_getElem? (getElem?_shardIndex hpos name)))

/-- Where there is nothing else, everything fits. -/
theorem fits (h : c.Lone name) (hpos : 0 < c.shards.size) (e : Entry V) : c.Fits name e := by
  apply (h.exact.shard hpos name).fits_iff.mpr
  rw [h.shard hpos, Nat.zero_add]
  exact e.weight.toNat_lt_size

theorem setShards {i : Nat} {s : Shard V} (h : c.Lone name) (hs : s.weightBeside (c.key name) = 0) :
    ∀ t ∈ (c.shards.setIfInBounds i s).toList, t.weightBeside (c.key name) = 0 := by
  intro t ht
  rw [Array.toList_setIfInBounds] at ht
  rcases List.mem_or_eq_of_mem_set ht with ht | rfl
  · exact h.beside t ht
  · exact hs

/-- What is done to the name, or to whole partitions, puts nothing else there. -/
theorem carry (h : c.Lone name) (hunbounded : c.Unbounded) (now : Instant) {d : Deed V}
    (hd : ¬ d.Aside name) : (c.carry now (some d)).Lone name where
  exact := by
    refine h.exact.carry hunbounded.shards now ?_
    cases d with
    | write n e =>
      obtain rfl : n = name := not_not.mp hd
      exact h.fits hunbounded.shards e
    | _ => trivial
  beside := by
    have hshard := h.shard hunbounded.shards
    cases d with
    | look n =>
      obtain rfl : n = name := not_not.mp hd
      exact h.setShards ((Shard.weightBeside_get _ _ now).trans hshard)
    | write n e =>
      obtain rfl : n = name := not_not.mp hd
      exact h.setShards ((Shard.weightBeside_place (capacity_shard hunbounded n) _ e).trans hshard)
    | forfeit n =>
      obtain rfl : n = name := not_not.mp hd
      exact h.setShards ((Shard.weightBeside_remove _ _).trans hshard)
    | delete n =>
      obtain rfl : n = name := not_not.mp hd
      exact h.setShards ((Shard.weightBeside_remove _ _).trans hshard)
    | purge =>
      intro s hs
      change s ∈ (c.shards.map fun s => s.clear.2).toList at hs
      rw [Array.toList_map] at hs
      obtain ⟨t, -, rfl⟩ := List.mem_map.mp hs
      exact Nat.le_zero.mp (Shard.weightOf_erase_le _ _)
    | purgeShard index =>
      simp only [Cache.carry, purgeShard]
      split
      · exact h.beside
      · exact h.setShards (Nat.le_zero.mp (Shard.weightOf_erase_le _ _))

end Lone

end Stockroom.Cache
