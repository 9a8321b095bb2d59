import Stockroom.Proofs.Cache.Deeds

/-! What the partitions of a cache add up to, and what deeds leave as it is. -/

namespace Stockroom.Cache
set_option autoImplicit false

variable {V : Type} {c : Cache V}

/-! ### Sums over partitions -/

def total (f : Shard V → Nat) : List (Shard V) → Nat
  | [] => 0
  | s :: l => f s + total f l

section
variable {f : Shard V → Nat} {l l' : List (Shard V)} {i : Nat} {s : Shard V}

theorem total_perm (h : l.Perm l') : total f l = total f l' := by
  induction h with
  | nil => rfl
  | cons s h ih => exact congrArg (f s + ·) ih
  | swap s t l =>
    simp only [total]
    omega
  | trans h h' ih ih' => exact ih.trans ih'

theorem total_eq_add_eraseIdx (h : l[i]? = some s) : total f l = f s + total f (l.eraseIdx i) := by
  obtain ⟨hi, rfl⟩ := List.getElem?_eq_some_iff.mp h
  exact total_perm (World.perm_cons_eraseIdx hi)

theorem total_set (h : l[i]? = some s) (s' : Shard V) :
    total f (l.set i s') + f s = total f l + f s' := by
  have hset : (l.set i s')[i]? = some s' := by
    rw [List.getElem?_set_self]
    exact (List.getElem?_eq_some_iff.mp h).1
  rw [total_eq_add_eraseIdx hset, List.eraseIdx_set_eq, total_eq_add_eraseIdx h]
  omega

theorem total_le {b : Nat} (h : ∀ s ∈ l, f s ≤ b) : total f l ≤ l.length * b := by
  induction l with
  | nil => exact Nat.zero_le _
  | cons s l ih =>
    have hs := h s List.mem_cons_self
    have hl := ih fun t ht => h t (List.mem_cons_of_mem _ ht)
    rw [total, List.length_cons, Nat.succ_mul]
    omega

theorem total_eq_zero (h : ∀ s ∈ l, f s = 0) : total f l = 0 := by
  have hle := total_le (b := 0) fun s hs => Nat.le_of_eq (h s hs)
  omega

theorem foldl_size (l : List (Shard V)) (n : Nat) :
    l.foldl (fun n s => n + s.size) n = n + total Shard.size l := by
  induction l generalizing n with
  | nil => rfl
  | cons s l ih =>
    rw [List.foldl_cons, ih, total]
    omega

end

theorem size_eq_total (c : Cache V) : c.size = total Shard.size c.shards.toList := by
  rw [size, ← Array.foldl_toList, foldl_size, Nat.zero_add]

theorem exists_index_of_mem {shards : Array (Shard V)} {s : Shard V} (h : s ∈ shards.toList) :
    ∃ i : Nat, shards[i]? = some s := by
  obtain ⟨i, hi⟩ := List.mem_iff_getElem?.mp h
  exact ⟨i, by rwa [Array.getElem?_toList] at hi⟩

theorem total_setIfInBounds {f : Shard V → Nat} {shards : Array (Shard V)} {i : Nat} {s : Shard V}
    (h : shards[i]? = some s) (s' : Shard V) :
    total f (shards.setIfInBounds i s').toList + f s = total f shards.toList + f s' := by
  rw [Array.toList_setIfInBounds]
  apply total_set
  rwa [Array.getElem?_toList]

theorem shardIndex_lt (h : 0 < c.shards.size) (name : String) :
    c.shardIndex name < c.shards.size := Sharding.index_lt _ h

/-- The partition of a name is there, whatever its hash. -/
theorem getElem?_shardIndex (h : 0 < c.shards.size) (name : String) :
    c.shards[c.shardIndex name]? = some (c.shard name) := by
  have hi := shardIndex_lt h name
  rw [shard, Array.getD_eq_getD_getElem?, Array.getElem?_eq_getElem hi, Option.getD_some]

theorem total_setShard {f : Shard V → Nat} (h : 0 < c.shards.size) (name : String)
    (s : Shard V) :
    total f (c.setShard name s).shards.toList + f (c.shard name) =
      total f c.shards.toList + f s :=
  total_setIfInBounds (getElem?_shardIndex h name) s

/-! ### What deeds leave as it is -/

theorem config_carry (c : Cache V) (now : Instant) (d : Option (Deed V)) :
    (c.carry now d).config = c.config := by
  rcases d with _ | _ | _ | _ | _ | _ | index
  all_goals try rfl
  simp only [carry, purgeShard]
  split <;> rfl

theorem size_shards_carry (c : Cache V) (now : Instant) (d : Option (Deed V)) :
    (c.carry now d).shards.size = c.shards.size := by
  rcases d with _ | _ | _ | _ | _ | _ | index
  · rfl
  · exact Array.size_setIfInBounds
  · exact Array.size_setIfInBounds
  · exact Array.size_setIfInBounds
  · exact Array.size_setIfInBounds
  · exact Array.size_map
  · simp only [carry, purgeShard]
    split
    · rfl
    · exact Array.size_setIfInBounds

namespace Moment

variable {m : Moment V} {P : Cache V → Prop}

/-- What the deed of a move keeps, the move keeps. -/
theorem kept_step (hstore : ∀ c, P c.store ↔ P c) (move : Move V)
    (h : P (m.world.cache.carry m.world.now (m.deed? move))) :
    P (m.step move).world.cache :=
  (hstore _).mp (store_step m move ▸ (hstore _).mpr h)

theorem kept_run (hstore : ∀ c, P c.store ↔ P c)
    (hcarry : ∀ c now d, c.Admits d → P c → P (c.carry now d)) (h : P m.world.cache)
    (moves : List (Move V)) :
    P (m.run moves).world.cache := by
  induction moves generalizing m with
  | nil => exact h
  | cons move moves ih => exact ih (kept_step hstore move (hcarry _ _ _ (m.admits_deed? move) h))

theorem config_run (m : Moment V) (moves : List (Move V)) :
    (m.run moves).world.cache.config = m.world.cache.config :=
  kept_run (P := fun c => c.config = m.world.cache.config) (fun _ => Iff.rfl)
    (fun c now d _ h => (config_carry c now d).trans h) rfl moves

theorem size_shards_run (m : Moment V) (moves : List (Move V)) :
    (m.run moves).world.cache.shards.size = m.world.cache.shards.size :=
  kept_run (P := fun c => c.shards.size = m.world.cache.shards.size) (fun _ => Iff.rfl)
    (fun c now d _ h => (size_shards_carry c now d).trans h) rfl moves

end Moment

theorem size_shards_new (config : Config V) : (new config).shards.size = config.shardCount :=
  Array.size_replicate

theorem shards_pos (config : Config V) (moves : List (Move V)) :
    0 < ((Moment.new config).run moves).world.cache.shards.size := by
  rw [Moment.size_shards_run]
  exact (size_shards_new config).symm ▸ Sharding.count_pos _ _

end Stockroom.Cache
