import Stockroom.Proofs.Cache.Totals
import Stockroom.Proofs.Shard.Accounting

/-! Nothing is lost from the counts of a cache but the entry in whose place another was to come that
did not fit: any other entry that was ever added is there, or was evicted, removed or expired. Each
write is an insert or an update, and each look-up a hit or a miss. -/

namespace Stockroom
set_option autoImplicit false

variable {V : Type}

namespace Counters

def toList (n : Counters) : List Nat :=
  [n.hits, n.misses, n.loads, n.loadFailures, n.refreshes, n.inserts, n.updates, n.evictions,
    n.removals, n.expirations, n.persistDropped]

/-- No count has outgrown its word in the record. -/
def FitWords (n : Counters) : Prop := ∀ k ∈ n.toList, k < UInt64.size

instance (n : Counters) : Decidable n.FitWords := inferInstanceAs (Decidable (∀ k ∈ _, _))

theorem FitWords.toNat_toUInt64 {n : Counters} (h : n.FitWords) {k : Nat} (hk : k ∈ n.toList) :
    k.toUInt64.toNat = k := UInt64.toNat_ofNat_of_lt' (h k hk)

end Counters

namespace Cache

variable {c : Cache V} {lost : Nat}

/-! ### What deeds do to the counts -/

/-- Entries that were added are there, or it was counted how they went, but for those lost. -/
def Balanced (c : Cache V) (lost : Nat) : Prop :=
  c.counters.inserts =
    c.size + c.counters.evictions + c.counters.removals + c.counters.expirations + lost

theorem size_setShard (h : 0 < c.shards.size) (name : String) (s : Shard V) :
    (c.setShard name s).size + (c.shard name).size = c.size + s.size := by
  rw [size_eq_total, size_eq_total]
  exact total_setShard h name s

theorem Balanced.lookup (hb : c.Balanced lost) (h : 0 < c.shards.size) (now : Instant)
    (name : String) : (c.lookup now name).2.Balanced lost := by
  have hget := (c.shard name).size_get (c.key name) now
  have hsize := size_setShard h name ((c.shard name).get (c.key name) now).2
  unfold Balanced at hb ⊢
  change (countLookup c.counters _).inserts =
    (c.setShard name ((c.shard name).get (c.key name) now).2).size +
      (countLookup c.counters _).evictions + (countLookup c.counters _).removals +
      (countLookup c.counters _).expirations + lost
  cases hlookup : ((c.shard name).get (c.key name) now).1 <;> rw [hlookup] at hget <;>
    dsimp only [countLookup] at hget ⊢ <;> omega

theorem Balanced.add (hb : c.Balanced lost) (h : 0 < c.shards.size) (name : String) (e : Entry V) :
    (c.add name e).Balanced lost := by
  have hplace := (c.shard name).size_place (c.key name) e
  have hsize := size_setShard h name ((c.shard name).place (c.key name) e).2
  unfold Balanced at hb ⊢
  change (countInsertion c.counters _).inserts =
    (c.setShard name ((c.shard name).place (c.key name) e).2).size +
      (countInsertion c.counters _).evictions + (countInsertion c.counters _).removals +
      (countInsertion c.counters _).expirations + lost
  dsimp only [countInsertion]
  split at hplace <;> rename_i hreplaced
  · rw [if_pos hreplaced]
    omega
  · rw [if_neg hreplaced]
    omega

theorem Balanced.delete (hb : c.Balanced lost) (h : 0 < c.shards.size) (name : String) :
    (c.delete name).2.Balanced lost := by
  have hremove := (c.shard name).size_remove (c.key name)
  have hsize := size_setShard h name ((c.shard name).remove (c.key name)).2
  unfold Balanced at hb ⊢
  change c.counters.inserts =
    (c.setShard name ((c.shard name).remove (c.key name)).2).size + c.counters.evictions +
      (c.counters.removals + if ((c.shard name).remove (c.key name)).1 then 1 else 0) +
      c.counters.expirations + lost
  omega

theorem size_purge (c : Cache V) : c.purge.size = 0 := by
  rw [size_eq_total]
  apply total_eq_zero
  intro s hs
  rw [purge, Array.toList_map] at hs
  obtain ⟨t, -, rfl⟩ := List.mem_map.mp hs
  rfl

theorem size_new (config : Config V) : (new config).size = 0 := by
  rw [size_eq_total]
  apply total_eq_zero
  intro s hs
  rw [new, Array.toList_replicate] at hs
  rw [List.eq_of_mem_replicate hs]
  rfl

theorem Balanced.purge (hb : c.Balanced lost) : c.purge.Balanced lost := by
  have hsize := size_purge c
  unfold Balanced at hb ⊢
  change c.counters.inserts = c.purge.size + c.counters.evictions +
    (c.counters.removals + c.size) + c.counters.expirations + lost
  omega

theorem Balanced.purgeShard (hb : c.Balanced lost) (index : Nat) :
    (c.purgeShard index).2.Balanced lost := by
  unfold Cache.purgeShard
  split
  · exact hb
  · rename_i s hs
    have hsize := total_setIfInBounds (f := Shard.size) hs s.clear.2
    have hclear : s.clear.2.size = 0 := rfl
    unfold Balanced at hb ⊢
    rw [size_eq_total] at hb ⊢
    change c.counters.inserts = total Shard.size (c.shards.setIfInBounds index s.clear.2).toList +
      c.counters.evictions + (c.counters.removals + s.size) + c.counters.expirations + lost
    omega

theorem Balanced.forfeit (hb : c.Balanced lost) (h : 0 < c.shards.size) (name : String) :
    (c.forfeit name).Balanced (lost + if (c.peek? name).isSome then 1 else 0) := by
  have hforfeit := (c.shard name).size_forfeit (c.key name)
  have hsize := size_setShard h name ((c.shard name).forfeit (c.key name))
  rw [Shard.remove_fst] at hforfeit
  unfold Balanced at hb ⊢
  change c.counters.inserts =
    (c.setShard name ((c.shard name).forfeit (c.key name))).size + c.counters.evictions +
      c.counters.removals + c.counters.expirations +
      (lost + if ((c.shard name).peek? (c.key name)).isSome then 1 else 0)
  omega

theorem Balanced.carry (hb : c.Balanced lost) (h : 0 < c.shards.size) (now : Instant)
    (d : Option (Deed V)) :
    (c.carry now d).Balanced (lost + if d.any (Deed.loses c) then 1 else 0) := by
  rcases d with _ | name | ⟨name, e⟩ | name | name | _ | index
  · exact hb
  · exact hb.lookup h now name
  · exact hb.add h name e
  · exact hb.forfeit h name
  · exact hb.delete h name
  · exact hb.purge
  · exact hb.purgeShard index

theorem writes_carry (c : Cache V) (now : Instant) (d : Option (Deed V)) :
    (c.carry now d).counters.inserts + (c.carry now d).counters.updates =
      c.counters.inserts + c.counters.updates + if d.any Deed.isWrite then 1 else 0 := by
  rcases d with _ | name | ⟨name, e⟩ | name | name | _ | index
  · rfl
  · obtain ⟨_, _, _, hcounters⟩ := exists_counters_lookup c now name
    exact congrArg (fun n => n.inserts + n.updates) hcounters
  · change (countInsertion c.counters _).inserts + (countInsertion c.counters _).updates =
      _ + 1
    dsimp only [countInsertion]
    split <;> omega
  · rfl
  · rfl
  · rfl
  · simp only [Cache.carry, Cache.purgeShard]
    split <;> rfl

theorem looks_carry (c : Cache V) (now : Instant) (d : Option (Deed V)) :
    (c.carry now d).counters.hits + (c.carry now d).counters.misses =
      c.counters.hits + c.counters.misses + if d.any Deed.isLook then 1 else 0 := by
  rcases d with _ | name | ⟨name, e⟩ | name | name | _ | index
  · rfl
  · change (countLookup c.counters _).hits + (countLookup c.counters _).misses = _ + 1
    unfold countLookup
    split <;> dsimp only <;> omega
  · rfl
  · rfl
  · rfl
  · rfl
  · simp only [Cache.carry, Cache.purgeShard]
    split <;> rfl

/-! ### Runs -/

namespace Moment

variable {m : Moment V}

/-- The move loses an entry. -/
def loses (m : Moment V) (move : Move V) : Bool := (m.deed? move).any (Deed.loses m.world.cache)

theorem balanced_run (h : 0 < m.world.cache.shards.size) (hb : m.world.cache.Balanced lost)
    (moves : List (Move V)) :
    (m.run moves).world.cache.Balanced (lost + m.count loses moves) := by
  induction moves generalizing m lost with
  | nil => exact hb
  | cons move moves ih =>
    have hshards : 0 < (m.step move).world.cache.shards.size := by
      rw [← size_shards_run m [move]] at h
      exact h
    have hstep : (m.step move).world.cache.Balanced (lost + if m.loses move then 1 else 0) :=
      kept_step (P := fun c => c.Balanced (lost + if m.loses move then 1 else 0))
        (fun _ => Iff.rfl) move (hb.carry h m.world.now (m.deed? move))
    have hrun := ih hshards hstep
    rwa [Nat.add_assoc] at hrun

theorem balanced_new (config : Config V) : (Cache.new config).Balanced 0 := by
  change 0 = (Cache.new config).size + 0
  rw [size_new]

/-- What each deed adds to a count, the moves of a run add up to. -/
theorem count_run {f : Cache V → Nat} {p : Option (Deed V) → Bool} (hstore : ∀ c, f c.store = f c)
    (hcarry : ∀ c now d, f (c.carry now d) = f c + if p d then 1 else 0) (moves : List (Move V)) :
    f (m.run moves).world.cache =
      f m.world.cache + m.count (fun m move => p (m.deed? move)) moves := by
  induction moves generalizing m with
  | nil => rfl
  | cons move moves ih =>
    have hstep : f (m.step move).world.cache = f m.world.cache + if p (m.deed? move) then 1 else 0 := by
      rw [← hstore, store_step, hstore, hcarry]
    change f ((m.step move).run moves).world.cache = f m.world.cache + (_ + _)
    rw [ih, hstep, Nat.add_assoc]

theorem offer?_eq_none_of_op? {move : Move V} {op : Op V} (h : m.op? move = some op) :
    m.offer? move = none := by
  obtain ⟨w, running, ended⟩ := m
  cases move with
  | goOn =>
    obtain _ | ⟨call, cause, script, last⟩ := running
    · rfl
    · cases script <;> first | rfl | cases h
  | run i => cases h
  | _ => rfl

theorem isLook_writing? (w : World V) (name : String) (value : Option V) (ttl : Duration) :
    (w.writing? name value ttl).any Deed.isLook = false := by
  cases he : w.cache.entry w.now name value ttl with
  | error crash =>
    rw [World.writing?_of_error he]
    rfl
  | ok e =>
    rw [World.writing?_of_ok he]
    split <;> rfl

theorem isLook_deed? (m : Moment V) (move : Move V) :
    (if (m.deed? move).any Deed.isLook then 1 else 0) =
      (if (m.op? move).any Op.isGet then 1 else 0) + if (m.offer? move).isSome then 1 else 0 := by
  unfold deed?
  cases hop : m.op? move with
  | some op =>
    rw [offer?_eq_none_of_op? hop]
    cases op with
    | set name value ttl =>
      simp only [World.deed?, Op.deed?, isLook_writing?]
      rfl
    | _ => rfl
  | none =>
    cases m.offer? move with
    | some offer => rfl
    | none =>
      cases m.yield? move with
      | some y =>
        simp only [World.deed?, Yield.deed?, isLook_writing?]
        rfl
      | none => rfl

theorem count_add {p q r : Moment V → Move V → Bool}
    (h : ∀ m move, (if p m move then 1 else 0) =
      (if q m move then 1 else 0) + if r m move then 1 else 0) (moves : List (Move V)) :
    m.count p moves = m.count q moves + m.count r moves := by
  induction moves generalizing m with
  | nil => rfl
  | cons move moves ih =>
    simp only [count, h, ih]
    omega

theorem writes_run (config : Config V) (moves : List (Move V)) :
    ((new config).run moves).world.cache.counters.inserts +
        ((new config).run moves).world.cache.counters.updates =
      (new config).count (fun m move => (m.deed? move).any Deed.isWrite) moves :=
  (count_run (f := fun c => c.counters.inserts + c.counters.updates)
    (p := fun d => d.any Deed.isWrite) (fun _ => rfl) writes_carry moves).trans (Nat.zero_add _)

theorem looks_run (config : Config V) (moves : List (Move V)) :
    ((new config).run moves).world.cache.counters.hits +
        ((new config).run moves).world.cache.counters.misses =
      (new config).count (fun m move => (m.op? move).any Op.isGet) moves +
        (new config).count (fun m move => (m.offer? move).isSome) moves := by
  rw [← count_add isLook_deed?]
  exact (count_run (f := fun c => c.counters.hits + c.counters.misses)
    (p := fun d => d.any Deed.isLook) (fun _ => rfl) looks_carry moves).trans (Nat.zero_add _)

/-- In every run the record of a cache adds up, but for entries that are lost where the next one
under their name does not fit. -/
theorem metrics_conserved (config : Config V) (moves : List (Move V))
    (h : ((new config).run moves).world.cache.counters.FitWords) :
    let m := (new config).run moves
    let r := m.world.cache.metrics
    r.entryCount = m.world.cache.size ∧
    r.inserts.toNat =
      r.entryCount + r.evictions.toNat + r.removals.toNat + r.expirations.toNat +
        (new config).count loses moves ∧
    r.inserts.toNat + r.updates.toNat =
      (new config).count (fun m move => (m.deed? move).any Deed.isWrite) moves ∧
    r.hits.toNat + r.misses.toNat =
      (new config).count (fun m move => (m.op? move).any Op.isGet) moves +
        (new config).count (fun m move => (m.offer? move).isSome) moves ∧
    ∀ move, (m.step move).world.cache.store =
      (m.world.cache.carry m.world.now (m.deed? move)).store := by
  intro m r
  have hword {k : Nat} (hk : k ∈ m.world.cache.counters.toList) := h.toNat_toUInt64 hk
  have hinserts : r.inserts.toNat = _ := hword (by simp [Counters.toList])
  have hupdates : r.updates.toNat = _ := hword (by simp [Counters.toList])
  have hevictions : r.evictions.toNat = _ := hword (by simp [Counters.toList])
  have hremovals : r.removals.toNat = _ := hword (by simp [Counters.toList])
  have hexpirations : r.expirations.toNat = _ := hword (by simp [Counters.toList])
  have hhits : r.hits.toNat = _ := hword (by simp [Counters.toList])
  have hmisses : r.misses.toNat = _ := hword (by simp [Counters.toList])
  refine ⟨rfl, ?_, ?_, ?_, store_step m⟩
  · rw [hinserts, hevictions, hremovals, hexpirations]
    have hbalanced := balanced_run (shards_pos config []) (balanced_new config) moves
    rwa [Nat.zero_add] at hbalanced
  · rw [hinserts, hupdates]
    exact writes_run config moves
  · rw [hhits, hmisses]
    exact looks_run config moves

/-- A value is written and overwritten. A caller misses another name, and its loader reads the first
before it ends. One entry is deleted, and the other read when it has expired. -/
def comingAndGoing : List (Move Nat) :=
  [.outside (.perform (.set "a" 1)), .outside (.perform (.set "a" 2)),
    .outside (.request "b" ⟨none, .act (.get "a") (.done (.ofValue 3))⟩ none), .run 0, .run 0,
    .goOn, .goOn, .outside (.perform (.delete "a")), .outside (.advance (.ofSeconds 301)),
    .outside (.perform (.get "b"))]

theorem metrics_conserved_coming_and_going :
    let m := (new { capacity := 2, weigh := fun _ _ => .ok 1 }).run comingAndGoing
    let r := m.world.cache.metrics
    m.world.cache.counters.FitWords ∧
      (r.inserts, r.updates, r.hits, r.misses) = (2, 1, 1, 2) ∧
      r.inserts.toNat =
        r.entryCount + r.evictions.toNat + r.removals.toNat + r.expirations.toNat := by
  have h : ((new { capacity := 2, weigh := fun _ _ => .ok 1 }).run
      comingAndGoing).world.cache.counters.FitWords := by decide +kernel
  have hlost : (new { capacity := 2, weigh := fun _ _ => .ok 1 }).count loses comingAndGoing = 0 := by
    decide +kernel
  obtain ⟨-, hinserts, -⟩ := metrics_conserved _ comingAndGoing h
  rw [hlost] at hinserts
  exact ⟨h, by decide +kernel, hinserts⟩

/-- Two values are written, and then for the first one that is too heavy beside the second. -/
def outgrowing : List (Move UInt64) :=
  [.outside (.perform (.set "a" 1)), .outside (.perform (.set "b" 5)),
    .outside (.perform (.set "a" 18446744073709551615))]

/-- The first entry is gone, and it is not counted how. -/
theorem not_metrics_conserved :
    let m := (new { shards := some 1, weigh := fun _ v => .ok v }).run outgrowing
    let r := m.world.cache.metrics
    m.world.cache.counters.FitWords ∧ r.entryCount = 1 ∧
      ¬ r.inserts.toNat =
        r.entryCount + r.evictions.toNat + r.removals.toNat + r.expirations.toNat := by
  decide +kernel

end Moment

end Cache

end Stockroom
