import Stockroom.Proofs.Shard.Coupling

/-! What an insertion evicts. Stamps grow with use, so the entries in the order of their stamps are the
entries by use: the new entry comes last, and eviction drops entries from the front, as few of them as
will do. -/

namespace Stockroom.Shard
set_option autoImplicit false

/-! ### Sorted maps as lists -/

section Maps
variable {α β : Type} [Ord α] [Std.TransOrd α] [Std.LawfulEqOrd α]
  {m : Std.ExtTreeMap α β} {a : α} {b : β}

/-- A list is that of a map if it is sorted by keys and has the same members. -/
theorem toList_eq_of_sorted {l : List (α × β)} (hsorted : l.Pairwise fun r q => compare r.1 q.1 = .lt)
    (hmem : ∀ r, r ∈ m.toList ↔ r ∈ l) : m.toList = l := by
  have hnodup : l.Nodup := hsorted.imp fun hlt he => by
    subst he
    exact absurd (hlt.symm.trans Std.ReflCmp.compare_self) nofun
  have hperm := (List.perm_ext_iff_of_nodup (nodup_toList m) hnodup).mpr hmem
  apply List.Perm.eq_of_pairwise _ Std.ExtTreeMap.ordered_keys_toList hsorted hperm
  intro r q _ _ hlt hgt
  exact absurd (hgt.symm.trans (Std.OrientedCmp.gt_of_lt hlt)) nofun

theorem toList_erase [DecidableEq α] (m : Std.ExtTreeMap α β) (a : α) :
    (m.erase a).toList = m.toList.filter fun r => r.1 ≠ a := by
  apply toList_eq_of_sorted (Std.ExtTreeMap.ordered_keys_toList.filter _)
  intro r
  rw [List.mem_filter, Std.ExtTreeMap.mem_toList_iff_getElem?_eq_some,
    Std.ExtTreeMap.mem_toList_iff_getElem?_eq_some, Std.ExtTreeMap.getElem?_erase,
    decide_eq_true_iff]
  by_cases he : a = r.1
  · subst a
    rw [if_pos Std.ReflCmp.compare_self]
    simp
  · rw [if_neg (fun h => he (Std.LawfulEqCmp.eq_of_compare h))]
    exact ⟨fun h => ⟨h, fun h => he h.symm⟩, fun h => h.1⟩

/-- A key above all others goes to the end. -/
theorem toList_insert (hlast : ∀ k v, m[k]? = some v → compare k a = .lt) :
    (m.insert a b).toList = m.toList ++ [(a, b)] := by
  apply toList_eq_of_sorted
  · rw [List.pairwise_append]
    refine ⟨Std.ExtTreeMap.ordered_keys_toList, List.pairwise_singleton _ _, ?_⟩
    intro r hr q hq
    rw [List.mem_singleton.mp hq]
    exact hlast r.1 r.2 (Std.ExtTreeMap.mem_toList_iff_getElem?_eq_some.mp hr)
  · rintro ⟨k, v⟩
    rw [List.mem_append, List.mem_singleton, Std.ExtTreeMap.mem_toList_iff_getElem?_eq_some,
      Std.ExtTreeMap.mem_toList_iff_getElem?_eq_some, Std.ExtTreeMap.getElem?_insert]
    split
    · rename_i he
      obtain rfl := Std.LawfulEqCmp.eq_of_compare he
      have hnew : m[a]? ≠ some v := fun h =>
        absurd ((hlast a v h).symm.trans Std.ReflCmp.compare_self) nofun
      simp [hnew, eq_comm]
    · rename_i hne
      have hne' : k ≠ a := fun he => hne (he ▸ Std.ReflCmp.compare_self)
      simp [hne']

/-- The least key comes first. -/
theorem toList_eq_cons_erase (hmin : m.minKey? = some a) (h : m[a]? = some b) :
    m.toList = (a, b) :: (m.erase a).toList := by
  have hle := (Std.ExtTreeMap.minKey?_eq_some_iff_mem_and_forall.mp hmin).2
  apply toList_eq_of_sorted
  · rw [List.pairwise_cons]
    refine ⟨?_, Std.ExtTreeMap.ordered_keys_toList⟩
    intro r hr
    have hr := Std.ExtTreeMap.mem_toList_iff_getElem?_eq_some.mp hr
    have hmem : r.1 ∈ m := by
      rw [Std.ExtTreeMap.mem_iff_isSome_getElem?, getElem?_of_erase hr]
      rfl
    have hne : compare a r.1 ≠ .eq := fun he => by
      rw [← Std.LawfulEqCmp.eq_of_compare he, Std.ExtTreeMap.getElem?_erase_self] at hr
      cases hr
    have hle := hle r.1 hmem
    cases hc : compare a r.1 with
    | lt => rfl
    | eq => exact absurd hc hne
    | gt =>
      rw [hc] at hle
      cases hle
  · intro r
    exact (toList_perm_cons_erase h).mem_iff

end Maps

/-! ### Entries by use -/

variable {V : Type} {s : Shard V} {key : Key} {slot : Slot V} {e : Entry V}

namespace Coupled

theorem mem_byUse (h : s.Coupled) : (key, e) ∈ s.byUse ↔ s.peek? key = some e := by
  rw [byUse, List.mem_filterMap]
  constructor
  · rintro ⟨⟨stamp, k⟩, -, hr⟩
    obtain ⟨e', he', hr⟩ := Option.map_eq_some_iff.mp hr
    cases hr
    exact he'
  · intro he
    obtain ⟨slot, hslot, rfl⟩ := Option.map_eq_some_iff.mp he
    refine ⟨(slot.stamp, key), ?_, ?_⟩
    · rw [Std.ExtTreeMap.mem_toList_iff_getElem?_eq_some]
      exact h.order_of_slot hslot
    · rw [peek?_of_slot hslot]
      rfl

theorem byUse_drop (h : s.Coupled) (hslot : s.slots[key]? = some slot) (usedBytes : UInt64) :
    byUse { s with
      slots := s.slots.erase key
      order := s.order.erase slot.stamp
      usedBytes } = s.byUse.filter fun r => r.1 ≠ key := by
  unfold byUse
  rw [toList_erase, List.filterMap_filter, List.filter_filterMap]
  apply List.filterMap_congr
  intro r hr
  have hr := Std.ExtTreeMap.mem_toList_iff_getElem?_eq_some.mp hr
  obtain ⟨slot', hslot', hstamp⟩ := (h.order_iff _ _).mp hr
  by_cases hk : r.2 = key
  · rw [hk, hslot] at hslot'
    cases hslot'
    simp [hstamp, hk, peek?_of_slot hslot, Option.filter_some]
  · have hne : r.1 ≠ slot.stamp := fun he =>
      hk (h.key_eq_of_stamp_eq hslot' hslot (hstamp.trans he))
    have hpeek : ((s.slots.erase key)[r.2]?).map Slot.toEntry = some slot'.toEntry := by
      rw [Std.ExtTreeMap.getElem?_erase, if_neg, hslot']
      · rfl
      · exact fun he => hk (Std.LawfulEqCmp.eq_of_compare he).symm
    rw [peek?_of_slot hslot', peek?, hpeek, if_pos (decide_eq_true hne)]
    simp [hk, Option.filter_some]

theorem byUse_remove (h : s.Coupled) (key : Key) :
    (s.remove key).2.byUse = s.byUse.filter fun r => r.1 ≠ key := by
  unfold Shard.remove
  split
  · rename_i slot hslot
    exact h.byUse_drop hslot _
  · rename_i hnone
    symm
    rw [List.filter_eq_self]
    rintro ⟨k, e⟩ he
    rw [h.mem_byUse] at he
    rw [decide_eq_true_iff]
    rintro rfl
    rw [peek?, hnone] at he
    cases he

/-- A new entry is the most recently used one. -/
theorem byUse_add (h : s.Coupled) (hnew : s.slots[key]? = none) (e : Entry V) :
    (s.add key e).byUse = s.byUse ++ [(key, e)] := by
  have hlast : ∀ stamp k, s.order[stamp]? = some k → compare stamp s.nextStamp = .lt := by
    intro stamp k hk
    obtain ⟨slot, hslot, rfl⟩ := (h.order_iff _ _).mp hk
    exact Std.compare_eq_lt.mpr (h.fresh k slot hslot)
  unfold byUse Shard.add
  dsimp only
  rw [toList_insert hlast, List.filterMap_append]
  congr 1
  · apply List.filterMap_congr
    intro r hr
    have hr := Std.ExtTreeMap.mem_toList_iff_getElem?_eq_some.mp hr
    obtain ⟨slot, hslot, -⟩ := (h.order_iff _ _).mp hr
    have hne : ¬ compare key r.2 = .eq := fun he => by
      rw [← Std.LawfulEqCmp.eq_of_compare he, hnew] at hslot
      cases hslot
    simp only [peek?, Std.ExtTreeMap.getElem?_insert, if_neg hne]
  · simp [peek?]

/-- The oldest entry comes first, and removing it leaves the others as they are. -/
theorem byUse_of_oldest? (h : s.Coupled) (hold : s.oldest? = some (slot.stamp, key))
    (hslot : s.slots[key]? = some slot) :
    s.byUse = (key, slot.toEntry) :: (s.remove key).2.byUse := by
  obtain ⟨stamp, hmin, hmap⟩ := Option.bind_eq_some_iff.mp hold
  obtain ⟨k, hk, he⟩ := Option.map_eq_some_iff.mp hmap
  cases he
  have hnot : ∀ r ∈ (s.order.erase slot.stamp).toList, r.2 ≠ key := by
    intro r hr he
    have hr := Std.ExtTreeMap.mem_toList_iff_getElem?_eq_some.mp hr
    obtain ⟨slot', hslot', hstamp⟩ := (h.order_iff _ _).mp (getElem?_of_erase hr)
    rw [he, hslot] at hslot'
    cases hslot'
    rw [hstamp, Std.ExtTreeMap.getElem?_erase_self] at hr
    cases hr
  simp only [Shard.remove, hslot]
  unfold byUse
  rw [toList_eq_cons_erase hmin hk, List.filterMap_cons, peek?_of_slot hslot]
  dsimp only [Option.map_some]
  congr 1
  apply List.filterMap_congr
  intro r hr
  have hne : ¬ compare key r.2 = .eq := fun he =>
    hnot r hr (Std.LawfulEqCmp.eq_of_compare he).symm
  simp only [peek?, Std.ExtTreeMap.getElem?_erase, if_neg hne]

/-- The entries by use weigh what the entries weigh. -/
theorem weightOfAll_byUse (h : s.Coupled) : weightOfAll s.byUse = s.weight := by
  generalize hn : s.order.size = n
  induction n generalizing s with
  | zero =>
    have horder := Std.ExtTreeMap.eq_empty_iff_size_eq_zero.mpr hn
    rw [byUse, weight, horder, h.slots_eq_empty horder]
    rfl
  | succ n ih =>
    cases hold : s.oldest? with
    | none =>
      rw [Std.ExtTreeMap.eq_empty_iff_size_eq_zero.mp (oldest?_eq_none hold)] at hn
      cases hn
    | some r =>
      obtain ⟨stamp, key⟩ := r
      obtain ⟨slot, hslot, rfl⟩ := h.slot_of_oldest? hold
      have hsize := h.size_order_remove hslot
      have hrest := ih (h.remove key) (by omega)
      rw [weight_remove] at hrest
      rw [h.byUse_of_oldest? hold hslot, weight, weightOf_eq_add_erase hslot]
      exact congrArg (slot.weight.toNat + ·) hrest

/-! ### Eviction -/

theorem overBudget_iff (h : s.Coupled) (hexact : s.Exact) :
    s.overBudget = true ↔ 0 < s.capacity ∧ s.capacity.toNat < weightOfAll s.byUse := by
  rw [h.weightOfAll_byUse, ← hexact, overBudget, Bool.and_eq_true, decide_eq_true_eq,
    decide_eq_true_eq]
  exact Iff.rfl

/-- Eviction drops as many entries from the front as it counts. -/
theorem byUse_evict (h : s.Coupled) (hexact : s.Exact) (fuel : Nat) :
    (s.evict fuel).2.byUse = s.byUse.drop (s.evict fuel).1 := by
  induction fuel generalizing s with
  | zero => rfl
  | succ fuel ih =>
    rcases h.evict_cases hexact fuel with ⟨-, he⟩ | ⟨key, slot, -, hold, hslot, he⟩
    · rw [he]
      rfl
    · rw [he, ih (h.remove key) (hexact.remove key), h.byUse_of_oldest? hold hslot,
        List.drop_succ_cons]

/-- Eviction ends within the budget. -/
theorem overBudget_evict (h : s.Coupled) (hexact : s.Exact) {fuel : Nat}
    (hfuel : s.order.size ≤ fuel) : (s.evict fuel).2.overBudget = false := by
  induction fuel generalizing s with
  | zero =>
    have horder := Std.ExtTreeMap.eq_empty_iff_size_eq_zero.mpr (Nat.le_zero.mp hfuel)
    exact h.overBudget_eq_false hexact horder
  | succ fuel ih =>
    rcases h.evict_cases hexact fuel with ⟨hover, he⟩ | ⟨key, slot, -, -, hslot, he⟩
    · rw [he]
      exact hover
    · have hsize := h.size_order_remove hslot
      rw [he]
      exact ih (h.remove key) (hexact.remove key) (by omega)

/-- What is left before each of the drops is still too much. -/
theorem lt_weightOfAll_of_lt_evict (h : s.Coupled) (hexact : s.Exact) {fuel n : Nat}
    (hn : n < (s.evict fuel).1) :
    0 < s.capacity ∧ s.capacity.toNat < weightOfAll (s.byUse.drop n) := by
  induction fuel generalizing s n with
  | zero => exact absurd hn (Nat.not_lt_zero n)
  | succ fuel ih =>
    rcases h.evict_cases hexact fuel with ⟨-, he⟩ | ⟨key, slot, hover, hold, hslot, he⟩
    · rw [he] at hn
      exact absurd hn (Nat.not_lt_zero n)
    · rw [he] at hn
      cases n with
      | zero => exact (h.overBudget_iff hexact).mp hover
      | succ n =>
        have hrest := ih (h.remove key) (hexact.remove key) (Nat.lt_of_succ_lt_succ hn)
        rw [capacity_remove] at hrest
        rwa [h.byUse_of_oldest? hold hslot, List.drop_succ_cons]

theorem byUse_add_remove (h : s.Coupled) (key : Key) (e : Entry V) :
    ((s.remove key).2.add key e).byUse = s.candidates key e := by
  rw [(h.remove key).byUse_add (getElem?_slots_remove s key), h.byUse_remove, candidates]

theorem evictsShortest (h : s.Coupled) (hexact : s.Exact) (hfits : s.Fits key e)
    (hroom : s.nextStamp.toNat + 1 < UInt64.size) :
    s.EvictsShortest key e (s.place key e).1 := by
  have hadded := h.add_remove key e hroom
  have hexact' := hexact.add_remove hfits
  have hcapacity : ((s.remove key).2.add key e).capacity = s.capacity := capacity_remove s key
  constructor
  · rw [insert_of_fits hfits]
  · rw [insert_of_fits hfits, ← h.byUse_add_remove]
    exact hadded.byUse_evict hexact' _
  · intro hpos
    have hover := hadded.overBudget_evict hexact' (Nat.le_refl _)
    have hle := usedBytes_le_of_overBudget hover (by rwa [capacity_evict, hcapacity])
    rw [capacity_evict, hcapacity, UInt64.le_iff_toNat_le, hexact'.evict,
      ← (hadded.evict _).weightOfAll_byUse, hadded.byUse_evict hexact', h.byUse_add_remove] at hle
    exact hle
  · intro n hn
    have hlt := hadded.lt_weightOfAll_of_lt_evict hexact' hn
    rwa [hcapacity, h.byUse_add_remove] at hlt

end Coupled

/-! ### Every partition that is reached -/

/-- As long as weights and stamps fit into words, entries and stamps are coupled, and an insertion
evicts the least recently used entries, as few as bring it within the budget. -/
theorem run_new_coupled (capacity : UInt64) (requests : List (Instant × Request V))
    (hweights : (new capacity : Shard V).WeightsFit requests)
    (hstamps : (new capacity : Shard V).StampsFit requests) :
    let s := ((new capacity : Shard V).run requests).2
    s.Coupled ∧
    (∀ (key key' : Key) (slot slot' : Slot V), s.slots[key]? = some slot →
      s.slots[key']? = some slot' → slot.stamp = slot'.stamp → key = key') ∧
    s.usedBytes.toNat = s.weight ∧
    Strict.run (new capacity) requests = some ((new capacity : Shard V).run requests) ∧
    ∀ (key : Key) (e : Entry V), s.weightBeside key + e.weight.toNat < UInt64.size →
      s.nextStamp.toNat + 1 < UInt64.size → ∃ i, s.EvictsShortest key e i := by
  intro s
  have hcoupled : s.Coupled := (Coupled.new capacity).run requests hstamps
  have hexact : s.Exact := (Exact.new capacity).run requests
  refine ⟨hcoupled, ?_, hexact, ?_, ?_⟩
  · intro key key' slot slot' hslot hslot' hstamp
    exact hcoupled.key_eq_of_stamp_eq hslot hslot' hstamp
  · exact Strict.run_eq (Coupled.new capacity) (Exact.new capacity) requests hweights hstamps
  · intro key e hfits hroom
    exact ⟨_, hcoupled.evictsShortest hexact (hexact.fits_iff.mpr hfits) hroom⟩

/-- Two writes and a hit, after which the second write is the older one. -/
def Request.warming : List (Instant × Request Nat) :=
  [(⟨0⟩, .insert ⟨1, "a"⟩ (some 10) ⟨0⟩ 1), (⟨0⟩, .insert ⟨1, "b"⟩ (some 20) ⟨0⟩ 2),
    (⟨5⟩, .get ⟨1, "a"⟩)]

theorem run_new_coupled_warming :
    (new 4 : Shard Nat).WeightsFit Request.warming ∧ (new 4 : Shard Nat).StampsFit Request.warming ∧
      let s := ((new 4 : Shard Nat).run Request.warming).2
      let c : Entry Nat := ⟨some 30, ⟨0⟩, ⟨5⟩, 2⟩
      (∃ replaced, (s.insert ⟨1, "c"⟩ c).1 = .ok ⟨replaced, 1⟩) ∧
        (s.insert ⟨1, "c"⟩ c).2.byUse = (s.candidates ⟨1, "c"⟩ c).drop 1 := by
  have hweights : (new 4 : Shard Nat).WeightsFit Request.warming := by decide +kernel
  have hstamps : (new 4 : Shard Nat).StampsFit Request.warming := by decide +kernel
  refine ⟨hweights, hstamps, ?_⟩
  intro s c
  obtain ⟨-, -, -, -, hevicts⟩ := run_new_coupled 4 Request.warming hweights hstamps
  obtain ⟨i, hevicts⟩ := hevicts ⟨1, "c"⟩ c (by decide +kernel) (by decide +kernel)
  have hone : i.evicted = 1 := by
    apply Nat.le_antisymm
    · apply Nat.not_lt.mp
      intro hlt
      exact absurd (hevicts.shortest 1 hlt).2 (by decide +kernel)
    · apply Nat.pos_of_ne_zero
      intro h0
      have hwithin := hevicts.within (by decide +kernel)
      rw [h0] at hwithin
      exact absurd hwithin (by decide +kernel)
  rw [← hone]
  exact ⟨⟨i.replaced, hevicts.inserts⟩, hevicts.kept⟩

end Stockroom.Shard
