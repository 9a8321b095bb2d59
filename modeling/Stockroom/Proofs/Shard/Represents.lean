import Stockroom.Proofs.Shard.Stamped

/-! What each operation of a partition does to the list that the partition stands for. -/

namespace Stockroom.Shard
set_option autoImplicit false

section Maps
variable {α β : Type} [Ord α] [Std.TransOrd α] {m : Std.ExtTreeMap α β} {a : α} {b : β}

theorem size_erase_of_getElem? (h : m[a]? = some b) : (m.erase a).size = m.size - 1 := by
  rw [Std.ExtTreeMap.size_erase, if_pos]
  rw [Std.ExtTreeMap.contains_eq_isSome_getElem?, h]
  rfl

theorem size_insert_of_getElem? (h : m[a]? = none) : (m.insert a b).size = m.size + 1 := by
  rw [Std.ExtTreeMap.size_insert, if_neg]
  rw [Std.ExtTreeMap.contains_eq_isSome_getElem?, h]
  exact Bool.false_ne_true

end Maps

theorem toNat_add_one {stamp : UInt64} (h : stamp.toNat + 1 < UInt64.size) :
    (stamp + 1).toNat = stamp.toNat + 1 := by
  rw [UInt64.toNat_add]
  exact Nat.mod_eq_of_lt h

variable {V : Type} {s : Shard V} {l : Stamped V}

namespace Represents

theorem eq_of_key_eq (h : s.Represents l) {r q : UInt64 × Written V}
    (hr : r ∈ l) (hq : q ∈ l) (hk : r.2.key = q.2.key) : r = q :=
  List.inj_on_of_nodup_map h.keys_nodup hr hq hk

theorem eq_of_stamp_eq (h : s.Represents l) {r q : UInt64 × Written V}
    (hr : r ∈ l) (hq : q ∈ l) (hs : r.1 = q.1) : r = q := by
  have hn : (l.map Prod.fst).Nodup := by
    rw [List.nodup_iff_pairwise_ne, List.pairwise_map]
    exact h.sorted.imp fun hlt he => by simp [he] at hlt
  exact List.inj_on_of_nodup_map hn hr hq hs

/-- A slot is found exactly where the list has a row for the key. -/
theorem slot_of_mem (h : s.Represents l) {r : UInt64 × Written V} (hr : r ∈ l) :
    s.slots[r.2.key]? = some ⟨r.2.entry, r.1⟩ :=
  (h.slot_iff _ _).mpr ⟨r.2, hr, rfl, rfl⟩

theorem find?_eq_none (h : s.Represents l) {key : Key} (hk : s.slots[key]? = none) :
    l.writes.find? key = none := by
  rw [Recency.find?, List.find?_eq_none]
  intro w hw
  obtain ⟨r, hr, rfl⟩ := List.mem_map.mp hw
  rw [decide_eq_true_iff]
  rintro rfl
  rw [h.slot_of_mem hr] at hk
  cases hk

theorem find?_eq_some (h : s.Represents l) {r : UInt64 × Written V} (hr : r ∈ l) :
    l.writes.find? r.2.key = some r.2 := by
  obtain ⟨before, after, rfl⟩ := List.append_of_mem hr
  have hn := h.keys_nodup
  rw [List.map_append, List.map_cons, List.nodup_append] at hn
  rw [Recency.find?, Stamped.writes_append, List.find?_append, Stamped.writes_cons,
    List.find?_cons_of_pos (by simp), List.find?_eq_none.mpr, Option.none_or]
  intro w hw
  obtain ⟨q, hq, rfl⟩ := List.mem_map.mp hw
  simpa using hn.2.2 q.2.key (List.mem_map_of_mem hq) r.2.key (by simp)

theorem mem_of_slot (h : s.Represents l) {key : Key} {slot : Slot V}
    (hk : s.slots[key]? = some slot) :
    ∃ w, (slot.stamp, w) ∈ l ∧ w.key = key ∧ w.entry = slot.toEntry := (h.slot_iff key slot).mp hk

theorem without_eq_self (h : s.Represents l) {key : Key} (hk : s.slots[key]? = none) :
    l.without key = l := by
  rw [Stamped.without, List.filter_eq_self]
  intro r hr
  rw [decide_eq_true_iff]
  rintro rfl
  rw [h.slot_of_mem hr] at hk
  cases hk

protected theorem new (capacity : UInt64) : (Shard.new capacity : Shard V).Represents [] where
  slot_iff := by simp [Shard.new]
  order_iff := by simp [Shard.new]
  sorted := .nil
  keys_nodup := .nil
  fresh := by simp
  weight_eq := rfl
  slots_size := rfl
  order_size := rfl

theorem slot_iff_without (h : s.Represents l) {r : UInt64 × Written V} (key : Key)
    (slot : Slot V) : (s.slots.erase r.2.key)[key]? = some slot ↔
      ∃ w, (slot.stamp, w) ∈ l.without r.2.key ∧ w.key = key ∧ w.entry = slot.toEntry := by
  rw [Std.ExtTreeMap.getElem?_erase]
  by_cases hk : r.2.key = key
  · subst key
    rw [if_pos (by simp)]
    simp only [reduceCtorEq, false_iff, not_exists, not_and]
    intro w hm he
    exact absurd he (Stamped.mem_without.mp hm).2
  · rw [if_neg (by simpa using hk), h.slot_iff]
    constructor
    · rintro ⟨w, hm, rfl, he⟩
      exact ⟨w, Stamped.mem_without.mpr ⟨hm, fun e => hk e.symm⟩, rfl, he⟩
    · rintro ⟨w, hm, rfl, he⟩
      exact ⟨w, (Stamped.mem_without.mp hm).1, rfl, he⟩

theorem order_iff_without (h : s.Represents l) {r : UInt64 × Written V} (hr : r ∈ l)
    (stamp : UInt64) (key : Key) : (s.order.erase r.1)[stamp]? = some key ↔
      ∃ w, (stamp, w) ∈ l.without r.2.key ∧ w.key = key := by
  rw [Std.ExtTreeMap.getElem?_erase]
  by_cases hs : r.1 = stamp
  · subst stamp
    rw [if_pos (by simp)]
    simp only [reduceCtorEq, false_iff, not_exists, not_and]
    intro w hm
    have hm := Stamped.mem_without.mp hm
    exact absurd (by rw [h.eq_of_stamp_eq hm.1 hr rfl]) hm.2
  · rw [if_neg (by simpa using hs), h.order_iff]
    constructor
    · rintro ⟨w, hm, rfl⟩
      refine ⟨w, Stamped.mem_without.mpr ⟨hm, fun e => hs ?_⟩, rfl⟩
      rw [← h.eq_of_key_eq hm hr e]
    · rintro ⟨w, hm, rfl⟩
      exact ⟨w, (Stamped.mem_without.mp hm).1, rfl⟩

theorem length_without (h : s.Represents l) {r : UInt64 × Written V} (hr : r ∈ l) :
    (l.without r.2.key).length + 1 = l.length := by
  obtain ⟨before, after, hl, hw⟩ := filter_ne_of_nodup (fun q => q.2.key) h.keys_nodup hr
  rw [Stamped.without, hw, hl, List.length_append, List.length_append, List.length_cons]
  omega

theorem weight_without (h : s.Represents l) {r : UInt64 × Written V} (hr : r ∈ l) :
    r.2.weight.toNat + (l.without r.2.key).writes.weight = l.writes.weight := by
  obtain ⟨before, after, hl, hw⟩ := filter_ne_of_nodup (fun q => q.2.key) h.keys_nodup hr
  rw [Stamped.without, hw, hl]
  simp only [Stamped.writes_append, Stamped.writes_cons, Recency.weight_append,
    Recency.weight_cons]
  omega

/-- Taking the row of a key out of both maps. -/
theorem remove_row (h : s.Represents l) {r : UInt64 × Written V} (hr : r ∈ l) :
    Represents { s with
      slots := s.slots.erase r.2.key
      order := s.order.erase r.1
      usedBytes := s.usedBytes - r.2.weight } (l.without r.2.key) := by
  have hlength := h.length_without hr
  have hweight := h.weight_without hr
  refine ⟨h.slot_iff_without, h.order_iff_without hr, h.sorted.sublist List.filter_sublist,
    h.keys_nodup.sublist (List.filter_sublist.map _), ?_, ?_, ?_, ?_⟩
  · intro q hq
    exact h.fresh q (Stamped.mem_without.mp hq).1
  · have hused := h.weight_eq
    have hle : r.2.weight ≤ s.usedBytes := by
      rw [UInt64.le_iff_toNat_le]
      omega
    rw [UInt64.toNat_sub_of_le _ _ hle]
    omega
  · have hsize := size_erase_of_getElem? (h.slot_of_mem hr)
    have := h.slots_size
    dsimp only
    omega
  · have hsize := size_erase_of_getElem? ((h.order_iff r.1 r.2.key).mpr ⟨r.2, hr, rfl⟩)
    have := h.order_size
    dsimp only
    omega

theorem remove (h : s.Represents l) (key : Key) :
    (s.remove key).1 = (l.writes.find? key).isSome ∧
      (s.remove key).2.Represents (l.without key) := by
  unfold Shard.remove
  cases hk : s.slots[key]? with
  | none => exact ⟨by rw [h.find?_eq_none hk]; rfl, by rwa [h.without_eq_self hk]⟩
  | some slot =>
    obtain ⟨w, hw, rfl, he⟩ := h.mem_of_slot hk
    have hweight : slot.weight = w.weight := congrArg Entry.weight he.symm
    refine ⟨by rw [h.find?_eq_some hw]; rfl, ?_⟩
    dsimp only
    rw [hweight]
    exact h.remove_row hw

theorem slot_iff_append (h : s.Represents l) {w : Written V}
    (hk : ∀ r ∈ l, r.2.key ≠ w.key) (t : UInt64) (key : Key) (slot : Slot V) :
    (s.slots.insert w.key ⟨w.entry, t⟩)[key]? = some slot ↔
      ∃ v, (slot.stamp, v) ∈ l ++ [(t, w)] ∧ v.key = key ∧ v.entry = slot.toEntry := by
  rw [Std.ExtTreeMap.getElem?_insert]
  simp only [List.mem_append, List.mem_singleton, Prod.mk.injEq]
  by_cases he : w.key = key
  · subst key
    rw [if_pos (by simp), Option.some.injEq]
    constructor
    · rintro rfl
      exact ⟨w, Or.inr ⟨rfl, rfl⟩, rfl, rfl⟩
    · rintro ⟨v, hv | ⟨hstamp, rfl⟩, hkey, hentry⟩
      · exact absurd hkey (hk _ hv)
      · cases slot
        simp_all
  · rw [if_neg (by simpa using he), h.slot_iff]
    constructor
    · rintro ⟨v, hv, hkey, hentry⟩
      exact ⟨v, Or.inl hv, hkey, hentry⟩
    · rintro ⟨v, hv | ⟨_, rfl⟩, hkey, hentry⟩
      · exact ⟨v, hv, hkey, hentry⟩
      · exact absurd hkey he

theorem order_iff_append (h : s.Represents l) {t : UInt64} (ht : ∀ r ∈ l, r.1 ≠ t)
    (w : Written V) (stamp : UInt64) (key : Key) :
    (s.order.insert t w.key)[stamp]? = some key ↔
      ∃ v, (stamp, v) ∈ l ++ [(t, w)] ∧ v.key = key := by
  rw [Std.ExtTreeMap.getElem?_insert]
  simp only [List.mem_append, List.mem_singleton, Prod.mk.injEq]
  by_cases he : t = stamp
  · subst stamp
    rw [if_pos (by simp), Option.some.injEq]
    constructor
    · rintro rfl
      exact ⟨w, Or.inr ⟨rfl, rfl⟩, rfl⟩
    · rintro ⟨v, hv | ⟨_, rfl⟩, hkey⟩
      · exact absurd rfl (ht _ hv)
      · exact hkey
  · rw [if_neg (by simpa using he), h.order_iff]
    constructor
    · rintro ⟨v, hv, hkey⟩
      exact ⟨v, Or.inl hv, hkey⟩
    · rintro ⟨v, hv | ⟨hstamp, rfl⟩, hkey⟩
      · exact ⟨v, hv, hkey⟩
      · exact absurd hstamp.symm he

theorem slot_eq_none (h : s.Represents l) {key : Key} (hk : ∀ r ∈ l, r.2.key ≠ key) :
    s.slots[key]? = none := by
  rw [Option.eq_none_iff_forall_ne_some]
  intro slot hslot
  obtain ⟨v, hv, hkey, _⟩ := h.mem_of_slot hslot
  exact hk _ hv hkey

theorem order_eq_none (h : s.Represents l) {t : UInt64} (ht : ∀ r ∈ l, r.1 ≠ t) :
    s.order[t]? = none := by
  rw [Option.eq_none_iff_forall_ne_some]
  intro key hkey
  obtain ⟨v, hv, _⟩ := (h.order_iff _ _).mp hkey
  exact ht _ hv rfl

/-- The stamp that is drawn next is above all others, as long as the counter does not wrap. -/
theorem add (h : s.Represents l) {w : Written V} (hk : ∀ r ∈ l, r.2.key ≠ w.key)
    (hw : l.writes.weight + w.weight.toNat < UInt64.size)
    (hs : s.nextStamp.toNat + 1 < UInt64.size) :
    (s.add w.key w.entry).Represents (l ++ [(s.nextStamp, w)]) := by
  have ht : ∀ r ∈ l, r.1 ≠ s.nextStamp := fun r hr e => by
    simpa [e] using h.fresh r hr
  refine ⟨h.slot_iff_append hk _, h.order_iff_append ht w, ?_, ?_, ?_, ?_, ?_, ?_⟩
  · rw [List.pairwise_append]
    refine ⟨h.sorted, List.pairwise_singleton _ _, ?_⟩
    intro r hr q hq
    rw [List.mem_singleton.mp hq]
    exact h.fresh r hr
  · rw [List.map_append, List.nodup_append]
    refine ⟨h.keys_nodup, by simp, ?_⟩
    intro key hkey key' hkey'
    obtain ⟨r, hr, rfl⟩ := List.mem_map.mp hkey
    rw [List.mem_singleton.mp hkey']
    exact hk r hr
  · intro r hr
    rw [Shard.add, UInt64.lt_iff_toNat_lt, toNat_add_one hs]
    rcases List.mem_append.mp hr with hr | hr
    · have := UInt64.lt_iff_toNat_lt.mp (h.fresh r hr)
      omega
    · rw [List.mem_singleton.mp hr]
      exact Nat.lt_succ_self _
  · have hused := h.weight_eq
    simp only [Shard.add, Written.entry]
    rw [UInt64.toNat_add, hused, Nat.mod_eq_of_lt hw]
    simp
  · simp only [Shard.add]
    rw [size_insert_of_getElem? (h.slot_eq_none hk), h.slots_size, List.length_append]
    rfl
  · simp only [Shard.add]
    rw [size_insert_of_getElem? (h.order_eq_none ht), h.order_size, List.length_append]
    rfl

end Represents

end Stockroom.Shard
