import Stockroom.Proofs.Shard.Represents

/-! The number and the weight of the entries of a partition. The used bytes are kept by adding and
subtracting words; they stay exact, and within the budget, whatever is written, and also after so many
stamps that the counter has wrapped and one key's stamp may stand for another's. -/

namespace Stockroom.Shard
set_option autoImplicit false

section Maps
variable {α β : Type} [Ord α] [Std.TransOrd α] [Std.LawfulEqOrd α]
  {m : Std.ExtTreeMap α β} {a a' : α} {b : β}

theorem nodup_toList (m : Std.ExtTreeMap α β) : m.toList.Nodup :=
  Std.ExtTreeMap.distinct_keys_toList.imp fun h he => by
    rw [he] at h
    exact h Std.ReflCmp.compare_self

theorem erase_eq_self (h : m[a]? = none) : m.erase a = m := by
  apply Std.ExtTreeMap.ext_getElem?
  intro k
  rw [Std.ExtTreeMap.getElem?_erase]
  split
  · rename_i he
    rw [← Std.LawfulEqCmp.eq_of_compare he, h]
  · rfl

theorem erase_insert (m : Std.ExtTreeMap α β) (a : α) (b : β) :
    (m.insert a b).erase a = m.erase a := by
  apply Std.ExtTreeMap.ext_getElem?
  intro k
  simp only [Std.ExtTreeMap.getElem?_erase, Std.ExtTreeMap.getElem?_insert]
  split <;> rfl

theorem erase_comm (m : Std.ExtTreeMap α β) (a a' : α) :
    (m.erase a).erase a' = (m.erase a').erase a := by
  apply Std.ExtTreeMap.ext_getElem?
  intro k
  simp only [Std.ExtTreeMap.getElem?_erase]
  split <;> split <;> rfl

omit [Std.LawfulEqOrd α] in
theorem getElem?_of_erase (h : (m.erase a)[a']? = some b) : m[a']? = some b := by
  rw [Std.ExtTreeMap.getElem?_erase] at h
  split at h
  · cases h
  · exact h

theorem toList_perm_cons_erase (h : m[a]? = some b) :
    m.toList.Perm ((a, b) :: (m.erase a).toList) := by
  have hnot : (a, b) ∉ (m.erase a).toList := by
    rw [Std.ExtTreeMap.mem_toList_iff_getElem?_eq_some, Std.ExtTreeMap.getElem?_erase_self]
    exact nofun
  rw [List.perm_ext_iff_of_nodup (nodup_toList m) (List.nodup_cons.mpr ⟨hnot, nodup_toList _⟩)]
  rintro ⟨k, v⟩
  rw [List.mem_cons, Std.ExtTreeMap.mem_toList_iff_getElem?_eq_some,
    Std.ExtTreeMap.mem_toList_iff_getElem?_eq_some, Std.ExtTreeMap.getElem?_erase]
  split
  · rename_i he
    obtain rfl := Std.LawfulEqCmp.eq_of_compare he
    rw [h]
    simp [eq_comm]
  · rename_i hne
    have hne' : k ≠ a := fun he => hne (he ▸ Std.ReflCmp.compare_self)
    simp [hne']

end Maps

variable {V : Type} {s : Shard V} {key key' : Key} {slot : Slot V}

theorem peek?_of_slot (h : s.slots[key]? = some slot) : s.peek? key = some slot.toEntry := by
  rw [peek?, h]
  rfl

theorem peek?_of_none (h : s.slots[key]? = none) : s.peek? key = none := by
  rw [peek?, h]
  rfl

theorem remove_fst (s : Shard V) (key : Key) : (s.remove key).1 = (s.peek? key).isSome := by
  unfold remove
  split
  · rename_i slot hslot
    rw [peek?_of_slot hslot]
    rfl
  · rename_i hnone
    rw [peek?_of_none hnone]
    rfl

theorem slots_remove (s : Shard V) (key : Key) : (s.remove key).2.slots = s.slots.erase key := by
  unfold remove
  split
  · rfl
  · rename_i h
    exact (erase_eq_self h).symm

theorem peek?_remove (s : Shard V) (key key' : Key) :
    (s.remove key).2.peek? key' = if key = key' then none else s.peek? key' := by
  rw [peek?, slots_remove, Std.ExtTreeMap.getElem?_erase]
  simp only [Std.LawfulEqCmp.compare_eq_iff_eq]
  split <;> rfl

theorem peek?_forfeit (s : Shard V) (key key' : Key) :
    (s.forfeit key).peek? key' = if key = key' then none else s.peek? key' :=
  peek?_remove s key key'

theorem getElem?_slots_remove (s : Shard V) (key : Key) : (s.remove key).2.slots[key]? = none := by
  rw [slots_remove]
  exact Std.ExtTreeMap.getElem?_erase_self

/-! ### Sizes -/

theorem size_slots_pos {s : Shard V} {key : Key} {slot : Slot V}
    (h : s.slots[key]? = some slot) : 0 < s.slots.size := by
  rw [Nat.pos_iff_ne_zero]
  intro h0
  rw [Std.ExtTreeMap.eq_empty_iff_size_eq_zero.mpr h0] at h
  simp at h

theorem size_slots_erase {s : Shard V} {key : Key} {slot : Slot V}
    (h : s.slots[key]? = some slot) : (s.slots.erase key).size + 1 = s.slots.size := by
  have := size_slots_pos h
  rw [size_erase_of_getElem? h]
  omega

theorem size_remove (s : Shard V) (key : Key) :
    (s.remove key).2.size + (if (s.remove key).1 then 1 else 0) = s.size := by
  unfold remove
  split
  · rename_i slot h
    exact size_slots_erase h
  · rfl

theorem size_get (s : Shard V) (key : Key) (now : Instant) :
    (s.get key now).2.size + (match (s.get key now).1 with | .expired => 1 | _ => 0) = s.size := by
  unfold get
  split
  · rename_i slot h
    split
    · have hsize := size_remove s key
      unfold remove at hsize ⊢
      rw [h] at hsize ⊢
      exact hsize
    · change (s.slots.insert key _).size + 0 = s.slots.size
      rw [Std.ExtTreeMap.size_insert, if_pos, Nat.add_zero]
      rw [Std.ExtTreeMap.contains_eq_isSome_getElem?, h]
      rfl
  · rfl

theorem size_evict (fuel : Nat) (s : Shard V) :
    (s.evict fuel).2.size + (s.evict fuel).1 = s.size := by
  induction fuel generalizing s with
  | zero => rfl
  | succ fuel ih =>
    unfold evict
    split
    · split
      · rfl
      · split
        · rename_i slot h
          rw [← Nat.add_assoc, ih]
          exact size_slots_erase h
        · exact ih _
    · rfl

theorem size_place (s : Shard V) (key : Key) (e : Entry V) :
    (s.place key e).2.size + (s.place key e).1.evicted +
      (if (s.place key e).1.replaced then 1 else 0) = s.size + 1 := by
  have hremoved := size_remove s key
  have hadded : ((s.remove key).2.add key e).size = (s.remove key).2.size + 1 :=
    size_insert_of_getElem? (getElem?_slots_remove s key)
  unfold place
  dsimp only
  rw [size_evict]
  omega

theorem size_forfeit (s : Shard V) (key : Key) :
    (s.forfeit key).size + (if (s.remove key).1 then 1 else 0) = s.size := size_remove s key

/-! ### Exact weights -/

def weightOf (slots : Std.ExtTreeMap Key (Slot V)) : Nat :=
  slots.toList.foldr (fun r total => r.2.weight.toNat + total) 0

/-- The weight of all entries, however large. -/
def weight (s : Shard V) : Nat := weightOf s.slots

/-- The weight of all entries but that of a key. -/
def weightBeside (s : Shard V) (key : Key) : Nat := weightOf (s.slots.erase key)

theorem weightOf_eq_add_erase {slots : Std.ExtTreeMap Key (Slot V)} (h : slots[key]? = some slot) :
    weightOf slots = slot.weight.toNat + weightOf (slots.erase key) := by
  unfold weightOf
  rw [(toList_perm_cons_erase h).foldr_eq', List.foldr_cons]
  intro a _ b _ n
  omega

theorem weightOf_insert (slots : Std.ExtTreeMap Key (Slot V)) (key : Key) (slot : Slot V) :
    weightOf (slots.insert key slot) = slot.weight.toNat + weightOf (slots.erase key) := by
  rw [weightOf_eq_add_erase Std.ExtTreeMap.getElem?_insert_self, erase_insert]

theorem weightOf_erase_le (slots : Std.ExtTreeMap Key (Slot V)) (key : Key) :
    weightOf (slots.erase key) ≤ weightOf slots := by
  cases h : slots[key]? with
  | none => exact (erase_eq_self h).symm ▸ Nat.le_refl _
  | some slot => exact weightOf_eq_add_erase h ▸ Nat.le_add_left _ _

theorem weight_remove (s : Shard V) (key : Key) : (s.remove key).2.weight = s.weightBeside key :=
  congrArg weightOf (slots_remove s key)

theorem weight_touch (h : s.slots[key]? = some slot) : (s.touch key slot).weight = s.weight :=
  (weightOf_insert _ _ _).trans (weightOf_eq_add_erase h).symm

theorem weight_add (s : Shard V) (key : Key) (e : Entry V) :
    (s.add key e).weight = e.weight.toNat + s.weightBeside key := weightOf_insert _ _ _

theorem weightBeside_of_none (h : s.slots[key]? = none) : s.weightBeside key = s.weight :=
  congrArg weightOf (erase_eq_self h)

theorem weightBeside_remove (s : Shard V) (key : Key) :
    (s.remove key).2.weightBeside key = s.weightBeside key := by
  rw [weightBeside_of_none (getElem?_slots_remove s key), weight_remove]

theorem weightBeside_get (s : Shard V) (key : Key) (now : Instant) :
    (s.get key now).2.weightBeside key = s.weightBeside key := by
  unfold get
  split
  · split
    · exact weightBeside_remove s key
    · exact congrArg weightOf (erase_insert _ _ _)
  · rfl

theorem getElem?_slots_evict (fuel : Nat) (h : (s.evict fuel).2.slots[key]? = some slot) :
    s.slots[key]? = some slot := by
  revert h
  apply evict_induction (p := fun t => t.slots[key]? = some slot → s.slots[key]? = some slot)
  · intro t stamp key' slot' hold hslot h hkey
    exact h (getElem?_of_erase hkey)
  · intro t stamp key' hold hnone h
    exact h
  · exact id

/-- Where nothing is evicted, all entries stay. -/
theorem slots_evict_of_eq_zero {fuel : Nat} (h : (s.evict fuel).1 = 0) :
    (s.evict fuel).2.slots = s.slots := by
  induction fuel generalizing s with
  | zero => rfl
  | succ fuel ih =>
    unfold evict at h ⊢
    split
    · rename_i hover
      rw [if_pos hover] at h
      split
      · rfl
      · rename_i stamp key hold
        rw [hold] at h
        dsimp only at h
        split
        · rename_i slot hslot
          rw [hslot] at h
          cases h
        · rename_i hnone
          rw [hnone] at h
          exact ih h
    · rfl

/-- What is there after an entry was placed, under its key, is that entry. -/
theorem eq_of_peek?_place {e e' : Entry V} (h : (s.place key e).2.peek? key = some e') : e' = e := by
  obtain ⟨slot, hslot, rfl⟩ := Option.map_eq_some_iff.mp h
  have hslot := getElem?_slots_evict _ hslot
  rw [add, Std.ExtTreeMap.getElem?_insert_self] at hslot
  cases hslot
  rfl

/-- The entry that was placed is there, or it was evicted. -/
theorem peek?_place_self (s : Shard V) (key : Key) (e : Entry V) :
    (s.place key e).2.peek? key = some e ∨
      (s.place key e).2.peek? key = none ∧ 0 < (s.place key e).1.evicted := by
  cases hpeek : (s.place key e).2.peek? key with
  | some e' => exact .inl (congrArg some (eq_of_peek?_place hpeek))
  | none =>
    refine .inr ⟨rfl, Nat.pos_of_ne_zero fun hzero => ?_⟩
    have hslots : (s.place key e).2.slots = ((s.remove key).2.add key e).slots :=
      slots_evict_of_eq_zero hzero
    rw [peek?, hslots, add, Std.ExtTreeMap.getElem?_insert_self] at hpeek
    cases hpeek

theorem weight_evict_le (fuel : Nat) (s : Shard V) : (s.evict fuel).2.weight ≤ s.weight := by
  apply evict_induction (p := fun t => t.weight ≤ s.weight)
  · intro t stamp key slot hold hslot h
    exact Nat.le_trans (weightOf_erase_le _ _) h
  · intro t stamp key hold hnone h
    exact h
  · exact Nat.le_refl _

theorem weight_remove_le (s : Shard V) (key : Key) : (s.remove key).2.weight ≤ s.weight := by
  rw [weight_remove]
  exact weightOf_erase_le _ _

theorem weight_get_le (s : Shard V) (key : Key) (now : Instant) :
    (s.get key now).2.weight ≤ s.weight := by
  unfold get
  split
  · rename_i slot hslot
    split
    · exact weight_remove_le s key
    · exact Nat.le_of_eq (weight_touch hslot)
  · exact Nat.le_refl _

theorem weight_place_le (s : Shard V) (key : Key) (e : Entry V) :
    (s.place key e).2.weight ≤ s.weight + e.weight.toNat := by
  have hadded : ((s.remove key).2.add key e).weight = e.weight.toNat + (s.remove key).2.weight := by
    rw [weight_add, weightBeside_of_none (getElem?_slots_remove s key)]
  have hremoved := weight_remove_le s key
  have hevicted := weight_evict_le ((s.remove key).2.add key e).order.size
    ((s.remove key).2.add key e)
  unfold place
  dsimp only
  omega

/-! ### Used bytes -/

/-- The used bytes are what the entries weigh. -/
def Exact (s : Shard V) : Prop := s.usedBytes.toNat = s.weight

namespace Exact

protected theorem new (capacity : UInt64) : (Shard.new capacity : Shard V).Exact := rfl

/-- Taking an entry's weight off the used bytes does not go below zero. -/
theorem weight_le (h : s.Exact) (hslot : s.slots[key]? = some slot) :
    slot.weight ≤ s.usedBytes := by
  have hsum : s.usedBytes.toNat = slot.weight.toNat + weightOf (s.slots.erase key) :=
    h.trans (weightOf_eq_add_erase hslot)
  rw [UInt64.le_iff_toNat_le]
  omega

theorem drop (h : s.Exact) (hslot : s.slots[key]? = some slot)
    (order : Std.ExtTreeMap UInt64 Key) :
    Exact { s with
      slots := s.slots.erase key
      order
      usedBytes := s.usedBytes - slot.weight } := by
  have hsum : s.usedBytes.toNat = slot.weight.toNat + weightOf (s.slots.erase key) :=
    h.trans (weightOf_eq_add_erase hslot)
  change (s.usedBytes - slot.weight).toNat = weightOf (s.slots.erase key)
  rw [UInt64.toNat_sub_of_le _ _ (h.weight_le hslot)]
  omega

theorem remove (h : s.Exact) (key : Key) : (s.remove key).2.Exact := by
  unfold Shard.remove
  split
  · rename_i slot hslot
    exact h.drop hslot _
  · exact h

theorem get (h : s.Exact) (key : Key) (now : Instant) : (s.get key now).2.Exact := by
  unfold Shard.get
  split
  · rename_i slot hslot
    split
    · exact h.remove key
    · exact h.trans (weight_touch hslot).symm
  · exact h

/-- An entry fits if it and all other entries weigh what a word can count. -/
theorem fits_iff (h : s.Exact) {e : Entry V} :
    s.Fits key e ↔ s.weightBeside key + e.weight.toNat < UInt64.size := by
  unfold Fits HasRoom
  rw [h.remove key, weight_remove]

theorem add_remove (h : s.Exact) {e : Entry V} (hfits : s.Fits key e) :
    ((s.remove key).2.add key e).Exact := by
  change ((s.remove key).2.usedBytes + e.weight).toNat = _
  rw [UInt64.toNat_add, Nat.mod_eq_of_lt hfits, h.remove key, weight_add,
    weightBeside_of_none (getElem?_slots_remove s key), Nat.add_comm]

theorem evict (h : s.Exact) (fuel : Nat) : (s.evict fuel).2.Exact := by
  apply evict_induction (p := Exact)
  · intro t stamp key slot hold hslot h
    exact h.drop hslot _
  · intro t stamp key hold hnone h
    exact h
  · exact h

theorem insert (h : s.Exact) (key : Key) (e : Entry V) : (s.insert key e).2.Exact := by
  apply insert_induction (p := Exact)
  · intro hfits
    exact (h.add_remove hfits).evict _
  · intro hfits
    exact h.remove key

end Exact

/-! ### Eviction -/

theorem oldest?_eq_none (h : s.oldest? = none) : s.order = ∅ := by
  unfold oldest? at h
  cases hmin : s.order.minKey? with
  | none => exact Std.ExtTreeMap.minKey?_eq_none_iff.mp hmin
  | some stamp =>
    have hmem := (Std.ExtTreeMap.minKey?_eq_some_iff_mem_and_forall.mp hmin).1
    rw [hmin, Option.bind_some, Option.map_eq_none_iff] at h
    rw [Std.ExtTreeMap.mem_iff_isSome_getElem?, h] at hmem
    cases hmem

theorem getElem?_of_oldest? {stamp : UInt64} (h : s.oldest? = some (stamp, key)) :
    s.order[stamp]? = some key := by
  unfold oldest? at h
  obtain ⟨stamp', -, h⟩ := Option.bind_eq_some_iff.mp h
  obtain ⟨key', hkey, he⟩ := Option.map_eq_some_iff.mp h
  cases he
  exact hkey

/-- Eviction comes down to the budget, or else to every key that has a stamp. -/
theorem evict_within {stamp : UInt64} {fuel : Nat} (hfuel : s.order.size ≤ fuel)
    (hkey : s.order[stamp]? = some key) :
    (s.evict fuel).2.overBudget = false ∨ (s.evict fuel).2.weight ≤ s.weightBeside key := by
  induction fuel generalizing s with
  | zero =>
    rw [Std.ExtTreeMap.eq_empty_iff_size_eq_zero.mpr (Nat.le_zero.mp hfuel)] at hkey
    simp at hkey
  | succ fuel ih =>
    unfold evict
    split
    · split
      · rename_i hnone
        rw [oldest?_eq_none hnone] at hkey
        simp at hkey
      · rename_i stamp' key' hold
        have hold := getElem?_of_oldest? hold
        have hsize : (s.order.erase stamp').size ≤ fuel := by
          rw [size_erase_of_getElem? hold]
          omega
        by_cases hk : key' = key
        · subst hk
          refine Or.inr ?_
          split
          · exact weight_evict_le fuel _
          · rename_i hnone
            unfold weightBeside
            rw [erase_eq_self hnone]
            exact weight_evict_le fuel _
        · have hkey' : (s.order.erase stamp')[stamp]? = some key := by
            rw [Std.ExtTreeMap.getElem?_erase, if_neg, hkey]
            intro he
            rw [Std.LawfulEqCmp.eq_of_compare he, hkey] at hold
            exact hk (Option.some.inj hold).symm
          split
          · refine (ih hsize hkey').imp_right fun hle => Nat.le_trans hle ?_
            change weightOf ((s.slots.erase key').erase key) ≤ weightOf (s.slots.erase key)
            rw [erase_comm]
            exact weightOf_erase_le _ _
          · exact ih hsize hkey'
    · rename_i hover
      exact Or.inl (by simpa using hover)

/-! ### Budgets -/

theorem usedBytes_le_of_overBudget (h : s.overBudget = false) (hpos : 0 < s.capacity) :
    s.usedBytes ≤ s.capacity := by
  unfold overBudget at h
  rw [decide_eq_true hpos, Bool.true_and, decide_eq_false_iff_not] at h
  exact UInt64.not_lt.mp h

/-- A partition under a budget whose keys all pass a test. -/
structure Keeps (s : Shard V) (budget : UInt64) (p : Key → Prop) : Prop where
  capacity_eq : s.capacity = budget
  used_eq : s.Exact
  weight_le : s.weight ≤ budget.toNat
  keys : ∀ key slot, s.slots[key]? = some slot → p key

namespace Keeps

variable {budget : UInt64} {p : Key → Prop}

protected theorem new (budget : UInt64) (p : Key → Prop) :
    (Shard.new budget : Shard V).Keeps budget p where
  capacity_eq := rfl
  used_eq := rfl
  weight_le := Nat.zero_le _
  keys := by simp [Shard.new]

theorem remove (h : s.Keeps budget p) (key : Key) : (s.remove key).2.Keeps budget p where
  capacity_eq := (capacity_remove s key).trans h.capacity_eq
  used_eq := h.used_eq.remove key
  weight_le := by
    rw [weight_remove]
    exact Nat.le_trans (weightOf_erase_le _ _) h.weight_le
  keys k slot hk := by
    rw [slots_remove] at hk
    exact h.keys k slot (getElem?_of_erase hk)

theorem get (h : s.Keeps budget p) (key : Key) (now : Instant) :
    (s.get key now).2.Keeps budget p := by
  unfold Shard.get
  split
  · rename_i slot hslot
    split
    · exact h.remove key
    · constructor
      · exact h.capacity_eq
      · exact h.used_eq.trans (weight_touch hslot).symm
      · exact (weight_touch hslot).symm ▸ h.weight_le
      · intro k slot' hk
        simp only [touch, Std.ExtTreeMap.getElem?_insert] at hk
        split at hk
        · rename_i he
          obtain rfl := Std.LawfulEqCmp.eq_of_compare he
          exact h.keys _ slot hslot
        · exact h.keys k slot' hk
  · exact h

theorem place (h : s.Keeps budget p) (hpos : 0 < budget) {e : Entry V} (hp : p key)
    (hfits : s.Fits key e) : (s.place key e).2.Keeps budget p := by
  have hremoved := h.remove key
  have hcapacity := (capacity_place s key e).trans h.capacity_eq
  have hused : (s.place key e).2.Exact := (h.used_eq.add_remove hfits).evict _
  constructor
  · exact hcapacity
  · exact hused
  · have hstamp : ((s.remove key).2.add key e).order[(s.remove key).2.nextStamp]? = some key :=
      Std.ExtTreeMap.getElem?_insert_self
    rcases evict_within (Nat.le_refl _) hstamp with hover | hle
    · have hle : (s.place key e).2.usedBytes ≤ (s.place key e).2.capacity :=
        usedBytes_le_of_overBudget hover (by rw [hcapacity]; exact hpos)
      rw [hcapacity, UInt64.le_iff_toNat_le, hused] at hle
      exact hle
    · refine Nat.le_trans hle (Nat.le_trans ?_ hremoved.weight_le)
      change weightOf (((s.remove key).2.slots.insert key _).erase key) ≤ _
      rw [erase_insert]
      exact weightOf_erase_le _ _
  · intro k slot hk
    have hk := getElem?_slots_evict _ hk
    simp only [add, Std.ExtTreeMap.getElem?_insert] at hk
    split at hk
    · rename_i he
      exact Std.LawfulEqCmp.eq_of_compare he ▸ hp
    · exact hremoved.keys k slot hk

theorem forfeit (h : s.Keeps budget p) (key : Key) : (s.forfeit key).Keeps budget p where
  capacity_eq := (h.remove key).capacity_eq
  used_eq := (h.remove key).used_eq
  weight_le := (h.remove key).weight_le
  keys := (h.remove key).keys

theorem insert (h : s.Keeps budget p) (hpos : 0 < budget) (e : Entry V) (hp : p key) :
    (s.insert key e).2.Keeps budget p := by
  apply insert_induction (p := fun t => t.Keeps budget p)
  · intro hfits
    exact h.place hpos hp hfits
  · intro hfits
    exact h.forfeit key

theorem clear (h : s.Keeps budget p) : s.clear.2.Keeps budget p where
  capacity_eq := h.capacity_eq
  used_eq := rfl
  weight_le := Nat.zero_le _
  keys := by simp [Shard.clear]

end Keeps

end Stockroom.Shard
