import Stockroom.Shard.Coupling
import Stockroom.Proofs.Shard.Accounting
import Stockroom.Proofs.Shard.Refinement

/-! The maps of a partition stay inverse to each other as long as the counter of stamps does not wrap,
and its used bytes stay exact as long as weights fit into a word. Then nothing is ever missing: the
strict operations do not give up, and they do what the operations do. -/

namespace Stockroom.Shard
set_option autoImplicit false

variable {V : Type} {s : Shard V} {key key' : Key} {slot slot' : Slot V}

/-! ### Words that are wide enough -/

/-- What is being written and what stays beside it weigh less than a word can count. -/
def FitsIn (s : Shard V) : Request V → Prop
  | .insert key _ _ weight => s.weightBeside key + weight.toNat < UInt64.size
  | _ => True

instance (s : Shard V) : (r : Request V) → Decidable (s.FitsIn r)
  | .insert .. => inferInstanceAs (Decidable (_ < _))
  | .get _ | .contains _ | .remove _ | .clear => inferInstanceAs (Decidable True)

theorem FitsIn.insert_lt {now : Instant} {value : Option V} {ttl : Duration} {weight : UInt64}
    {e : Entry V} (h : s.FitsIn (.insert key value ttl weight))
    (he : Entry.at? now value ttl weight = some e) :
    s.weightBeside key + e.weight.toNat < UInt64.size := by
  obtain ⟨deadline, -, rfl⟩ := Option.map_eq_some_iff.mp he
  exact h

/-- The weights never add up to more than a word can count. -/
def WeightsFit : Shard V → List (Instant × Request V) → Prop
  | _, [] => True
  | s, (now, request) :: rest => s.FitsIn request ∧ WeightsFit (s.handle now request).2 rest

instance decidableWeightsFit :
    (s : Shard V) → (requests : List (Instant × Request V)) → Decidable (s.WeightsFit requests)
  | _, [] => inferInstanceAs (Decidable True)
  | s, (now, request) :: rest =>
    have := decidableWeightsFit (s.handle now request).2 rest
    inferInstanceAs (Decidable (_ ∧ _))

/-- The counter of stamps never wraps. -/
def StampsFit : Shard V → List (Instant × Request V) → Prop
  | _, [] => True
  | s, (now, request) :: rest =>
    let r := s.handle now request
    s.nextStamp.toNat + r.1.stamps < UInt64.size ∧ StampsFit r.2 rest

instance decidableStampsFit :
    (s : Shard V) → (requests : List (Instant × Request V)) → Decidable (s.StampsFit requests)
  | _, [] => inferInstanceAs (Decidable True)
  | s, (now, request) :: rest =>
    have := decidableStampsFit (s.handle now request).2 rest
    inferInstanceAs (Decidable (_ ∧ _))

/-! ### Inverse maps -/

namespace Coupled

protected theorem new (capacity : UInt64) : (Shard.new capacity : Shard V).Coupled where
  order_iff := by simp [Shard.new]
  fresh := by simp [Shard.new]

theorem order_of_slot (h : s.Coupled) (hslot : s.slots[key]? = some slot) :
    s.order[slot.stamp]? = some key := (h.order_iff _ _).mpr ⟨slot, hslot, rfl⟩

/-- No two keys have the same stamp. -/
theorem key_eq_of_stamp_eq (h : s.Coupled) (hslot : s.slots[key]? = some slot)
    (hslot' : s.slots[key']? = some slot') (hstamp : slot.stamp = slot'.stamp) : key = key' := by
  have horder := h.order_of_slot hslot
  rw [hstamp, h.order_of_slot hslot'] at horder
  exact (Option.some.inj horder).symm

theorem drop (h : s.Coupled) (hslot : s.slots[key]? = some slot) (usedBytes : UInt64) :
    Coupled { s with
      slots := s.slots.erase key
      order := s.order.erase slot.stamp
      usedBytes } := by
  constructor
  · intro stamp k
    dsimp only
    rw [Std.ExtTreeMap.getElem?_erase]
    by_cases hs : slot.stamp = stamp
    · subst stamp
      rw [if_pos Std.ReflCmp.compare_self]
      simp only [reduceCtorEq, false_iff, not_exists, not_and]
      intro slot' hslot' hstamp
      obtain rfl := h.key_eq_of_stamp_eq hslot (getElem?_of_erase hslot') hstamp.symm
      rw [Std.ExtTreeMap.getElem?_erase_self] at hslot'
      cases hslot'
    · rw [if_neg (fun he => hs (Std.LawfulEqCmp.eq_of_compare he)), h.order_iff]
      constructor
      · rintro ⟨slot', hslot', rfl⟩
        refine ⟨slot', ?_, rfl⟩
        rw [Std.ExtTreeMap.getElem?_erase, if_neg, hslot']
        intro he
        obtain rfl := Std.LawfulEqCmp.eq_of_compare he
        rw [hslot] at hslot'
        exact hs (congrArg Slot.stamp (Option.some.inj hslot'))
      · rintro ⟨slot', hslot', rfl⟩
        exact ⟨slot', getElem?_of_erase hslot', rfl⟩
  · intro k slot' hslot'
    exact h.fresh k slot' (getElem?_of_erase hslot')

theorem remove (h : s.Coupled) (key : Key) : (s.remove key).2.Coupled := by
  unfold Shard.remove
  split
  · rename_i slot hslot
    exact h.drop hslot _
  · exact h

theorem add (h : s.Coupled) {e : Entry V} (hnew : s.slots[key]? = none)
    (hroom : s.nextStamp.toNat + 1 < UInt64.size) : (s.add key e).Coupled := by
  constructor
  · intro stamp k
    simp only [Shard.add, Std.ExtTreeMap.getElem?_insert]
    by_cases hs : s.nextStamp = stamp
    · subst stamp
      rw [if_pos Std.ReflCmp.compare_self]
      constructor
      · intro he
        obtain rfl := Option.some.inj he
        exact ⟨_, if_pos Std.ReflCmp.compare_self, rfl⟩
      · rintro ⟨slot, hslot, hstamp⟩
        split at hslot
        · rename_i he
          rw [Std.LawfulEqCmp.eq_of_compare he]
        · have hlt := h.fresh k slot hslot
          rw [hstamp] at hlt
          exact absurd hlt (UInt64.lt_irrefl _)
    · rw [if_neg (fun he => hs (Std.LawfulEqCmp.eq_of_compare he)), h.order_iff]
      constructor
      · rintro ⟨slot, hslot, rfl⟩
        refine ⟨slot, ?_, rfl⟩
        rw [if_neg, hslot]
        intro he
        rw [← Std.LawfulEqCmp.eq_of_compare he, hnew] at hslot
        cases hslot
      · rintro ⟨slot, hslot, hstamp⟩
        split at hslot
        · cases hslot
          exact absurd hstamp hs
        · exact ⟨slot, hslot, hstamp⟩
  · intro k slot hslot
    simp only [Shard.add, Std.ExtTreeMap.getElem?_insert] at hslot
    rw [Shard.add, UInt64.lt_iff_toNat_lt, toNat_add_one hroom]
    split at hslot
    · cases hslot
      exact Nat.lt_succ_self _
    · have := UInt64.lt_iff_toNat_lt.mp (h.fresh k slot hslot)
      omega

theorem touch (h : s.Coupled) (hslot : s.slots[key]? = some slot)
    (hroom : s.nextStamp.toNat + 1 < UInt64.size) : (s.touch key slot).Coupled := by
  rw [touch_eq_add_remove hslot (h.order_of_slot hslot)]
  apply (h.remove key).add (getElem?_slots_remove s key)
  rwa [nextStamp_remove]

theorem get (h : s.Coupled) (key : Key) (now : Instant)
    (hroom : s.nextStamp.toNat + (Answer.found (s.get key now).1).stamps < UInt64.size) :
    (s.get key now).2.Coupled := by
  unfold Shard.get at hroom ⊢
  split
  · rename_i slot hslot
    rw [hslot] at hroom
    split
    · exact h.remove key
    · rename_i hlive
      dsimp only at hroom
      rw [if_neg hlive] at hroom
      exact h.touch hslot hroom
  · exact h

/-- The key that a least stamp leads to has an entry, which bears that stamp. -/
theorem slot_of_oldest? (h : s.Coupled) {stamp : UInt64} (hold : s.oldest? = some (stamp, key)) :
    ∃ slot, s.slots[key]? = some slot ∧ slot.stamp = stamp :=
  (h.order_iff _ _).mp (getElem?_of_oldest? hold)

theorem evict (h : s.Coupled) (fuel : Nat) : (s.evict fuel).2.Coupled := by
  apply evict_induction (p := Coupled)
  · intro t stamp key slot hold hslot h
    obtain ⟨slot', hslot', rfl⟩ := h.slot_of_oldest? hold
    rw [hslot] at hslot'
    cases hslot'
    exact h.drop hslot _
  · intro t stamp key hold hnone h
    obtain ⟨slot, hslot, -⟩ := h.slot_of_oldest? hold
    rw [hnone] at hslot
    cases hslot
  · exact h

/-- Before an insertion evicts, the new entry and its stamp are in place. -/
theorem add_remove (h : s.Coupled) (key : Key) (e : Entry V)
    (hroom : s.nextStamp.toNat + 1 < UInt64.size) : ((s.remove key).2.add key e).Coupled := by
  apply (h.remove key).add (getElem?_slots_remove s key)
  rwa [nextStamp_remove]

theorem skipStamp (h : s.Coupled) (hroom : s.nextStamp.toNat + 1 < UInt64.size) :
    Coupled { s with nextStamp := s.nextStamp + 1 } where
  order_iff := h.order_iff
  fresh key slot hslot := by
    have := UInt64.lt_iff_toNat_lt.mp (h.fresh key slot hslot)
    rw [UInt64.lt_iff_toNat_lt, toNat_add_one hroom]
    omega

theorem insert (h : s.Coupled) (key : Key) (e : Entry V)
    (hroom : s.nextStamp.toNat + 1 < UInt64.size) : (s.insert key e).2.Coupled := by
  apply insert_induction (p := Coupled)
  · intro hfits
    exact (h.add_remove key e hroom).evict _
  · intro hfits
    apply (h.remove key).skipStamp
    rwa [nextStamp_remove]

theorem clear (s : Shard V) : s.clear.2.Coupled where
  order_iff := by simp [Shard.clear]
  fresh := by simp [Shard.clear]

/-- One request. -/
theorem handle (h : s.Coupled) (now : Instant) (request : Request V)
    (hroom : s.nextStamp.toNat + (s.handle now request).1.stamps < UInt64.size) :
    (s.handle now request).2.Coupled := by
  cases request with
  | insert key value ttl weight =>
    simp only [Shard.handle] at hroom ⊢
    split
    · exact h
    · rename_i e he
      rw [he] at hroom
      dsimp only at hroom
      rw [Answer.stamps_ofInsertion] at hroom
      exact h.insert key e hroom
  | get key => exact h.get key now hroom
  | contains key => exact h
  | remove key => exact h.remove key
  | clear => exact Coupled.clear s

theorem run (h : s.Coupled) (requests : List (Instant × Request V)) (hfits : s.StampsFit requests) :
    (s.run requests).2.Coupled := by
  induction requests generalizing s with
  | nil => exact h
  | cons step rest ih =>
    obtain ⟨now, request⟩ := step
    obtain ⟨hroom, hrest⟩ := hfits
    exact ih (h.handle now request hroom) hrest

end Coupled

/-! ### Exact weights over a run -/

namespace Exact

theorem handle (h : s.Exact) (now : Instant) (request : Request V) :
    (s.handle now request).2.Exact := by
  cases request with
  | insert key value ttl weight =>
    simp only [Shard.handle]
    split
    · exact h
    · exact h.insert key _
  | get key => exact h.get key now
  | contains key => exact h
  | remove key => exact h.remove key
  | clear => rfl

theorem run (h : s.Exact) (requests : List (Instant × Request V)) : (s.run requests).2.Exact := by
  induction requests generalizing s with
  | nil => exact h
  | cons step rest ih => exact ih (h.handle step.1 step.2)

end Exact

/-! ### Nothing is missing -/

namespace Coupled

theorem slots_eq_empty (h : s.Coupled) (horder : s.order = ∅) : s.slots = ∅ := by
  apply Std.ExtTreeMap.ext_getElem?
  intro k
  rw [Std.ExtTreeMap.getElem?_empty, Option.eq_none_iff_forall_ne_some]
  intro slot hslot
  have := h.order_of_slot hslot
  rw [horder, Std.ExtTreeMap.getElem?_empty] at this
  cases this

/-- With no stamp left there is no entry left either, and so nothing to be over budget with. -/
theorem overBudget_eq_false (h : s.Coupled) (hexact : s.Exact) (horder : s.order = ∅) :
    s.overBudget = false := by
  have hused : s.usedBytes.toNat = 0 := by
    rw [hexact, weight, h.slots_eq_empty horder]
    rfl
  rw [overBudget, Bool.and_eq_false_iff]
  refine Or.inr (decide_eq_false ?_)
  intro hlt
  have := UInt64.lt_iff_toNat_lt.mp hlt
  omega

/-- One turn of an eviction. It ends within the budget, or it removes the oldest entry. -/
theorem evict_cases (h : s.Coupled) (hexact : s.Exact) (fuel : Nat) :
    s.overBudget = false ∧ s.evict (fuel + 1) = (0, s) ∨
    ∃ key slot, s.overBudget = true ∧ s.oldest? = some (slot.stamp, key) ∧
      s.slots[key]? = some slot ∧
      s.evict (fuel + 1) =
        (((s.remove key).2.evict fuel).1 + 1, ((s.remove key).2.evict fuel).2) := by
  cases hover : s.overBudget with
  | false =>
    refine Or.inl ⟨rfl, ?_⟩
    rw [Shard.evict, hover]
    rfl
  | true =>
    cases hold : s.oldest? with
    | none =>
      rw [h.overBudget_eq_false hexact (oldest?_eq_none hold)] at hover
      cases hover
    | some r =>
      obtain ⟨stamp, key⟩ := r
      obtain ⟨slot, hslot, rfl⟩ := h.slot_of_oldest? hold
      refine Or.inr ⟨key, slot, rfl, rfl, hslot, ?_⟩
      rw [Shard.evict, if_pos hover, hold]
      simp only [Shard.remove, hslot]

/-- With each turn there is a stamp less. -/
theorem size_order_remove (h : s.Coupled) (hslot : s.slots[key]? = some slot) :
    (s.remove key).2.order.size = s.order.size - 1 := by
  simp only [Shard.remove, hslot]
  exact size_erase_of_getElem? (h.order_of_slot hslot)

end Coupled

namespace Strict

theorem remove_eq (h : s.Coupled) (hexact : s.Exact) (key : Key) :
    remove s key = some (s.remove key) := by
  unfold remove Shard.remove
  cases hslot : s.slots[key]? with
  | none => rfl
  | some slot =>
    simp only [takeStamp, h.order_of_slot hslot, Option.bind_some, takeWeight,
      if_pos (hexact.weight_le hslot), Option.map_some]

theorem touch_eq (h : s.Coupled) (hslot : s.slots[key]? = some slot) :
    touch s key slot.stamp = some (slot, s.touch key slot) := by
  unfold touch Shard.touch
  simp only [hslot, takeStamp, h.order_of_slot hslot, Option.map_some]

theorem get_eq (h : s.Coupled) (hexact : s.Exact) (key : Key) (now : Instant) :
    get s key now = some (s.get key now) := by
  unfold get Shard.get
  cases hslot : s.slots[key]? with
  | none => rfl
  | some slot =>
    dsimp only
    rw [remove_eq h hexact, touch_eq h hslot]
    split <;> rfl

/-- Eviction needs one turn for each stamp at most, and finds everything in its place. -/
theorem evict_eq (h : s.Coupled) (hexact : s.Exact) {fuel : Nat} (hfuel : s.order.size ≤ fuel) :
    evict fuel s = some (s.evict fuel) := by
  induction fuel generalizing s with
  | zero =>
    have horder := Std.ExtTreeMap.eq_empty_iff_size_eq_zero.mpr (Nat.le_zero.mp hfuel)
    rw [evict, h.overBudget_eq_false hexact horder]
    rfl
  | succ fuel ih =>
    rcases h.evict_cases hexact fuel with
      ⟨hover, he⟩ | ⟨key, slot, hover, hold, hslot, he⟩
    · rw [he, evict, hover]
      rfl
    · have hsize := h.size_order_remove hslot
      have hrest := ih (h.remove key) (hexact.remove key) (by omega)
      rw [he, evict, if_pos hover, hold]
      simp only [Shard.remove, hslot] at hrest ⊢
      simp only [takeWeight, if_pos (hexact.weight_le hslot), Option.bind_some, hrest,
        Option.map_some]

theorem insert_eq (h : s.Coupled) (hexact : s.Exact) {e : Entry V}
    (hroom : s.nextStamp.toNat + 1 < UInt64.size)
    (hfits : s.Fits key e) : insert s key e = some (s.place key e) := by
  have hadd : (s.remove key).2.HasRoom e := hfits
  unfold insert
  rw [remove_eq h hexact, Option.bind_some, if_pos hadd]
  dsimp only
  rw [evict_eq (h.add_remove key e hroom) (hexact.add_remove hfits) (Nat.le_refl _)]
  rfl

theorem handle_eq (h : s.Coupled) (hexact : s.Exact) (now : Instant) (request : Request V)
    (hfits : s.FitsIn request)
    (hroom : s.nextStamp.toNat + (s.handle now request).1.stamps < UInt64.size) :
    handle now s request = some (s.handle now request) := by
  cases request with
  | insert key value ttl weight =>
    simp only [handle, Shard.handle] at hroom ⊢
    cases he : Entry.at? now value ttl weight with
    | none => rfl
    | some e =>
      have hfits : s.Fits key e := hexact.fits_iff.mpr (hfits.insert_lt he)
      rw [he] at hroom
      dsimp only at hroom ⊢
      rw [Answer.stamps_ofInsertion] at hroom
      rw [insert_eq h hexact hroom hfits, insert_of_fits hfits]
      rfl
  | get key =>
    rw [handle, get_eq h hexact]
    rfl
  | contains key => rfl
  | remove key =>
    rw [handle, remove_eq h hexact]
    rfl
  | clear => rfl

/-- A whole run gives up nowhere, and it is the run of the tolerant operations. -/
theorem run_eq (h : s.Coupled) (hexact : s.Exact) (requests : List (Instant × Request V))
    (hweights : s.WeightsFit requests) (hstamps : s.StampsFit requests) :
    run s requests = some (s.run requests) := by
  induction requests generalizing s with
  | nil => rfl
  | cons step rest ih =>
    obtain ⟨now, request⟩ := step
    obtain ⟨hfits, hweights⟩ := hweights
    obtain ⟨hroom, hstamps⟩ := hstamps
    have hcoupled := h.handle now request hroom
    have hexact' := hexact.handle now request
    rw [run, handle_eq h hexact now request hfits hroom, Option.bind_some,
      ih hcoupled hexact' hweights hstamps]
    rfl

end Strict

end Stockroom.Shard
