import Stockroom.Proofs.Shard.Eviction

/-! Weights of any size. The used bytes are counted up before anything is evicted, so an entry that is
over the budget goes out again only if a word can count it and all others; otherwise the insertion
crashes, with the old entry of its key gone. -/

namespace Stockroom.Shard
set_option autoImplicit false

variable {V : Type} {s : Shard V} {key key' : Key} {slot : Slot V} {e : Entry V}

/-! ### Budgets over a run -/

variable {budget : UInt64}

theorem Keeps.handle (h : s.Keeps budget fun _ => True) (hpos : 0 < budget) (now : Instant)
    (request : Request V) : (s.handle now request).2.Keeps budget fun _ => True := by
  cases request with
  | insert key value ttl weight =>
    simp only [Shard.handle]
    split
    · exact h
    · exact h.insert hpos _ trivial
  | get key => exact h.get key now
  | contains key => exact h
  | remove key => exact h.remove key
  | clear => exact h.clear

theorem Keeps.run (h : s.Keeps budget fun _ => True) (hpos : 0 < budget)
    (requests : List (Instant × Request V)) :
    (s.run requests).2.Keeps budget fun _ => True := by
  induction requests generalizing s with
  | nil => exact h
  | cons step rest ih => exact ih (h.handle hpos step.1 step.2)

/-! ### One more insertion -/

theorem weight_le_of_slot (h : s.slots[key]? = some slot) : slot.weight.toNat ≤ s.weight :=
  Nat.le.intro (weightOf_eq_add_erase h).symm

/-- What is there after an insertion under its key is the new entry. -/
theorem eq_of_peek?_insert {e' : Entry V} (h : (s.insert key e).2.peek? key = some e') :
    e' = e := by
  by_cases hfits : s.Fits key e
  · rw [insert_of_fits hfits] at h
    exact eq_of_peek?_place h
  · rw [insert_of_not_fits hfits, peek?_forfeit, if_pos rfl] at h
    cases h

/-- An entry that alone is over the budget does not stay. -/
theorem peek?_insert_of_lt {capacity : Nat} (hle : (s.insert key e).2.weight ≤ capacity)
    (hlt : capacity < e.weight.toNat) : (s.insert key e).2.peek? key = none := by
  rw [Option.eq_none_iff_forall_ne_some]
  intro e' he'
  obtain rfl := eq_of_peek?_insert he'
  obtain ⟨slot, hslot, rfl⟩ := Option.map_eq_some_iff.mp he'
  have := weight_le_of_slot hslot
  omega

/-- After an insertion a partition is within its budget. It crashes exactly if a word cannot count
the new entry with all others, and then the old entry of its key is gone. -/
theorem insert_within_budget {capacity : UInt64} (hpos : 0 < capacity)
    (requests : List (Instant × Request V)) (key : Key) (e : Entry V) :
    let s := ((new capacity : Shard V).run requests).2
    let r := s.insert key e
    (r.2.usedBytes.toNat = r.2.weight ∧ r.2.weight ≤ capacity.toNat ∧
      (capacity < e.weight → r.2.peek? key = none)) ∧
    if s.weightBeside key + e.weight.toNat < UInt64.size then ∃ i, r.1 = .ok i
    else r.1 = .error .weightOverflow ∧ r.2.peek? key = none ∧
      ∀ key', key' ≠ key → r.2.peek? key' = s.peek? key' := by
  intro s r
  have hkeeps : s.Keeps capacity fun _ => True :=
    (Keeps.new capacity fun _ => True).run hpos requests
  have hafter : r.2.Keeps capacity fun _ => True := hkeeps.insert hpos e trivial
  refine ⟨⟨hafter.used_eq, hafter.weight_le, ?_⟩, ?_⟩
  · intro hlt
    exact peek?_insert_of_lt hafter.weight_le (UInt64.lt_iff_toNat_lt.mp hlt)
  · split
    · rename_i hfits
      exact ⟨_, congrArg Prod.fst (insert_of_fits (hkeeps.used_eq.fits_iff.mpr hfits))⟩
    · rename_i hover
      have hr : r = (.error .weightOverflow, s.forfeit key) :=
        insert_of_not_fits fun hfits => hover (hkeeps.used_eq.fits_iff.mp hfits)
      rw [hr]
      refine ⟨rfl, ?_, fun key' hne => ?_⟩
      · exact (peek?_forfeit s key key).trans (if_pos rfl)
      · exact (peek?_forfeit s key key').trans (if_neg hne.symm)

/-- A write of weight ten under a budget of a hundred. -/
def Request.light : List (Instant × Request Nat) :=
  [(⟨0⟩, .insert ⟨0, "a"⟩ (some 1) ⟨0⟩ 10)]

theorem insert_within_budget_light :
    (0 : UInt64) < 100 ∧
      let r := ((new 100 : Shard Nat).run Request.light).2.insert ⟨0, "b"⟩ ⟨some 2, ⟨0⟩, ⟨0⟩, 101⟩
      (∃ i, r.1 = .ok i) ∧ r.2.weight ≤ 100 ∧ r.2.usedBytes.toNat = r.2.weight ∧
        r.2.peek? ⟨0, "b"⟩ = none := by
  have hpos : (0 : UInt64) < 100 := by decide
  refine ⟨hpos, ?_⟩
  intro r
  have hfits : ((new 100 : Shard Nat).run Request.light).2.weightBeside ⟨0, "b"⟩ + 101 <
      UInt64.size := by decide +kernel
  obtain ⟨⟨hused, hle, hheavy⟩, hways⟩ :=
    insert_within_budget hpos Request.light ⟨0, "b"⟩ ⟨some 2, ⟨0⟩, ⟨0⟩, 101⟩
  exact ⟨(if_pos hfits).mp hways, hle, hused, hheavy (by decide)⟩

/-- An entry of the largest weight beside one of weight ten crashes the insertion, though it would not
stay under a budget of a hundred. -/
theorem exists_insert_overflow :
    let heaviest : Entry Nat := ⟨some 2, ⟨0⟩, ⟨0⟩, 18446744073709551615⟩
    let r := ((new 100 : Shard Nat).run Request.light).2.insert ⟨0, "b"⟩ heaviest
    100 < heaviest.weight ∧ r.1 = .error .weightOverflow ∧ r.2.size = 1 ∧ r.2.usedBytes = 10 := by
  decide +kernel

end Stockroom.Shard
