import Mathlib.Data.List.Nodup
import Stockroom.Flight.Registry

/-! The registry and the calls that are alive. Who holds a call is left open here: a session holds
calls under names, a cache in its tasks. Only registering and settling change anything. -/

namespace Stockroom
set_option autoImplicit false

namespace Registry

variable {V : Type} {r : Registry V} {alive : List Call}

theorem progress_register_eq (r : Registry V) (key : String) (slot : Nat) :
    (r.register key).2.progress slot =
      if slot = r.slots.length then .running else r.progress slot := by
  simp only [register, progress, List.getD_eq_getElem?_getD]
  split
  · subst slot
    simp
  · rename_i hne
    rcases Nat.lt_or_gt_of_ne hne with hlt | hgt
    · rw [List.getElem?_append_left hlt]
    · rw [List.getElem?_eq_none (by simp; omega), List.getElem?_eq_none (Nat.le_of_lt hgt)]

theorem progress_settle_eq (r : Registry V) (call : Call) (p : Progress V) (slot : Nat) :
    (r.settle call p).progress slot =
      if slot = call.slot ∧ slot < r.slots.length then p else r.progress slot := by
  simp only [settle, progress, List.getD_eq_getElem?_getD, List.getElem?_set]
  by_cases he : call.slot = slot
  · subst slot
    by_cases hlt : call.slot < r.slots.length
    · simp [hlt]
    · simp [hlt]
  · rw [if_neg he, if_neg (fun h => he h.1.symm)]

theorem lt_of_progress_eq_running {slot : Nat} (h : r.progress slot = .running) :
    slot < r.slots.length := by
  apply Nat.lt_of_not_le
  intro hle
  rw [progress, List.getD_eq_getElem?_getD, List.getElem?_eq_none hle] at h
  cases h

/-- The registry knows exactly the calls that are alive: it leads from each key to the slot of the
one call for it, and the slots that still run are those of calls that are alive. -/
structure Tracks (r : Registry V) (alive : List Call) : Prop where
  get?_iff : ∀ key slot, r.calls.get? key = some slot ↔ ⟨key, slot⟩ ∈ alive
  running_iff : ∀ slot, r.progress slot = .running ↔ ∃ call ∈ alive, call.slot = slot
  nodup : alive.Nodup
  slot_inj : ∀ call ∈ alive, ∀ other ∈ alive, call.slot = other.slot → call = other

namespace Tracks

protected theorem empty : Tracks ({} : Registry V) [] where
  get?_iff := by simp
  running_iff := by simp [progress]
  nodup := .nil
  slot_inj := by simp

theorem perm {other : List Call} (h : r.Tracks alive) (hp : alive.Perm other) :
    r.Tracks other where
  get?_iff key slot := by rw [h.get?_iff, hp.mem_iff]
  running_iff slot := by
    rw [h.running_iff]
    exact exists_congr fun call => and_congr_left fun _ => hp.mem_iff
  nodup := hp.nodup_iff.mp h.nodup
  slot_inj call hc other ho :=
    h.slot_inj call (hp.mem_iff.mpr hc) other (hp.mem_iff.mpr ho)

theorem slot_lt (h : r.Tracks alive) {call : Call} (hc : call ∈ alive) :
    call.slot < r.slots.length :=
  lt_of_progress_eq_running ((h.running_iff call.slot).mpr ⟨call, hc, rfl⟩)

theorem get?_key (h : r.Tracks alive) {call : Call} (hc : call ∈ alive) :
    r.calls.get? call.key = some call.slot := (h.get?_iff _ _).mpr hc

theorem eq_of_key_eq (h : r.Tracks alive) {call other : Call} (hc : call ∈ alive)
    (ho : other ∈ alive) (hk : call.key = other.key) : call = other := by
  have hcall := h.get?_key hc
  rw [hk, h.get?_key ho] at hcall
  cases call
  cases other
  simp_all

/-- No two calls that are alive are for the same key. -/
theorem keys_nodup (h : r.Tracks alive) : (alive.map Call.key).Nodup :=
  h.nodup.map_on fun _ hc _ ho hk => h.eq_of_key_eq hc ho hk

theorem contains_iff (h : r.Tracks alive) (key : String) :
    r.contains key = true ↔ ∃ call ∈ alive, call.key = key := by
  rw [contains, Table.contains, Option.isSome_iff_exists]
  constructor
  · rintro ⟨slot, hslot⟩
    exact ⟨⟨key, slot⟩, (h.get?_iff key slot).mp hslot, rfl⟩
  · rintro ⟨call, hc, rfl⟩
    exact ⟨call.slot, h.get?_key hc⟩

/-- There are as many keys in flight as calls that are alive. -/
theorem calls_size (h : r.Tracks alive) : r.calls.size = alive.length := by
  have hp : (r.calls.rows.map fun row => (⟨row.1, row.2⟩ : Call)).Perm alive := by
    rw [List.perm_ext_iff_of_nodup _ h.nodup]
    · rintro ⟨key, slot⟩
      rw [← h.get?_iff, Table.get?_eq_some_iff, List.mem_map]
      constructor
      · rintro ⟨row, hrow, he⟩
        cases he
        exact hrow
      · intro hrow
        exact ⟨_, hrow, rfl⟩
    · have hd := r.calls.distinct.of_map
      exact hd.map fun a b he => by
        cases a
        cases b
        cases he
        rfl
  rw [← hp.length_eq, List.length_map]
  rfl

/-- Opening a call for a key that has none. Its slot is new. -/
theorem register (h : r.Tracks alive) {key : String} (hk : r.contains key = false) :
    (r.register key).2.Tracks ((r.register key).1 :: alive) := by
  have hnone : r.calls.get? key = none := by
    simpa [contains, Table.contains] using hk
  have hkey : ∀ call ∈ alive, call.key ≠ key := fun call hc e => by
    have := h.get?_key hc
    rw [e, hnone] at this
    cases this
  have hslot : ∀ call ∈ alive, call.slot ≠ r.slots.length := fun call hc =>
    Nat.ne_of_lt (h.slot_lt hc)
  constructor
  · intro k slot
    rw [Registry.register]
    dsimp only
    rw [Table.get?_insert, List.mem_cons, Call.mk.injEq]
    by_cases he : k = key
    · subst k
      rw [if_pos rfl, Option.some.injEq]
      constructor
      · exact fun e => Or.inl ⟨rfl, e.symm⟩
      · rintro (⟨_, e⟩ | hm)
        · exact e.symm
        · exact absurd rfl (hkey _ hm)
    · rw [if_neg he, h.get?_iff]
      exact ⟨Or.inr, fun hm => hm.resolve_left fun e => he e.1⟩
  · intro slot
    rw [progress_register_eq]
    simp only [List.mem_cons, exists_eq_or_imp]
    by_cases he : slot = r.slots.length
    · subst slot
      rw [if_pos rfl]
      exact ⟨fun _ => Or.inl rfl, fun _ => rfl⟩
    · rw [if_neg he, h.running_iff]
      exact ⟨Or.inr, fun hm => hm.resolve_left fun e => he e.symm⟩
  · rw [List.nodup_cons]
    exact ⟨fun hm => hslot _ hm rfl, h.nodup⟩
  · intro call hc other ho he
    rcases List.mem_cons.mp hc with rfl | hc
    · rcases List.mem_cons.mp ho with rfl | ho
      · rfl
      · exact absurd he.symm (hslot _ ho)
    · rcases List.mem_cons.mp ho with rfl | ho
      · exact absurd he (hslot _ hc)
      · exact h.slot_inj call hc other ho he

/-- Ending a call: its slot is settled and its key, by which it is retired, is its own. -/
theorem settle {call : Call} (h : r.Tracks (call :: alive)) {p : Progress V}
    (hp : p ≠ .running) : (r.settle call p).Tracks alive := by
  have hnot := (List.nodup_cons.mp h.nodup).1
  have hmem : call ∈ call :: alive := List.mem_cons_self
  have hkey : ∀ other ∈ alive, other.key ≠ call.key := fun other ho e => by
    rw [h.eq_of_key_eq (List.mem_cons_of_mem _ ho) hmem e] at ho
    exact hnot ho
  have hslot : ∀ other ∈ alive, other.slot ≠ call.slot := fun other ho e => by
    rw [h.slot_inj other (List.mem_cons_of_mem _ ho) call hmem e] at ho
    exact hnot ho
  constructor
  · intro key slot
    rw [Registry.settle]
    dsimp only
    by_cases he : key = call.key
    · subst key
      rw [Table.get?_erase_self]
      exact ⟨fun e => (by cases e), fun hm => absurd rfl (hkey ⟨_, slot⟩ hm)⟩
    · rw [Table.get?_erase_of_ne _ he, h.get?_iff, List.mem_cons]
      constructor
      · exact fun hm => hm.resolve_left fun e => he (congrArg Call.key e)
      · exact fun hm => Or.inr hm
  · intro slot
    rw [progress_settle_eq]
    by_cases he : slot = call.slot
    · subst slot
      rw [if_pos ⟨rfl, h.slot_lt hmem⟩]
      constructor
      · exact fun e => absurd e hp
      · rintro ⟨other, ho, e⟩
        exact absurd e (hslot other ho)
    · rw [if_neg fun e => he e.1, h.running_iff]
      simp only [List.mem_cons, exists_eq_or_imp]
      exact ⟨fun hm => hm.resolve_left fun e => he e.symm, Or.inr⟩
  · exact (List.nodup_cons.mp h.nodup).2
  · intro other ho third ht
    exact h.slot_inj other (List.mem_cons_of_mem _ ho) third (List.mem_cons_of_mem _ ht)

end Tracks

end Registry

end Stockroom
