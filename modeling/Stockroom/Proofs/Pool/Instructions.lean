import Stockroom.Pool.Traffic
import Stockroom.Proofs.Pool.Members

/-! Instructions and the resources that they are about. A resource that no set holds is on its way
in some instruction; a crash must never drop that one. -/

namespace Stockroom.Pool
set_option autoImplicit false

namespace Instr

/-- Resources that no set and no user has seen yet. -/
def fresh : Instr → List ResourceId
  | .enroll _ r => [r]
  | .exchange _ new => [new]
  | _ => []

/-- Resources that are known already. -/
def mentions : Instr → List ResourceId
  | .put r _ | .dispose r _ | .destroy r | .withdraw r | .giveBack r => [r]
  | .exchange old _ => [old]
  | .call (.makeInstead r) | .call (.check r) | .call (.destructor r) | .call (.body r) => [r]
  | _ => []

/-- Resources that may be in no set, and are to be put into one or destroyed. -/
def carries : Instr → List ResourceId
  | .enroll _ r => [r]
  | .exchange _ new => [new]
  | .dispose r _ => [r]
  | .destroy r => [r]
  | _ => []

/-- What can be dropped and does no harm after a crash before it. -/
def Plain : Instr → Prop
  | .put _ _ | .giveBack _ | .call (.check _) => True
  | _ => False

/-- The destruction of a resource, or its second half. -/
def Destroys : Instr → Prop
  | .destroy _ | .call (.destructor _) => True
  | _ => False

theorem Plain.fresh {i : Instr} (h : i.Plain) : i.fresh = [] := by
  unfold Plain at h
  split at h <;> first | rfl | exact h.elim

theorem Plain.carries {i : Instr} (h : i.Plain) : i.carries = [] := by
  unfold Plain at h
  split at h <;> first | rfl | exact h.elim

end Instr

/-- First destructions, then plain instructions. -/
def Doomed (l : List Instr) : Prop :=
  ∃ (rs : List ResourceId) (rest : List Instr),
    l = rs.map .destroy ++ rest ∧ ∀ i ∈ rest, i.Plain

/-- What is left to do in a job. Whatever comes after a call of a callback that may crash is
plain, and a withdrawal is followed by what it is for. -/
inductive Orderly : List Instr → Prop where
  | nil : Orderly []
  | cons (i : Instr) (rest : List Instr) : (∀ r, i ≠ .withdraw r) → Doomed rest →
      (i.Destroys ∨ ∀ j ∈ rest, j.Plain) → Orderly (i :: rest)
  | leaving (r : ResourceId) (rest : List Instr) : (∀ i ∈ rest, i.Plain) →
      Orderly (.withdraw r :: .dispose r .delayed :: rest)

namespace Doomed

variable {l rest : List Instr}

theorem of_plain (h : ∀ i ∈ rest, i.Plain) : Doomed rest := ⟨[], rest, rfl, h⟩

theorem map_append (rs : List ResourceId) (h : Doomed rest) :
    Doomed (rs.map .destroy ++ rest) := by
  obtain ⟨rs', rest, rfl, hrest⟩ := h
  exact ⟨rs ++ rs', rest, by rw [List.map_append, List.append_assoc], hrest⟩

theorem cases_mem (h : Doomed l) {i : Instr} (hi : i ∈ l) : (∃ r, i = .destroy r) ∨ i.Plain := by
  obtain ⟨rs, rest, rfl, hrest⟩ := h
  rcases List.mem_append.mp hi with hi | hi
  · obtain ⟨r, -, rfl⟩ := List.mem_map.mp hi
    exact Or.inl ⟨r, rfl⟩
  · exact Or.inr (hrest i hi)

theorem orderly (h : Doomed l) : Orderly l := by
  obtain ⟨rs, rest, rfl, hrest⟩ := h
  cases rs with
  | cons r rs =>
    exact .cons _ _ nofun (map_append rs (of_plain hrest)) (Or.inl trivial)
  | nil =>
    cases rest with
    | nil => exact .nil
    | cons i rest =>
      have hplain : ∀ j ∈ rest, j.Plain := fun j hj => hrest j (List.mem_cons_of_mem i hj)
      refine .cons i rest ?_ (of_plain hplain) (Or.inr hplain)
      rintro r rfl
      exact hrest _ List.mem_cons_self

theorem fresh (h : Doomed l) : l.flatMap Instr.fresh = [] := by
  rw [List.flatMap_eq_nil_iff]
  intro i hi
  rcases h.cases_mem hi with ⟨r, rfl⟩ | hplain
  · rfl
  · exact hplain.fresh

theorem not_dispose (h : Doomed l) (r : ResourceId) (d : Disposal) : .dispose r d ∉ l := by
  intro hi
  rcases h.cases_mem hi with ⟨r, he⟩ | hplain
  · cases he
  · exact hplain

end Doomed

/-- One plain or carrying instruction before plain ones. -/
theorem Orderly.one {i : Instr} {rest : List Instr} (hi : ∀ r, i ≠ .withdraw r)
    (h : ∀ j ∈ rest, j.Plain) : Orderly (i :: rest) :=
  .cons i rest hi (.of_plain h) (Or.inr h)

namespace Stock

variable {s : Stock} {r x : ResourceId}

theorem length_touch (s : Stock) (r : ResourceId) (now : Instant) :
    (s.touch r now).length = s.length := List.length_modify _ _ _

theorem length_markDestroyed (s : Stock) (r : ResourceId) :
    (s.markDestroyed r).length = s.length := List.length_modify _ _ _

theorem isDestroyed_touch (s : Stock) (r x : ResourceId) (now : Instant) :
    (s.touch r now).isDestroyed x = s.isDestroyed x := by
  rw [isDestroyed, isDestroyed, touch, List.getElem?_modify]
  cases s[x]? with
  | none => rfl
  | some y => by_cases h : r = x <;> simp [h]

theorem isDestroyed_markDestroyed (s : Stock) (r x : ResourceId) :
    (s.markDestroyed r).isDestroyed x = (s.isDestroyed x || r == x) := by
  rw [isDestroyed, isDestroyed, markDestroyed, List.getElem?_modify]
  cases s[x]? with
  | none => rfl
  | some y => by_cases h : r = x <;> simp [h]

theorem isDestroyed_append {s : Stock} {r : ResourceId} (new : Stock) (h : r < s.length) :
    isDestroyed (s ++ new) r = s.isDestroyed r := by
  rw [isDestroyed, isDestroyed, List.getElem?_append_left h]

end Stock

end Stockroom.Pool
