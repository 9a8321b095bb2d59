import Mathlib.Data.List.Nodup
import Mathlib.Data.Option.Basic

/-! A list in which another one is found again, element by element and in order, among elements that
belong to nobody there; and the numbers under which the elements of the one go in the other. -/

namespace Stockroom.Cache
set_option autoImplicit false

/-! ### Numbers -/

/-- Some of the numbers below a bound, in the order in which they were given out. -/
structure Numbering where
  own : List Nat
  bound : Nat
  below : ∀ i ∈ own, i < bound
  nodup : own.Nodup

namespace Numbering

variable {n k : Numbering} {i j i' j' : Nat}

/-- `i` is the number in place `j`. -/
def Pairs (n : Numbering) (i j : Nat) : Prop := n.own[j]? = some i

/-- The number was given out to somebody else. -/
def Foreign (n : Numbering) (i : Nat) : Prop := i < n.bound ∧ i ∉ n.own

def empty : Numbering := ⟨[], 0, nofun, .nil⟩

/-- The next number is one of these. -/
def add (n : Numbering) : Numbering where
  own := n.own ++ [n.bound]
  bound := n.bound + 1
  below i hi := by
    rcases List.mem_append.mp hi with hi | hi
    · exact Nat.lt_succ_of_lt (n.below i hi)
    · rw [List.mem_singleton.mp hi]
      exact Nat.lt_succ_self _
  nodup := by
    refine List.nodup_append.mpr ⟨n.nodup, List.nodup_singleton _, ?_⟩
    rintro i hi _ hbound rfl
    rw [List.mem_singleton.mp hbound] at hi
    exact Nat.lt_irrefl _ (n.below _ hi)

/-- The next number is not one of these. -/
def skip (n : Numbering) : Numbering where
  own := n.own
  bound := n.bound + 1
  below i hi := Nat.lt_succ_of_lt (n.below i hi)
  nodup := n.nodup

theorem Pairs.mem (h : n.Pairs i j) : i ∈ n.own := List.mem_of_getElem? h

theorem Pairs.lt_length (h : n.Pairs i j) : j < n.own.length := (List.getElem?_eq_some_iff.mp h).1

theorem Pairs.eq_iff (h : n.Pairs i j) (h' : n.Pairs i' j') : i = i' ↔ j = j' := by
  constructor
  · rintro rfl
    exact (List.getElem?_inj h.lt_length n.nodup).mp (h.trans h'.symm)
  · rintro rfl
    exact Option.some.inj (h.symm.trans h')

theorem Pairs.ne (h : n.Pairs i j) (h' : n.Foreign i') : i ≠ i' := by
  rintro rfl
  exact h'.2 h.mem

theorem pairs_idxOf (h : i ∈ n.own) : n.Pairs i (n.own.idxOf i) := by
  rw [Pairs, List.getElem?_eq_getElem (List.idxOf_lt_length_iff.mpr h), List.getElem_idxOf]

theorem Pairs.idxOf_eq (h : n.Pairs i j) : n.own.idxOf i = j :=
  (pairs_idxOf h.mem).eq_iff h |>.mp rfl

theorem pairs_add (n : Numbering) : n.add.Pairs n.bound n.own.length := List.getElem?_concat_length

theorem foreign_skip (n : Numbering) : n.skip.Foreign n.bound :=
  ⟨Nat.lt_succ_self _, fun h => Nat.lt_irrefl _ (n.below _ h)⟩

/-- More numbers have been given out. -/
structure Le (n k : Numbering) : Prop where
  pairs : ∀ i j, n.Pairs i j → k.Pairs i j
  foreign : ∀ i, n.Foreign i → k.Foreign i

theorem Le.refl (n : Numbering) : n.Le n := ⟨fun _ _ => id, fun _ => id⟩

theorem le_add (n : Numbering) : n.Le n.add where
  pairs i j h := by
    rw [Pairs, add, List.getElem?_append_left h.lt_length]
    exact h
  foreign i h := by
    refine ⟨Nat.lt_succ_of_lt h.1, fun hi => ?_⟩
    rcases List.mem_append.mp hi with hi | hi
    · exact h.2 hi
    · rw [List.mem_singleton.mp hi] at h
      exact Nat.lt_irrefl _ h.1

theorem le_skip (n : Numbering) : n.Le n.skip := ⟨fun _ _ => id, fun _ h => ⟨Nat.lt_succ_of_lt h.1, h.2⟩⟩

/-- A pair is an old one, or it is the new number with its place. -/
theorem pairs_add_iff : n.add.Pairs i j ↔ n.Pairs i j ∨ i = n.bound ∧ j = n.own.length := by
  constructor
  · intro h
    rw [Pairs, add, List.getElem?_append] at h
    split at h
    · exact Or.inl h
    · obtain ⟨hj, hi⟩ := List.getElem?_eq_some_iff.mp h
      rw [List.length_singleton] at hj
      have hj : j = n.own.length := by omega
      subst hj
      simp at hi
      exact Or.inr ⟨hi.symm, rfl⟩
  · rintro (h | ⟨rfl, rfl⟩)
    · exact n.le_add.pairs i j h
    · exact n.pairs_add

end Numbering

/-! ### Lists -/

/-- The second list is found in the first: `own` says which element stands for which, and the other
elements of the first are `aside`. -/
inductive Interleaved {α β : Type} (own : α → β → Prop) (aside : α → Prop) :
    List α → List β → Prop where
  | nil : Interleaved own aside [] []
  | own {a : α} {b : β} {l : List α} {l' : List β} : own a b → Interleaved own aside l l' →
      Interleaved own aside (a :: l) (b :: l')
  | aside {a : α} {l : List α} {l' : List β} : aside a → Interleaved own aside l l' →
      Interleaved own aside (a :: l) l'

namespace Interleaved

variable {α β : Type} {own own' : α → β → Prop} {aside aside' : α → Prop} {l k : List α}
  {l' k' : List β} {a : α} {b : β}

theorem mono (h : Interleaved own aside l l') (hown : ∀ a b, own a b → own' a b)
    (haside : ∀ a, aside a → aside' a) : Interleaved own' aside' l l' := by
  induction h with
  | nil => exact .nil
  | own hab _ ih => exact .own (hown _ _ hab) ih
  | aside ha _ ih => exact .aside (haside _ ha) ih

theorem append (h : Interleaved own aside l l') (h' : Interleaved own aside k k') :
    Interleaved own aside (l ++ k) (l' ++ k') := by
  induction h with
  | nil => exact h'
  | own hab _ ih => exact .own hab ih
  | aside ha _ ih => exact .aside ha ih

theorem concat_own (h : Interleaved own aside l l') (hab : own a b) :
    Interleaved own aside (l ++ [a]) (l' ++ [b]) := h.append (.own hab .nil)

theorem concat_aside (h : Interleaved own aside l l') (ha : aside a) :
    Interleaved own aside (l ++ [a]) l' := by
  have happend := h.append (.aside ha .nil)
  rwa [List.append_nil] at happend

/-- The same elements are picked on both sides; of those aside it does not matter which. -/
theorem filter (h : Interleaved own aside l l') {p : α → Bool} {p' : β → Bool}
    (hp : ∀ a b, own a b → p a = p' b) :
    Interleaved own aside (l.filter p) (l'.filter p') := by
  induction h with
  | nil => exact .nil
  | own hab _ ih =>
    rw [List.filter_cons, List.filter_cons, hp _ _ hab]
    split
    · exact .own hab ih
    · exact ih
  | aside ha _ ih =>
    rw [List.filter_cons]
    split
    · exact .aside ha ih
    · exact ih

/-- Only elements that are aside are taken out. -/
theorem filter_aside (h : Interleaved own aside l l') {p : α → Bool}
    (hp : ∀ a b, own a b → p a = true) : Interleaved own aside (l.filter p) l' := by
  have hfilter : Interleaved own aside (l.filter p) (l'.filter fun _ => true) := h.filter hp
  rwa [List.filter_true] at hfilter

/-- Only elements that are aside are picked. -/
theorem filter_nil (h : Interleaved own aside l l') {p : α → Bool}
    (hp : ∀ a b, own a b → p a = false) : Interleaved own aside (l.filter p) [] := by
  have hfilter : Interleaved own aside (l.filter p) (l'.filter fun _ => false) := h.filter hp
  rwa [List.filter_false] at hfilter

/-- The element at a place, when a test tells the elements aside from the others. -/
theorem getElem? (h : Interleaved own aside l l') {p : α → Bool}
    (hown : ∀ a b, own a b → p a = true) (haside : ∀ a, aside a → p a = false) {i : Nat}
    (ha : l[i]? = some a) :
    (p a = true ∧ ∃ b, own a b ∧ l'[(l.take i).countP p]? = some b ∧
        Interleaved own aside (l.eraseIdx i) (l'.eraseIdx ((l.take i).countP p))) ∨
      p a = false ∧ aside a ∧ Interleaved own aside (l.eraseIdx i) l' := by
  induction h generalizing i with
  | nil => cases ha
  | @own c d l l' hcd hl ih =>
    cases i with
    | zero =>
      cases ha
      exact Or.inl ⟨hown _ _ hcd, d, hcd, rfl, hl⟩
    | succ i =>
      rw [List.take_succ_cons, List.countP_cons_of_pos (hown _ _ hcd), List.eraseIdx_cons_succ]
      rcases ih ha with ⟨hpa, b, hab, hb, herase⟩ | ⟨hpa, ha, herase⟩
      · exact Or.inl ⟨hpa, b, hab, hb, .own hcd herase⟩
      · exact Or.inr ⟨hpa, ha, .own hcd herase⟩
  | @aside c l l' hc hl ih =>
    cases i with
    | zero =>
      cases ha
      exact Or.inr ⟨haside _ hc, hc, hl⟩
    | succ i =>
      rw [List.take_succ_cons, List.countP_cons_of_neg (by simp [haside _ hc]),
        List.eraseIdx_cons_succ]
      rcases ih ha with ⟨hpa, b, hab, hb, herase⟩ | ⟨hpa, ha, herase⟩
      · exact Or.inl ⟨hpa, b, hab, hb, .aside hc herase⟩
      · exact Or.inr ⟨hpa, ha, .aside hc herase⟩

theorem eq_nil (h : Interleaved own aside [] l') : l' = [] := by
  cases h
  rfl

/-- The second list, as a function of the first. -/
theorem eq_map_filter (h : Interleaved own aside l l') {p : α → Bool} {f : α → β}
    (hown : ∀ a b, own a b → p a = true ∧ f a = b) (haside : ∀ a, aside a → p a = false) :
    l' = (l.filter p).map f := by
  induction h with
  | nil => rfl
  | own hab _ ih =>
    obtain ⟨hp, hf⟩ := hown _ _ hab
    rw [List.filter_cons_of_pos hp, List.map_cons, hf, ← ih]
  | aside ha _ ih => rw [List.filter_cons_of_neg (by simp [haside _ ha]), ← ih]

end Interleaved

end Stockroom.Cache
