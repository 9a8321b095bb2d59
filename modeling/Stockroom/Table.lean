/-!
Association tables: every key at most once, rows in the order in which their keys were last
written. A table is a list, so that its length and its order can be reasoned about directly.
The laws here say what each operation does to look-ups, to the keys and to the size.
-/

namespace Stockroom
set_option autoImplicit false

/-- Taking out the one row with the image of `a` splits the list around `a`. -/
theorem filter_ne_of_nodup {α β : Type} [DecidableEq β] (f : α → β) {l : List α}
    (hn : (l.map f).Nodup) {a : α} (ha : a ∈ l) :
    ∃ before after, l = before ++ a :: after ∧
      (l.filter fun b => f b ≠ f a) = before ++ after := by
  obtain ⟨before, after, rfl⟩ := List.append_of_mem ha
  refine ⟨before, after, rfl, ?_⟩
  rw [List.map_append, List.map_cons, List.nodup_append] at hn
  obtain ⟨_, hafter, hne⟩ := hn
  rw [List.nodup_cons] at hafter
  rw [List.filter_append, List.filter_cons_of_neg (by simp),
    List.filter_eq_self.mpr, List.filter_eq_self.mpr]
  · intro b hb
    have := hafter.1
    simp only [List.mem_map, not_exists, not_and] at this
    simpa using this b hb
  · intro b hb
    simpa using hne (f b) (List.mem_map_of_mem hb) (f a) (by simp)

/-- Rows of keys and values, no key twice. -/
structure Table (κ ν : Type) where
  rows : List (κ × ν)
  distinct : (rows.map Prod.fst).Nodup

namespace Table

variable {κ ν : Type}

@[ext] theorem ext {s t : Table κ ν} (h : s.rows = t.rows) : s = t := by
  cases s; cases t; cases h; rfl

def empty : Table κ ν := ⟨[], .nil⟩

instance : Inhabited (Table κ ν) := ⟨empty⟩

def size (t : Table κ ν) : Nat := t.rows.length

def keys (t : Table κ ν) : List κ := t.rows.map Prod.fst

def values (t : Table κ ν) : List ν := t.rows.map Prod.snd

def filter (t : Table κ ν) (p : κ × ν → Bool) : Table κ ν where
  rows := t.rows.filter p
  distinct := t.distinct.sublist (List.filter_sublist.map Prod.fst)

/-- Every value replaced by its image; keys and order stay. -/
def map {μ : Type} (t : Table κ ν) (f : κ → ν → μ) : Table κ μ where
  rows := t.rows.map fun r => (r.1, f r.1 r.2)
  distinct := by simpa [List.map_map, Function.comp_def] using t.distinct

/-- All rows but the first. -/
def tail (t : Table κ ν) : Table κ ν where
  rows := t.rows.tail
  distinct := t.distinct.sublist (t.rows.tail_sublist.map Prod.fst)

@[simp] theorem rows_empty : (empty : Table κ ν).rows = [] := rfl

variable [DecidableEq κ]

def get? (t : Table κ ν) (k : κ) : Option ν :=
  (t.rows.find? fun r => r.1 = k).map Prod.snd

def contains (t : Table κ ν) (k : κ) : Bool := (t.get? k).isSome

def erase (t : Table κ ν) (k : κ) : Table κ ν := t.filter fun r => r.1 ≠ k

/-- The row of `k` goes to the end, whether it was there or not. -/
def insert (t : Table κ ν) (k : κ) (v : ν) : Table κ ν where
  rows := (t.erase k).rows ++ [(k, v)]
  distinct := by
    rw [List.map_append, List.nodup_append]
    refine ⟨(t.erase k).distinct, by simp, ?_⟩
    simp [erase, filter]

/-- The value of `k` replaced in its place; nothing happens if `k` is absent. -/
def modify (t : Table κ ν) (k : κ) (f : ν → ν) : Table κ ν :=
  t.map fun k' v => if k' = k then f v else v

/-! ### Look-ups -/

@[simp] theorem get?_empty (k : κ) : (empty : Table κ ν).get? k = none := rfl

theorem rows_erase (t : Table κ ν) (k : κ) :
    (t.erase k).rows = t.rows.filter fun r => r.1 ≠ k := rfl

theorem rows_insert (t : Table κ ν) (k : κ) (v : ν) :
    (t.insert k v).rows = (t.rows.filter fun r => r.1 ≠ k) ++ [(k, v)] := rfl

theorem find?_filter_ne (rows : List (κ × ν)) {k j : κ} (h : j ≠ k) :
    (rows.filter fun r => r.1 ≠ k).find? (fun r => r.1 = j) =
      rows.find? fun r => r.1 = j := by
  induction rows with
  | nil => rfl
  | cons r rows ih =>
    by_cases hk : r.1 = k
    · have hj : ¬ r.1 = j := fun e => h (e.symm.trans hk)
      simpa [List.filter_cons, hk, List.find?_cons, show ¬ k = j from fun e => h e.symm] using ih
    · by_cases hj : r.1 = j
      · simp [h, hj]
      · simpa [List.filter_cons, hk, List.find?_cons, hj] using ih

@[simp] theorem get?_erase_self (t : Table κ ν) (k : κ) : (t.erase k).get? k = none := by
  simp [get?, rows_erase]

theorem get?_erase_of_ne (t : Table κ ν) {k j : κ} (h : j ≠ k) :
    (t.erase k).get? j = t.get? j := by
  rw [get?, get?, rows_erase, find?_filter_ne t.rows h]

@[simp] theorem get?_insert_self (t : Table κ ν) (k : κ) (v : ν) :
    (t.insert k v).get? k = some v := by
  have hn : (t.rows.filter fun r => r.1 ≠ k).find? (fun r => r.1 = k) = none :=
    List.find?_eq_none.2 fun r hr => by simpa using (List.mem_filter.1 hr).2
  rw [get?, rows_insert, List.find?_append, hn]
  simp

theorem get?_insert_of_ne (t : Table κ ν) {k j : κ} (v : ν) (h : j ≠ k) :
    (t.insert k v).get? j = t.get? j := by
  rw [get?, get?, rows_insert, List.find?_append, find?_filter_ne t.rows h]
  simp [show ¬ k = j from fun e => h e.symm]

theorem get?_insert (t : Table κ ν) (k j : κ) (v : ν) :
    (t.insert k v).get? j = if j = k then some v else t.get? j := by
  split
  · subst j; exact get?_insert_self t k v
  · exact get?_insert_of_ne t v ‹_›

/-- What is found was inserted just now or was there before. -/
theorem get?_of_insert {t : Table κ ν} {k j : κ} {v w : ν} (h : (t.insert k v).get? j = some w) :
    j = k ∧ w = v ∨ t.get? j = some w := by
  rw [get?_insert] at h
  split at h
  · exact Or.inl ⟨‹j = k›, (Option.some.inj h).symm⟩
  · exact Or.inr h

theorem get?_of_erase {t : Table κ ν} {k j : κ} {v : ν} (h : (t.erase k).get? j = some v) :
    t.get? j = some v := by
  by_cases he : j = k
  · subst he
    simp at h
  · rwa [get?_erase_of_ne _ he] at h

theorem mem_of_get? {t : Table κ ν} {k : κ} {v : ν} (h : t.get? k = some v) :
    (k, v) ∈ t.rows := by
  obtain ⟨r, hr, rfl⟩ := Option.map_eq_some_iff.1 h
  have hk : r.1 = k := by simpa using List.find?_some hr
  subst hk
  exact List.mem_of_find?_eq_some hr

theorem get?_of_mem {t : Table κ ν} {k : κ} {v : ν} (h : (k, v) ∈ t.rows) :
    t.get? k = some v := by
  obtain ⟨rows, hd⟩ := t
  simp only [get?]
  induction rows with
  | nil => simp at h
  | cons r rows ih =>
    rw [List.map_cons, List.nodup_cons] at hd
    rcases List.mem_cons.1 h with rfl | h
    · simp
    · have hne : ¬ r.1 = k := fun e => hd.1 (e ▸ List.mem_map_of_mem (f := Prod.fst) h)
      simpa [List.find?_cons, hne] using ih hd.2 h

theorem get?_eq_some_iff {t : Table κ ν} {k : κ} {v : ν} :
    t.get? k = some v ↔ (k, v) ∈ t.rows := ⟨mem_of_get?, get?_of_mem⟩

theorem get?_filter_eq_some_iff {t : Table κ ν} {p : κ × ν → Bool} {k : κ} {v : ν} :
    (t.filter p).get? k = some v ↔ t.get? k = some v ∧ p (k, v) = true := by
  rw [get?_eq_some_iff, get?_eq_some_iff]
  exact List.mem_filter

theorem get?_eq_none_iff {t : Table κ ν} {k : κ} : t.get? k = none ↔ k ∉ t.keys := by
  rw [get?, Option.map_eq_none_iff, List.find?_eq_none]
  constructor
  · intro h hk
    obtain ⟨r, hr, rfl⟩ := List.mem_map.1 hk
    exact h r hr (by simp)
  · intro h r hr hk
    have hk' : r.1 = k := by simpa using hk
    exact h (hk' ▸ List.mem_map_of_mem (f := Prod.fst) hr)

theorem contains_iff_mem_keys {t : Table κ ν} {k : κ} : t.contains k = true ↔ k ∈ t.keys := by
  rw [contains, Option.isSome_iff_ne_none, ne_eq, get?_eq_none_iff, Classical.not_not]

/-! ### Size and keys -/

theorem keys_erase (t : Table κ ν) (k : κ) : (t.erase k).keys = t.keys.filter (· ≠ k) := by
  simp [keys, rows_erase, List.filter_map, Function.comp_def]

theorem erase_of_get?_eq_none {t : Table κ ν} {k : κ} (h : t.get? k = none) :
    t.erase k = t := by
  apply ext
  rw [rows_erase, List.filter_eq_self]
  intro r hr
  have := get?_eq_none_iff.1 h
  simp only [ne_eq, decide_not, Bool.not_eq_eq_eq_not, Bool.not_true, decide_eq_false_iff_not]
  exact fun e => this (e ▸ List.mem_map_of_mem (f := Prod.fst) hr)

theorem size_insert (t : Table κ ν) (k : κ) (v : ν) :
    (t.insert k v).size = (t.erase k).size + 1 := by
  simp [size, rows_insert, rows_erase]

/-! ### Values -/

/-- The row of a key, and all others. -/
theorem values_perm_of_get? {t : Table κ ν} {k : κ} {v : ν} (h : t.get? k = some v) :
    t.values.Perm (v :: (t.erase k).values) := by
  obtain ⟨before, after, hrows, herase⟩ := filter_ne_of_nodup Prod.fst t.distinct (mem_of_get? h)
  rw [values, values, rows_erase, herase, hrows, List.map_append, List.map_append]
  exact List.perm_middle

theorem values_insert (t : Table κ ν) (k : κ) (v : ν) :
    (t.insert k v).values = (t.erase k).values ++ [v] := by
  simp [values, rows_insert, rows_erase]

theorem count_values_erase [DecidableEq ν] (t : Table κ ν) (k : κ) (v : ν) :
    t.values.count v = (t.erase k).values.count v + (t.get? k).toList.count v := by
  cases hk : t.get? k with
  | none => simp [erase_of_get?_eq_none hk]
  | some w =>
    rw [(values_perm_of_get? hk).count_eq, ← List.singleton_append, List.count_append,
      Nat.add_comm, Option.toList_some]

theorem count_values_insert [DecidableEq ν] (t : Table κ ν) (k : κ) (v w : ν) :
    (if v = w then 1 else 0) + t.values.count w =
      (t.insert k v).values.count w + (t.get? k).toList.count w := by
  rw [values_insert, t.count_values_erase k w, List.count_append, List.count_singleton]
  simp only [beq_iff_eq]
  omega

end Table

end Stockroom
