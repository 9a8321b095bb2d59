import Mathlib.Data.List.Perm.Subperm
import Stockroom.Proofs.Shard.Refinement

/-! A larger budget never hurts. Where every entry weighs one, what a partition keeps is a part, in
the same order, of what one with a larger budget keeps that is asked the same things, and it lacks
no more entries than its budget is smaller. -/

namespace Stockroom
set_option autoImplicit false

variable {V : Type}

/-! ### Recency lists -/

namespace Recency

/-- One list is a part of the other, and lacks at most `room` of its writes. -/
structure Within (room : Nat) (l larger : Recency V) : Prop where
  sublist : l.Sublist larger
  length_le : larger.length ≤ l.length + room

def AllOnes (l : Recency V) : Prop := ∀ w ∈ l, w.weight = 1

theorem AllOnes.weight {l : Recency V} (h : l.AllOnes) : l.weight = l.length := by
  induction l with
  | nil => rfl
  | cons w l ih =>
    have hw : w.weight.toNat = 1 := by rw [h w List.mem_cons_self]; rfl
    rw [weight_cons, hw, ih fun v hv => h v (List.mem_cons_of_mem w hv), List.length_cons,
      Nat.add_comm]

theorem AllOnes.without {l : Recency V} (h : l.AllOnes) (key : Key) : (l.without key).AllOnes :=
  fun w hw => h w (List.mem_of_mem_filter hw)

theorem AllOnes.append {l m : Recency V} (h : l.AllOnes) (hm : m.AllOnes) : (l ++ m).AllOnes :=
  fun w hw => (List.mem_append.mp hw).elim (h w) (hm w)

/-- Trimming drops as many writes as are too many. -/
theorem AllOnes.trim_eq_drop {l : Recency V} (h : l.AllOnes) {capacity : Nat}
    (hpos : 0 < capacity) : trim capacity l = l.drop (l.length - capacity) := by
  induction l with
  | nil => exact List.drop_nil.symm
  | cons w l ih =>
    have hweight := h.weight
    rw [List.length_cons] at hweight ⊢
    unfold trim
    split
    · rename_i hover
      rw [ih fun v hv => h v (List.mem_cons_of_mem w hv)]
      rw [show l.length + 1 - capacity = l.length - capacity + 1 by omega, List.drop_succ_cons]
    · rw [show l.length + 1 - capacity = 0 by omega, List.drop_zero]

theorem trim_suffix (capacity : Nat) (l : Recency V) : trim capacity l <:+ l := by
  induction l with
  | nil => exact List.suffix_rfl
  | cons w l ih =>
    unfold trim
    split
    · exact ih.trans (List.suffix_cons w l)
    · exact List.suffix_rfl

theorem length_without_add_countP (l : Recency V) (key : Key) :
    (l.without key).length + l.countP (fun w => w.key = key) = l.length := by
  have h := List.length_eq_countP_add_countP (l := l) fun w : Written V => decide (w.key = key)
  have hnot : l.countP (fun w => ¬ decide (w.key = key) = true) = (l.without key).length := by
    rw [without, List.countP_eq_length_filter]
    simp
  omega

theorem find?_eq_none_iff {l : Recency V} {key : Key} :
    l.find? key = none ↔ l.without key = l := by
  simp [find?, without, List.find?_eq_none, List.filter_eq_self]

theorem mem_of_find? {l : Recency V} {key : Key} {w : Written V} (h : l.find? key = some w) :
    w ∈ l ∧ w.key = key :=
  ⟨List.mem_of_find?_eq_some h, by simpa using List.find?_some h⟩

/-- Where no key is there twice, a write is found if it is there. -/
theorem find?_of_mem {l : Recency V} (hn : (l.map Written.key).Nodup) {w : Written V}
    (hw : w ∈ l) : l.find? w.key = some w := by
  cases h : l.find? w.key with
  | none =>
    have := List.find?_eq_none.mp h w hw
    simp at this
  | some v =>
    obtain ⟨hv, hkey⟩ := mem_of_find? h
    rw [List.inj_on_of_nodup_map hn hv hw hkey]

namespace Within

variable {room : Nat} {l larger : Recency V}

theorem without (h : l.Within room larger) (key : Key) :
    (l.without key).Within room (larger.without key) := by
  have hcount := h.sublist.countP_le (p := fun w => decide (w.key = key))
  have hlength := h.length_le
  have hl := length_without_add_countP l key
  have hlarger := length_without_add_countP larger key
  exact ⟨h.sublist.filter _, by omega⟩

theorem append (h : l.Within room larger) (w : Written V) :
    (l ++ [w]).Within room (larger ++ [w]) := by
  refine ⟨h.sublist.append (List.Sublist.refl _), ?_⟩
  have := h.length_le
  simp only [List.length_append]
  omega

/-- A write that only the larger list has may go from it. -/
theorem without_larger (h : l.Within room larger) {key : Key} (hnone : l.find? key = none) :
    l.Within room (larger.without key) := by
  have hwithout := h.without key
  rwa [find?_eq_none_iff.mp hnone] at hwithout

/-- A write that only the larger list has may be used again. -/
theorem touch_larger (h : l.Within room larger) {w : Written V} (hnone : l.find? w.key = none)
    (hw : w ∈ larger) : l.Within room (larger.without w.key ++ [w]) := by
  have hwithout := h.without_larger hnone
  refine ⟨hwithout.sublist.trans (List.sublist_append_left _ _), ?_⟩
  have hcount : 0 < larger.countP fun v => v.key = w.key :=
    List.countP_pos_iff.mpr ⟨w, hw, by simp⟩
  have hlarger := length_without_add_countP larger w.key
  have := h.length_le
  rw [List.length_append, List.length_singleton]
  omega

/-- The smaller list drops no fewer writes than the larger one. -/
theorem trim {c c' : Nat} (h : l.Within (c' - c) larger) (hones : larger.AllOnes) (hpos : 0 < c)
    (hle : c ≤ c') : (trim c l).Within (c' - c) (trim c' larger) := by
  have hones' : l.AllOnes := fun w hw => hones w (h.sublist.subset hw)
  have hlength := h.length_le
  rw [hones'.trim_eq_drop hpos, hones.trim_eq_drop (by omega)]
  constructor
  · have hdrop : larger.length - c' ≤ l.length - c := by omega
    exact (List.drop_sublist_drop_left l hdrop).trans (h.sublist.drop _)
  · rw [List.length_drop, List.length_drop]
    omega

end Within

end Recency

namespace Shard

/-- The request writes nothing but entries that weigh one. -/
def Request.WeighsOne : Request V → Prop
  | .insert _ _ _ weight => weight = 1
  | _ => True

instance : (r : Request V) → Decidable r.WeighsOne
  | .insert .. => inferInstanceAs (Decidable (_ = _))
  | .get _ | .contains _ | .remove _ | .clear => inferInstanceAs (Decidable True)

end Shard

namespace Recency

variable {c c' : Nat} {l larger : Recency V}

theorem AllOnes.handle (h : l.AllOnes) (capacity : Nat) (now : Instant) {request : Shard.Request V}
    (hone : request.WeighsOne) : (l.handle capacity now request).2.AllOnes := by
  cases request with
  | insert key value ttl weight =>
    simp only [Recency.handle]
    split
    · exact h
    · intro w hw
      rcases List.mem_append.mp ((trim_suffix capacity _).subset hw) with hw | hw
      · exact h.without key w hw
      · rw [List.mem_singleton.mp hw]
        exact hone
  | get key =>
    simp only [Recency.handle, get]
    split
    · exact h
    · rename_i w hfind
      split
      · exact h.without key
      · refine (h.without key).append fun v hv => ?_
        rw [List.mem_singleton.mp hv]
        exact h w (mem_of_find? hfind).1
  | contains key => exact h
  | remove key => exact h.without key
  | clear => exact fun _ hw => by cases hw

/-- One request to both lists. What is hit in the smaller one is hit in the larger one. -/
theorem Within.handle (h : l.Within (c' - c) larger) (hn : (larger.map Written.key).Nodup)
    (hones : larger.AllOnes) (hpos : 0 < c) (hle : c ≤ c') (now : Instant)
    {request : Shard.Request V} (hone : request.WeighsOne) :
    (l.handle c now request).2.Within (c' - c) (larger.handle c' now request).2 ∧
      ∀ found, (l.handle c now request).1 = .found (.hit found) →
        (larger.handle c' now request).1 = .found (.hit found) := by
  cases request with
  | insert key value ttl weight =>
    simp only [Recency.handle]
    split
    · exact ⟨h, fun _ he => by cases he⟩
    · refine ⟨((h.without key).append _).trim ?_ hpos hle, fun _ he => by cases he⟩
      refine (hones.without key).append fun w hw => ?_
      rw [List.mem_singleton.mp hw]
      exact hone
  | get key =>
    simp only [Recency.handle, get]
    cases hfind : l.find? key with
    | some w =>
      obtain ⟨hw, rfl⟩ := mem_of_find? hfind
      rw [find?_of_mem hn (h.sublist.subset hw)]
      dsimp only
      split
      · exact ⟨h.without w.key, fun _ he => by cases he⟩
      · exact ⟨(h.without w.key).append w, fun _ he => he⟩
    | none =>
      refine ⟨?_, fun _ he => by cases he⟩
      cases hlarger : larger.find? key with
      | none => exact h
      | some w =>
        obtain ⟨hw, rfl⟩ := mem_of_find? hlarger
        dsimp only
        split
        · exact h.without_larger hfind
        · exact h.touch_larger hfind hw
  | contains key => exact ⟨h, fun _ he => by cases he⟩
  | remove key => exact ⟨h.without key, fun _ he => by cases he⟩
  | clear => exact ⟨⟨List.Sublist.refl _, Nat.zero_le _⟩, fun _ he => by cases he⟩

end Recency

namespace Shard

/-! ### Partitions -/

/-- The larger partition has every entry of the other, in the same order of use, and at most `room`
entries more. -/
structure IncludedIn (s larger : Shard V) (room : Nat) : Prop where
  entries : ∀ key e, s.peek? key = some e → larger.peek? key = some e
  order : ∀ (key₁ key₂ : Key) (a₁ a₂ b₁ b₂ : Slot V),
    s.slots[key₁]? = some a₁ → s.slots[key₂]? = some a₂ →
    larger.slots[key₁]? = some b₁ → larger.slots[key₂]? = some b₂ →
    (a₁.stamp < a₂.stamp ↔ b₁.stamp < b₂.stamp)
  size_le : larger.size ≤ s.size + room

variable {s larger : Shard V} {l m : Stamped V}

namespace Represents

/-- Of two rows, the one with the lesser stamp comes first. -/
theorem lt_iff_sublist (h : s.Represents l) {r q : UInt64 × Written V} (hr : r ∈ l) (hq : q ∈ l) :
    r.1 < q.1 ↔ [r.2, q.2].Sublist l.writes := by
  constructor
  · intro hlt
    obtain ⟨before, after, rfl⟩ := List.append_of_mem hr
    rcases List.mem_append.mp hq with hq | hq
    · have hbefore := (List.pairwise_append.mp h.sorted).2.2 q hq r List.mem_cons_self
      exact absurd (UInt64.lt_trans hlt hbefore) (UInt64.lt_irrefl _)
    · rcases List.mem_cons.mp hq with rfl | hq
      · exact absurd hlt (UInt64.lt_irrefl _)
      · have hpair : [r, q].Sublist (r :: after) := (List.singleton_sublist.mpr hq).cons_cons r
        exact (hpair.trans (List.sublist_append_right before _)).map Prod.snd
  · intro hsub
    obtain ⟨rows, hrows, he⟩ := List.sublist_map_iff.mp hsub
    obtain ⟨r', rest, rfl, hr', hrest⟩ := List.map_eq_cons_iff.mp he.symm
    obtain ⟨q', rfl, hq'⟩ := List.map_eq_singleton_iff.mp hrest
    have hsorted := h.sorted.sublist hrows
    obtain rfl := h.eq_of_key_eq hr (hrows.subset (by simp)) (congrArg Written.key hr'.symm)
    obtain rfl := h.eq_of_key_eq hq (hrows.subset (by simp)) (congrArg Written.key hq'.symm)
    exact (List.pairwise_cons.mp hsorted).1 q (List.mem_singleton_self q)

theorem nodup_writes (h : s.Represents l) : (l.writes.map Written.key).Nodup := by
  rw [Stamped.writes, List.map_map]
  exact h.keys_nodup

/-- The write of an entry that one partition keeps is that of the entry that the other keeps. -/
theorem row_of_sublist (h : s.Represents l) (h' : larger.Represents m)
    (hsub : l.writes.Sublist m.writes) {key : Key} {a b : Slot V} (ha : s.slots[key]? = some a)
    (hb : larger.slots[key]? = some b) :
    ∃ w, (a.stamp, w) ∈ l ∧ (b.stamp, w) ∈ m := by
  obtain ⟨w, hw, rfl, -⟩ := h.mem_of_slot ha
  obtain ⟨v, hv, hkey, -⟩ := h'.mem_of_slot hb
  have hmem : w ∈ m.writes := hsub.subset (List.mem_map_of_mem (f := Prod.snd) hw)
  have hsame := List.inj_on_of_nodup_map h'.nodup_writes
    (List.mem_map_of_mem (f := Prod.snd) hv) hmem hkey
  exact ⟨w, hw, hsame ▸ hv⟩

theorem includedIn (h : s.Represents l) (h' : larger.Represents m) {room : Nat}
    (hwithin : l.writes.Within room m.writes) : s.IncludedIn larger room where
  entries key e he := by
    obtain ⟨slot, hslot, rfl⟩ := Option.map_eq_some_iff.mp he
    obtain ⟨w, hw, rfl, hentry⟩ := h.mem_of_slot hslot
    obtain ⟨r, hr, hrw⟩ := List.mem_map.mp
      (hwithin.sublist.subset (List.mem_map_of_mem (f := Prod.snd) hw))
    have hrkey : r.2.key = w.key := congrArg Written.key hrw
    rw [peek?, ← hrkey, h'.slot_of_mem hr, hrw, Option.map_some, ← hentry]
  order key₁ key₂ a₁ a₂ b₁ b₂ ha₁ ha₂ hb₁ hb₂ := by
    obtain ⟨w₁, hw₁, hw₁'⟩ := h.row_of_sublist h' hwithin.sublist ha₁ hb₁
    obtain ⟨w₂, hw₂, hw₂'⟩ := h.row_of_sublist h' hwithin.sublist ha₂ hb₂
    have hforth := fun hlt => (h'.lt_iff_sublist hw₁' hw₂').mpr
      (((h.lt_iff_sublist hw₁ hw₂).mp hlt).trans hwithin.sublist)
    have hback := fun hlt => (h'.lt_iff_sublist hw₂' hw₁').mpr
      (((h.lt_iff_sublist hw₂ hw₁).mp hlt).trans hwithin.sublist)
    refine ⟨hforth, fun hlt => ?_⟩
    rcases UInt64.lt_or_eq_of_le (UInt64.not_lt.mp fun hgt => UInt64.lt_asymm hlt (hback hgt))
      with hlt' | heq
    · exact hlt'
    · obtain rfl : w₁ = w₂ := congrArg Prod.snd (h.eq_of_stamp_eq hw₁ hw₂ heq)
      have hsame : b₁.stamp = b₂.stamp := congrArg Prod.fst (h'.eq_of_key_eq hw₁' hw₂' rfl)
      exact absurd (hsame ▸ hlt) (UInt64.lt_irrefl _)
  size_le := by
    have hsize : s.size = l.writes.length := h.slots_size.trans (Stamped.length_writes l).symm
    have hsize' : larger.size = m.writes.length :=
      h'.slots_size.trans (Stamped.length_writes m).symm
    rw [hsize, hsize']
    exact hwithin.length_le

/-- Stamps are drawn one by one, so there are no more rows than stamps drawn. -/
theorem length_le_nextStamp (h : s.Represents l) : l.length ≤ s.nextStamp.toNat := by
  have hnodup : (l.map fun r => r.1.toNat).Nodup := by
    rw [List.nodup_iff_pairwise_ne, List.pairwise_map]
    exact h.sorted.imp fun hlt => Nat.ne_of_lt (UInt64.lt_iff_toNat_lt.mp hlt)
  have hsub : (l.map fun r => r.1.toNat) ⊆ List.range s.nextStamp.toNat := by
    intro n hn
    obtain ⟨r, hr, rfl⟩ := List.mem_map.mp hn
    exact List.mem_range.mpr (UInt64.lt_iff_toNat_lt.mp (h.fresh r hr))
  simpa using (hnodup.subperm hsub).length_le

theorem stamps_handle (h : s.Represents l) (now : Instant) (request : Request V) :
    (s.handle now request).1.stamps =
      (l.writes.handle s.capacity.toNat now request).1.stamps := by
  cases request with
  | insert key value ttl weight =>
    cases hd : now.after? ttl with
    | none => simp [Shard.handle, Recency.handle, Entry.at?, hd, Answer.stamps]
    | some deadline =>
      simp only [Shard.handle, Recency.handle, Entry.at?, hd, Option.map_some,
        Answer.stamps_ofInsertion]
      rfl
  | get key =>
    simp only [Shard.handle, Recency.handle, Shard.get]
    cases hk : s.slots[key]? with
    | none =>
      rw [Recency.get, h.find?_eq_none hk]
    | some slot =>
      obtain ⟨w, hw, rfl, he⟩ := h.mem_of_slot hk
      rw [Recency.get, h.find?_eq_some hw]
      dsimp only
      rw [← he, w.expired_entry now]
      by_cases hx : w.Expired now <;> simp [hx, Answer.stamps]
  | contains key => rfl
  | remove key => rfl
  | clear => rfl

/-- Where every entry weighs one, only the counter of stamps has to be wide enough. -/
theorem handle_of_ones (h : s.Represents l) (hones : l.writes.AllOnes) (now : Instant)
    {request : Request V} (hone : request.WeighsOne)
    (hs : s.nextStamp.toNat + (s.handle now request).1.stamps < UInt64.size) :
    (s.handle now request).1 = (l.writes.handle s.capacity.toNat now request).1 ∧
      ∃ m : Stamped V, (s.handle now request).2.Represents m ∧
        m.writes = (l.writes.handle s.capacity.toNat now request).2 := by
  rw [h.stamps_handle] at hs
  cases request with
  | insert key value ttl weight =>
    cases hd : now.after? ttl with
    | none =>
      simp only [Shard.handle, Recency.handle, Entry.at?, hd]
      exact ⟨rfl, l, h, rfl⟩
    | some deadline =>
      refine h.handle now _ ?_ hs
      have hlength := h.length_le_nextStamp
      have hcount := Recency.length_without_add_countP l.writes key
      simp only [Recency.handle, hd, Answer.stamps] at hs
      rw [Stamped.length_writes] at hcount
      obtain rfl : weight = 1 := hone
      change (l.writes.without key).weight + 1 < UInt64.size
      rw [(hones.without key).weight]
      simp at hs
      omega
  | get key => exact h.handle now _ trivial hs
  | contains key => exact h.handle now _ trivial hs
  | remove key => exact h.handle now _ trivial hs
  | clear => exact h.handle now _ trivial hs

end Represents

theorem toNat_nextStamp_handle (s : Shard V) (now : Instant) (request : Request V)
    (hs : s.nextStamp.toNat + (s.handle now request).1.stamps < UInt64.size) :
    (s.handle now request).2.nextStamp.toNat =
      s.nextStamp.toNat + (s.handle now request).1.stamps := by
  have hn : ((s.handle now request).1.stamps.toUInt64).toNat = (s.handle now request).1.stamps :=
    UInt64.toNat_ofNat_of_lt' (by omega)
  rw [nextStamp_handle, UInt64.toNat_add, hn, Nat.mod_eq_of_lt hs]

/-- How many stamps were drawn for these answers. -/
def drawn (observed : List (Observation V)) : Nat :=
  observed.foldr (fun o n => o.answer.stamps + n) 0

/-- No request draws more than one stamp. -/
theorem drawn_run_le (s : Shard V) (requests : List (Instant × Request V)) :
    drawn (s.run requests).1 ≤ requests.length := by
  induction requests generalizing s with
  | nil => exact Nat.le_refl _
  | cons step rest ih =>
    obtain ⟨now, request⟩ := step
    have hone : (s.handle now request).1.stamps ≤ 1 := by
      unfold Answer.stamps
      split <;> decide
    have hrest : drawn ((s.handle now request).2.run rest).1 ≤ rest.length := ih _
    change (s.handle now request).1.stamps + drawn ((s.handle now request).2.run rest).1 ≤
      rest.length + 1
    omega

/-- Two partitions that were asked the same things, and the lists that they stand for. -/
structure Beside (s larger : Shard V) (l m : Stamped V) : Prop where
  represents : s.Represents l
  represents_larger : larger.Represents m
  within : l.writes.Within (larger.capacity.toNat - s.capacity.toNat) m.writes
  ones : m.writes.AllOnes
  nextStamp_le : s.nextStamp ≤ larger.nextStamp

protected theorem Beside.new {c c' : UInt64} :
    (Shard.new c : Shard V).Beside (Shard.new c') [] [] :=
  ⟨.new c, .new c', ⟨.refl _, Nat.zero_le _⟩, nofun, UInt64.le_refl _⟩

/-- An answer that the smaller partition has drawn a stamp for costs the larger one a stamp too. -/
theorem stamps_le (h : s.Represents l) (h' : larger.Represents m) (now : Instant)
    (request : Request V)
    (hhit : ∀ found, (l.writes.handle s.capacity.toNat now request).1 = .found (.hit found) →
      (m.writes.handle larger.capacity.toNat now request).1 = .found (.hit found)) :
    (s.handle now request).1.stamps ≤ (larger.handle now request).1.stamps := by
  rw [h.stamps_handle, h'.stamps_handle]
  cases request with
  | insert key value ttl weight =>
    simp only [Recency.handle]
    split <;> exact Nat.le_refl _
  | get key =>
    cases hget : (l.writes.get key now).1 with
    | hit found =>
      refine Nat.le_of_eq ?_
      rw [hhit found (congrArg Answer.found hget), Recency.handle, hget]
    | expired | miss =>
      rw [Recency.handle, hget]
      exact Nat.zero_le _
  | contains key => exact Nat.le_refl _
  | remove key => exact Nat.le_refl _
  | clear => exact Nat.le_refl _

/-- One request to both partitions. -/
theorem Beside.handle (h : s.Beside larger l m) (hpos : 0 < s.capacity)
    (hle : s.capacity ≤ larger.capacity) (now : Instant) {request : Request V}
    (hone : request.WeighsOne)
    (hs : larger.nextStamp.toNat + (larger.handle now request).1.stamps < UInt64.size) :
    (∃ l' m', (s.handle now request).2.Beside (larger.handle now request).2 l' m') ∧
      ∀ found, (s.handle now request).1 = .found (.hit found) →
        (larger.handle now request).1 = .found (.hit found) := by
  have hpos' := UInt64.lt_iff_toNat_lt.mp hpos
  obtain ⟨hwithin, hhit⟩ := h.within.handle h.represents_larger.nodup_writes h.ones hpos'
    (UInt64.le_iff_toNat_le.mp hle) now hone
  have hstamps := stamps_le h.represents h.represents_larger now request hhit
  have hdrawn := UInt64.le_iff_toNat_le.mp h.nextStamp_le
  have hs' : s.nextStamp.toNat + (s.handle now request).1.stamps < UInt64.size := by omega
  have hones' : l.writes.AllOnes := fun w hw => h.ones w (h.within.sublist.subset hw)
  obtain ⟨hanswer, l', hl, hlwrites⟩ := h.represents.handle_of_ones hones' now hone hs'
  obtain ⟨hanswer', m', hm, hmwrites⟩ := h.represents_larger.handle_of_ones h.ones now hone hs
  refine ⟨⟨l', m', hl, hm, ?_, ?_, ?_⟩, ?_⟩
  · rwa [hlwrites, hmwrites, capacity_handle, capacity_handle]
  · rw [hmwrites]
    exact h.ones.handle _ now hone
  · rw [UInt64.le_iff_toNat_le, toNat_nextStamp_handle s now request hs',
      toNat_nextStamp_handle larger now request hs]
    omega
  · rw [hanswer, hanswer']
    exact hhit

/-- A whole run beside each other: inclusion holds after every step, and so does what a hit says. -/
theorem Beside.run (h : s.Beside larger l m) (hpos : 0 < s.capacity)
    (hle : s.capacity ≤ larger.capacity) (requests : List (Instant × Request V))
    (hones : ∀ r ∈ requests, r.2.WeighsOne)
    (hs : larger.nextStamp.toNat + drawn (larger.run requests).1 < UInt64.size) :
    (∀ n, (s.run (requests.take n)).2.IncludedIn (larger.run (requests.take n)).2
        (larger.capacity.toNat - s.capacity.toNat)) ∧
      List.Forall₂ (fun o o' => ∀ found, o.answer = .found (.hit found) →
        o'.answer = .found (.hit found)) (s.run requests).1 (larger.run requests).1 := by
  have hnow := h.represents.includedIn h.represents_larger h.within
  induction requests generalizing s larger l m with
  | nil =>
    refine ⟨fun n => ?_, .nil⟩
    rw [List.take_nil]
    exact hnow
  | cons step rest ih =>
    obtain ⟨now, request⟩ := step
    have hsum : larger.nextStamp.toNat + ((larger.handle now request).1.stamps +
        drawn ((larger.handle now request).2.run rest).1) < UInt64.size := hs
    have hone : request.WeighsOne := hones _ List.mem_cons_self
    obtain ⟨⟨l', m', hafter⟩, hhit⟩ := h.handle hpos hle now hone (by omega)
    have hstamp := toNat_nextStamp_handle larger now request (by omega)
    have hcapacity := capacity_handle s now request
    have hcapacity' := capacity_handle larger now request
    obtain ⟨hall, hhits⟩ := ih hafter (by rwa [hcapacity]) (by rwa [hcapacity, hcapacity'])
      (fun r hr => hones r (List.mem_cons_of_mem _ hr)) (by omega)
      (hafter.represents.includedIn hafter.represents_larger hafter.within)
    rw [hcapacity, hcapacity'] at hall
    refine ⟨fun n => ?_, .cons hhit hhits⟩
    cases n with
    | zero => exact hnow
    | succ n => exact hall n

end Shard

/-- Where all weigh one, what a partition with a smaller budget holds, one with a larger budget
holds in the same order of use, so it hits whatever the smaller one hits. -/
theorem Shard.includedIn_of_le {c c' : UInt64} (hpos : 0 < c) (hle : c ≤ c')
    (requests : List (Instant × Shard.Request V)) (hones : ∀ r ∈ requests, r.2.WeighsOne)
    (hstamps : Shard.drawn ((Shard.new c').run requests).1 < UInt64.size) :
    (∀ n, ((Shard.new c).run (requests.take n)).2.IncludedIn
        ((Shard.new c').run (requests.take n)).2 (c'.toNat - c.toNat)) ∧
      List.Forall₂ (fun o o' => ∀ found, o.answer = .found (.hit found) →
        o'.answer = .found (.hit found))
        ((Shard.new c).run requests).1 ((Shard.new c').run requests).1 :=
  Shard.Beside.new.run hpos hle requests hones (by simpa [Shard.new] using hstamps)

/-- Three writes, a hit, a fourth write and a removal; the first key stays only where there is room
for three. -/
def Shard.Request.crowding : List (Instant × Shard.Request Nat) :=
  [(⟨0⟩, .insert ⟨1, "a"⟩ (some 10) ⟨0⟩ 1), (⟨0⟩, .insert ⟨1, "b"⟩ (some 20) ⟨9⟩ 1),
    (⟨1⟩, .insert ⟨2, "c"⟩ none ⟨0⟩ 1), (⟨2⟩, .get ⟨1, "b"⟩), (⟨3⟩, .get ⟨1, "a"⟩),
    (⟨4⟩, .insert ⟨2, "d"⟩ (some 40) ⟨0⟩ 1), (⟨5⟩, .get ⟨1, "b"⟩), (⟨5⟩, .remove ⟨1, "a"⟩)]

theorem Shard.includedIn_of_le_crowding :
    (∀ r ∈ Shard.Request.crowding, r.2.WeighsOne) ∧
      Shard.drawn ((Shard.new 3).run Shard.Request.crowding).1 < UInt64.size ∧
      ((Shard.new 2).run Shard.Request.crowding).2.IncludedIn
        ((Shard.new 3).run Shard.Request.crowding).2 1 :=
  have hdrawn := Nat.lt_of_le_of_lt (Shard.drawn_run_le (Shard.new 3) Shard.Request.crowding)
    (by decide)
  ⟨by decide, hdrawn,
    (Shard.includedIn_of_le (by decide) (by decide) Shard.Request.crowding (by decide) hdrawn).1 8⟩

end Stockroom
