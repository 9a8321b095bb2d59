import Stockroom.Proofs.Shard.Represents

/-! A partition answers every request as its recency list does. The list forgets the stamps; a
hit is a removal followed by an insertion of the same write, and eviction takes rows from the
front. -/

namespace Stockroom
set_option autoImplicit false

variable {V : Type}

namespace Shard

variable {s : Shard V} {l : Stamped V}

/-- Touching an entry is taking it out and adding it again. -/
theorem touch_eq_add_remove {key : Key} {slot : Slot V} (h : s.slots[key]? = some slot)
    (ho : s.order[slot.stamp]? = some key) :
    s.touch key slot = (s.remove key).2.add key slot.toEntry := by
  have hslots : s.slots.insert key { slot with stamp := s.nextStamp } =
      (s.slots.erase key).insert key { slot with stamp := s.nextStamp } := by
    apply Std.ExtTreeMap.ext_getElem?
    intro k
    simp only [Std.ExtTreeMap.getElem?_insert, Std.ExtTreeMap.getElem?_erase]
    split <;> rfl
  have hbytes : s.usedBytes - slot.weight + slot.weight = s.usedBytes := UInt64.sub_add_cancel _ _
  unfold touch remove add
  rw [h, ho, hslots]
  dsimp only
  rw [hbytes]

namespace Represents

theorem touch (h : s.Represents l) {r : UInt64 × Written V} (hr : r ∈ l)
    (hs : s.nextStamp.toNat + 1 < UInt64.size) :
    (s.touch r.2.key ⟨r.2.entry, r.1⟩).Represents
      (l.without r.2.key ++ [(s.nextStamp, r.2)]) := by
  have hslot := h.slot_of_mem hr
  have hstamp : (s.remove r.2.key).2.nextStamp = s.nextStamp := by
    rw [Shard.remove, hslot]
  rw [touch_eq_add_remove hslot ((h.order_iff _ _).mpr ⟨r.2, hr, rfl⟩), ← hstamp]
  apply (h.remove r.2.key).2.add
  · intro q hq
    exact (Stamped.mem_without.mp hq).2
  · have hweight := h.weight_without hr
    have hused := h.weight_eq
    have hlt : s.usedBytes.toNat < UInt64.size := s.usedBytes.toNat_lt
    omega
  · rwa [hstamp]

theorem get (h : s.Represents l) (key : Key) (now : Instant)
    (hs : s.nextStamp.toNat + (Answer.found (l.writes.get key now).1).stamps < UInt64.size) :
    (s.get key now).1 = (l.writes.get key now).1 ∧
      ∃ m : Stamped V, (s.get key now).2.Represents m ∧
        m.writes = (l.writes.get key now).2 := by
  unfold Shard.get
  cases hk : s.slots[key]? with
  | none =>
    rw [Recency.get, h.find?_eq_none hk]
    exact ⟨rfl, l, h, rfl⟩
  | some slot =>
    obtain ⟨w, hw, rfl, he⟩ := h.mem_of_slot hk
    have hentry : slot = ⟨w.entry, slot.stamp⟩ := by rw [he]
    rw [Recency.get, h.find?_eq_some hw] at hs ⊢
    dsimp only at hs ⊢
    rw [← he, w.expired_entry now]
    simp only [decide_eq_true_eq]
    by_cases hx : w.Expired now
    · rw [if_pos hx, if_pos hx]
      exact ⟨rfl, _, (h.remove w.key).2, Stamped.writes_without l w.key⟩
    · rw [if_neg hx] at hs
      rw [if_neg hx, if_neg hx, w.snapshot_entry now]
      refine ⟨rfl, l.without w.key ++ [(s.nextStamp, w)], ?_, by simp⟩
      rw [hentry]
      exact h.touch hw hs

theorem contains (h : s.Represents l) (key : Key) (now : Instant) :
    s.contains key now = l.writes.contains key now := by
  unfold Shard.contains Recency.contains
  cases hk : s.slots[key]? with
  | none =>
    rw [h.find?_eq_none hk]
    rfl
  | some slot =>
    obtain ⟨w, hw, rfl, he⟩ := h.mem_of_slot hk
    rw [h.find?_eq_some hw]
    dsimp only
    rw [← he, w.expired_entry now]
    rfl

/-- The first row is the one with the least stamp. -/
theorem oldest?_cons {r : UInt64 × Written V} (h : s.Represents (r :: l)) :
    s.oldest? = some (r.1, r.2.key) := by
  have horder : s.order[r.1]? = some r.2.key :=
    (h.order_iff _ _).mpr ⟨r.2, List.mem_cons_self, rfl⟩
  have hmin : s.order.minKey? = some r.1 := by
    rw [Std.ExtTreeMap.minKey?_eq_some_iff_mem_and_forall]
    constructor
    · rw [Std.ExtTreeMap.mem_iff_isSome_getElem?, horder]
      rfl
    · intro stamp hstamp
      rw [Std.ExtTreeMap.mem_iff_isSome_getElem?] at hstamp
      obtain ⟨key, hkey⟩ := Option.isSome_iff_exists.mp hstamp
      obtain ⟨w, hw, _⟩ := (h.order_iff _ _).mp hkey
      rcases List.mem_cons.mp hw with rfl | hw
      · simp
      · have hlt := (List.pairwise_cons.mp h.sorted).1 _ hw
        exact Std.isLE_compare.mpr (UInt64.le_of_lt hlt)
  rw [oldest?, hmin, Option.bind_some, horder]
  rfl

theorem overBudget_iff (h : s.Represents l) :
    s.overBudget = true ↔ 0 < s.capacity.toNat ∧ s.capacity.toNat < l.writes.weight := by
  rw [← h.weight_eq, overBudget, Bool.and_eq_true, decide_eq_true_eq, decide_eq_true_eq]
  exact Iff.rfl

theorem tail {r : UInt64 × Written V} (h : s.Represents (r :: l)) :
    Represents { s with
      slots := s.slots.erase r.2.key
      order := s.order.erase r.1
      usedBytes := s.usedBytes - r.2.weight } l := by
  have hn := List.nodup_cons.mp h.keys_nodup
  have hl : Stamped.without (r :: l) r.2.key = l := by
    rw [Stamped.without, List.filter_cons_of_neg (by simp), List.filter_eq_self]
    intro q hq
    rw [decide_eq_true_iff]
    intro e
    have hmem := List.mem_map_of_mem (f := fun q : UInt64 × Written V => q.2.key) hq
    rw [e] at hmem
    exact hn.1 hmem
  have := h.remove_row List.mem_cons_self
  rwa [hl] at this

/-- Eviction takes rows from the front, as trimming the list does; each row costs one turn. -/
theorem evict (h : s.Represents l) {fuel : Nat} (hf : l.length ≤ fuel) :
    ∃ m : Stamped V, (s.evict fuel).2.Represents m ∧
      m.writes = Recency.trim s.capacity.toNat l.writes ∧
      (s.evict fuel).1 + m.length = l.length := by
  induction l generalizing s fuel with
  | nil =>
    have hb : ¬ s.overBudget = true := fun hb => by
      have := (h.overBudget_iff.mp hb).2
      simp at this
    cases fuel with
    | zero => exact ⟨[], h, rfl, rfl⟩
    | succ fuel =>
      rw [Shard.evict, if_neg hb]
      exact ⟨[], h, rfl, rfl⟩
  | cons r l ih =>
    obtain ⟨fuel, rfl⟩ : ∃ n, fuel = n + 1 := ⟨fuel - 1, by simp at hf; omega⟩
    have hover := h.overBudget_iff
    rw [Stamped.writes_cons] at hover
    rw [Shard.evict, Stamped.writes_cons, Recency.trim]
    by_cases hb : s.overBudget = true
    · rw [if_pos hb, if_pos (hover.mp hb), h.oldest?_cons]
      dsimp only
      rw [h.slot_of_mem List.mem_cons_self]
      obtain ⟨m, hm, hwrites, hcount⟩ := ih h.tail (Nat.le_of_succ_le_succ hf)
      refine ⟨m, hm, hwrites, ?_⟩
      rw [List.length_cons, ← hcount]
      exact Nat.add_right_comm _ _ _
    · rw [if_neg hb, if_neg (fun e => hb (hover.mpr e))]
      exact ⟨r :: l, h, rfl, Nat.zero_add _⟩

/-- What fits in the list fits in the partition. -/
theorem fits (h : s.Represents l) {w : Written V}
    (hw : (l.writes.without w.key).weight + w.weight.toNat < UInt64.size) :
    s.Fits w.key w.entry := by
  have hused := (h.remove w.key).2.weight_eq
  rw [Stamped.writes_without] at hused
  unfold Fits HasRoom
  rw [hused]
  exact hw

theorem place (h : s.Represents l) (w : Written V)
    (hw : (l.writes.without w.key).weight + w.weight.toNat < UInt64.size)
    (hs : s.nextStamp.toNat + 1 < UInt64.size) :
    (s.place w.key w.entry).1 = (l.writes.insert s.capacity.toNat w).1 ∧
      ∃ m : Stamped V, (s.place w.key w.entry).2.Represents m ∧
        m.writes = (l.writes.insert s.capacity.toNat w).2 := by
  obtain ⟨hremoved, hrest⟩ := h.remove w.key
  have hstamp : (s.remove w.key).2.nextStamp = s.nextStamp := by
    unfold Shard.remove
    split <;> rfl
  have hadded : ((s.remove w.key).2.add w.key w.entry).Represents
      (l.without w.key ++ [((s.remove w.key).2.nextStamp, w)]) := by
    apply hrest.add
    · exact fun q hq => (Stamped.mem_without.mp hq).2
    · rwa [Stamped.writes_without]
    · rwa [hstamp]
  obtain ⟨m, hm, hwrites, hcount⟩ := hadded.evict (Nat.le_of_eq hadded.order_size.symm)
  have hcapacity : ((s.remove w.key).2.add w.key w.entry).capacity = s.capacity :=
    capacity_remove s w.key
  rw [hcapacity, Stamped.writes_append, Stamped.writes_without] at hwrites
  refine ⟨?_, m, hm, hwrites⟩
  have hlength : m.length =
      (Recency.trim s.capacity.toNat (l.writes.without w.key ++ [w])).length := by
    rw [← Stamped.length_writes, hwrites]
    rfl
  have htotal : (l.without w.key ++ [((s.remove w.key).2.nextStamp, w)]).length =
      (l.writes.without w.key ++ [w]).length := by
    rw [List.length_append, List.length_append, ← Stamped.writes_without, Stamped.length_writes]
    rfl
  rw [htotal, hlength] at hcount
  simp only [Shard.place, Recency.insert, hremoved, Insertion.mk.injEq, true_and]
  exact Nat.eq_sub_of_add_eq hcount

theorem insert (h : s.Represents l) (w : Written V)
    (hw : (l.writes.without w.key).weight + w.weight.toNat < UInt64.size)
    (hs : s.nextStamp.toNat + 1 < UInt64.size) :
    (s.insert w.key w.entry).1 = .ok (l.writes.insert s.capacity.toNat w).1 ∧
      ∃ m : Stamped V, (s.insert w.key w.entry).2.Represents m ∧
        m.writes = (l.writes.insert s.capacity.toNat w).2 := by
  obtain ⟨hanswer, hrest⟩ := h.place w hw hs
  rw [insert_of_fits (h.fits hw)]
  exact ⟨congrArg Except.ok hanswer, hrest⟩

theorem clear (h : s.Represents l) :
    s.clear.1 = l.writes.length ∧ s.clear.2.Represents [] := by
  refine ⟨h.slots_size.trans (Stamped.length_writes l).symm, ?_⟩
  exact ⟨by simp [Shard.clear], by simp [Shard.clear], .nil, .nil, by simp, rfl, rfl, rfl⟩

end Represents

theorem nextStamp_remove (s : Shard V) (key : Key) : (s.remove key).2.nextStamp = s.nextStamp := by
  unfold Shard.remove
  split <;> rfl

theorem nextStamp_evict (fuel : Nat) (s : Shard V) : (s.evict fuel).2.nextStamp = s.nextStamp := by
  apply evict_induction (p := fun t => t.nextStamp = s.nextStamp)
  · intro t stamp key slot hold hslot h
    exact h
  · intro t stamp key hold hnone h
    exact h
  · rfl

theorem nextStamp_place (s : Shard V) (key : Key) (e : Entry V) :
    (s.place key e).2.nextStamp = s.nextStamp + 1 := by
  unfold Shard.place
  simp only [nextStamp_evict]
  unfold add
  rw [nextStamp_remove]

theorem nextStamp_forfeit (s : Shard V) (key : Key) :
    (s.forfeit key).nextStamp = s.nextStamp + 1 :=
  congrArg (· + 1) (nextStamp_remove s key)

theorem nextStamp_insert (s : Shard V) (key : Key) (e : Entry V) :
    (s.insert key e).2.nextStamp = s.nextStamp + 1 := by
  apply insert_induction (p := fun t => t.nextStamp = s.nextStamp + 1)
  · intro hfits
    exact nextStamp_place s key e
  · intro hfits
    exact nextStamp_forfeit s key

/-- The counter moves on by the stamps that the answer accounts for. -/
theorem nextStamp_handle (s : Shard V) (now : Instant) (request : Request V) :
    (s.handle now request).2.nextStamp =
      s.nextStamp + (s.handle now request).1.stamps.toUInt64 := by
  cases request with
  | insert key value ttl weight =>
    simp only [handle]
    split
    · exact (UInt64.add_zero _).symm
    · rw [Answer.stamps_ofInsertion]
      exact nextStamp_insert _ _ _
  | get key =>
    simp only [handle, Shard.get]
    split
    · split
      · exact (nextStamp_remove _ _).trans (UInt64.add_zero _).symm
      · rfl
    · exact (UInt64.add_zero _).symm
  | contains key => exact (UInt64.add_zero _).symm
  | remove key => exact (nextStamp_remove _ _).trans (UInt64.add_zero _).symm
  | clear => exact (UInt64.add_zero _).symm

theorem capacity_handle (s : Shard V) (now : Instant) (request : Request V) :
    (s.handle now request).2.capacity = s.capacity := by
  cases request with
  | insert key value ttl weight =>
    simp only [handle]
    split
    · rfl
    · exact capacity_insert _ _ _
  | get key => exact capacity_get _ _ _
  | contains key => rfl
  | remove key => exact capacity_remove _ _
  | clear => rfl

/-- One request: the same answer, and the list goes on standing for the partition. -/
theorem Represents.handle (h : s.Represents l) (now : Instant) (request : Request V)
    (hw : request.FitsBeside l.writes)
    (hs : s.nextStamp.toNat + (l.writes.handle s.capacity.toNat now request).1.stamps <
      UInt64.size) :
    (s.handle now request).1 = (l.writes.handle s.capacity.toNat now request).1 ∧
      ∃ m : Stamped V, (s.handle now request).2.Represents m ∧
        m.writes = (l.writes.handle s.capacity.toNat now request).2 := by
  cases request with
  | insert key value ttl weight =>
    simp only [Shard.handle, Recency.handle] at hs ⊢
    cases hd : now.after? ttl with
    | none =>
      have he : Entry.at? now value ttl weight = none := by simp [Entry.at?, hd]
      rw [he]
      exact ⟨rfl, l, h, rfl⟩
    | some deadline =>
      have he : Entry.at? now value ttl weight =
          some (Written.entry ⟨key, value, ttl, now, weight⟩) := by
        have hsome : Entry.at? now value ttl weight = some ⟨value, ttl, deadline, weight⟩ := by
          simp [Entry.at?, hd]
        rw [hsome, Written.entry_eq_of_at? (w := ⟨key, value, ttl, now, weight⟩) hsome]
      rw [hd] at hs
      rw [he]
      obtain ⟨hanswer, hrest⟩ := h.insert ⟨key, value, ttl, now, weight⟩ hw hs
      exact ⟨congrArg Answer.ofInsertion hanswer, hrest⟩
  | get key =>
    obtain ⟨hanswer, hrest⟩ := h.get key now hs
    exact ⟨congrArg Answer.found hanswer, hrest⟩
  | contains key => exact ⟨congrArg Answer.told (h.contains key now), l, h, rfl⟩
  | remove key =>
    obtain ⟨hanswer, hrest⟩ := h.remove key
    exact ⟨congrArg Answer.told hanswer, _, hrest, Stamped.writes_without l key⟩
  | clear =>
    obtain ⟨hanswer, hrest⟩ := h.clear
    exact ⟨congrArg Answer.counted hanswer, [], hrest, rfl⟩

/-- A whole run: every observation agrees, and the list stands for the partition at the end. -/
theorem Represents.run (h : s.Represents l) (requests : List (Instant × Request V))
    (hf : l.writes.FitsWords s.capacity.toNat s.nextStamp.toNat requests) :
    (s.run requests).1 = (Recency.run s.capacity.toNat l.writes requests).1 ∧
      ∃ m : Stamped V, (s.run requests).2.Represents m ∧
        m.writes = (Recency.run s.capacity.toNat l.writes requests).2 := by
  induction requests generalizing s l with
  | nil => exact ⟨rfl, l, h, rfl⟩
  | cons step rest ih =>
    obtain ⟨now, request⟩ := step
    obtain ⟨hw, hs, hrest⟩ := hf
    obtain ⟨hanswer, m, hm, hwrites⟩ := h.handle now request hw hs
    have hcapacity := capacity_handle s now request
    have hstamp : (s.handle now request).2.nextStamp.toNat = s.nextStamp.toNat +
        (l.writes.handle s.capacity.toNat now request).1.stamps := by
      have hn : ((l.writes.handle s.capacity.toNat now request).1.stamps.toUInt64).toNat =
          (l.writes.handle s.capacity.toNat now request).1.stamps :=
        UInt64.toNat_ofNat_of_lt' (by omega)
      rw [nextStamp_handle, hanswer, UInt64.toNat_add, hn, Nat.mod_eq_of_lt hs]
    rw [← hwrites, ← hstamp, ← hcapacity] at hrest
    obtain ⟨hlater, hfinal⟩ := ih hm hrest
    rw [hcapacity, hwrites] at hlater hfinal
    refine ⟨?_, hfinal⟩
    have hsize : (s.handle now request).2.size =
        (l.writes.handle s.capacity.toNat now request).2.length := by
      rw [← hwrites, Stamped.length_writes]
      exact hm.slots_size
    have hused := hm.weight_eq
    rw [hwrites] at hused
    simp only [Shard.run, Recency.run, hanswer, hsize, hused, hlater]

end Shard

/-- A partition refines its recency list: whatever is asked of it, it answers as the list does and
has the same size and weight after every step. -/
theorem Shard.run_new_eq (capacity : UInt64) (requests : List (Instant × Shard.Request V))
    (h : Recency.FitsWords capacity.toNat 0 [] requests) :
    ((Shard.new capacity : Shard V).run requests).1 =
        (Recency.run capacity.toNat [] requests).1 ∧
      ((Recency.run capacity.toNat ([] : Recency V) requests).2.map Written.key).Nodup := by
  obtain ⟨hanswers, m, hm, hwrites⟩ := (Shard.Represents.new capacity).run requests h
  refine ⟨hanswers, ?_⟩
  have hn := hm.keys_nodup
  change m.writes = (Recency.run capacity.toNat [] requests).2 at hwrites
  rw [← hwrites, Stamped.writes, List.map_map]
  exact hn

/-- Two writes, a hit, a write that drops both older entries, and a look-up that comes too late. -/
def Shard.Request.evicting : List (Instant × Shard.Request Nat) :=
  [(⟨0⟩, .insert ⟨1, "a"⟩ (some 10) ⟨5⟩ 1), (⟨0⟩, .insert ⟨1, "b"⟩ none ⟨0⟩ 1),
    (⟨5⟩, .get ⟨1, "a"⟩), (⟨5⟩, .insert ⟨1, "c"⟩ (some 30) ⟨2⟩ 2), (⟨8⟩, .contains ⟨1, "a"⟩),
    (⟨8⟩, .get ⟨1, "c"⟩)]

theorem Shard.run_new_eq_evicting :
    Recency.FitsWords 2 0 [] Shard.Request.evicting ∧
      ((Shard.new 2).run Shard.Request.evicting).1 =
        [⟨.inserted ⟨false, 0⟩, 1, 1⟩, ⟨.inserted ⟨false, 0⟩, 2, 2⟩,
          ⟨.found (.hit ⟨some 10, ⟨5⟩, some ⟨0⟩⟩), 2, 2⟩, ⟨.inserted ⟨false, 2⟩, 1, 2⟩,
          ⟨.told false, 1, 2⟩, ⟨.found .expired, 0, 0⟩] :=
  ⟨by decide, (Shard.run_new_eq 2 Shard.Request.evicting (by decide)).1.trans (by decide)⟩

end Stockroom
