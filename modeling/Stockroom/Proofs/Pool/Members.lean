import Mathlib.Data.List.Nodup
import Mathlib.Data.List.Pairwise
import Stockroom.Pool.Sets

/-! What each move does to the resources that the sets hold. All but pending close are taken
together: a move between them only rearranges. -/

namespace Stockroom.Pool
set_option autoImplicit false

/-- The places that a resource can be in. -/
inductive Place where
  | idle
  | checkedOut
  | overflow
  | pendingClose
deriving DecidableEq, Repr

namespace Sets

/-- What is in a place. -/
def content (s : Sets) : Place → List ResourceId
  | .idle => s.idle
  | .checkedOut => s.checkedOut
  | .overflow => s.overflow
  | .pendingClose => s.pendingClose.keys

/-- What has not been given up. -/
def active (s : Sets) : List ResourceId := s.idle ++ s.checkedOut ++ s.overflow

def members (s : Sets) : List ResourceId := s.active ++ s.pendingClose.keys

variable {s u : Sets} {r : ResourceId}

theorem mem_active : r ∈ s.active ↔ r ∈ s.idle ∨ r ∈ s.checkedOut ∨ r ∈ s.overflow := by
  simp only [active, List.mem_append, or_assoc]

theorem mem_members : r ∈ s.members ↔ r ∈ s.active ∨ r ∈ s.pendingClose.keys := by
  simp only [members, List.mem_append]

theorem mem_members_iff : r ∈ s.members ↔ ∃ p, r ∈ s.content p := by
  rw [mem_members, mem_active]
  constructor
  · rintro ((h | h | h) | h)
    · exact ⟨.idle, h⟩
    · exact ⟨.checkedOut, h⟩
    · exact ⟨.overflow, h⟩
    · exact ⟨.pendingClose, h⟩
  · rintro ⟨p, h⟩
    cases p with
    | idle => exact Or.inl (Or.inl h)
    | checkedOut => exact Or.inl (Or.inr (Or.inl h))
    | overflow => exact Or.inl (Or.inr (Or.inr h))
    | pendingClose => exact Or.inr h

theorem active_nodup (h : s.members.Nodup) : s.active.Nodup := (List.nodup_append.mp h).1

theorem idle_nodup (h : s.active.Nodup) : s.idle.Nodup :=
  (List.nodup_append.mp (List.nodup_append.mp h).1).1

theorem checkedOut_nodup (h : s.active.Nodup) : s.checkedOut.Nodup :=
  (List.nodup_append.mp (List.nodup_append.mp h).1).2.1

theorem overflow_nodup (h : s.active.Nodup) : s.overflow.Nodup := (List.nodup_append.mp h).2.1

theorem not_checkedOut_of_idle (h : s.active.Nodup) (hi : r ∈ s.idle) : r ∉ s.checkedOut :=
  fun hc => (List.nodup_append.mp (List.nodup_append.mp h).1).2.2 r hi r hc rfl

theorem not_overflow_of_idle (h : s.active.Nodup) (hi : r ∈ s.idle) : r ∉ s.overflow :=
  fun ho => (List.nodup_append.mp h).2.2 r (List.mem_append_left _ hi) r ho rfl

theorem members_eq_flatMap (s : Sets) :
    s.members = [Place.idle, .checkedOut, .overflow, .pendingClose].flatMap s.content := by
  simp [members, active, content]

/-- No resource is in two places. -/
theorem place_unique (h : s.members.Nodup) {p q : Place} (hp : r ∈ s.content p)
    (hq : r ∈ s.content q) : p = q := by
  rw [members_eq_flatMap, List.nodup_flatMap] at h
  have hall : ∀ p : Place, p ∈ [Place.idle, .checkedOut, .overflow, .pendingClose] := by
    intro p
    cases p <;> decide
  by_contra hne
  have hsymm : Std.Symm (Function.onFun List.Disjoint s.content) :=
    ⟨fun _ _ h => List.disjoint_symm h⟩
  exact h.2.forall (hall p) (hall q) hne hp hq

/-- What a move can do: only `fresh` resources become active, only they and `known` ones come
in, and what goes out is in `out`. -/
structure Moved (s u : Sets) (fresh known out : List ResourceId) : Prop where
  nodup : u.members.Nodup
  active : ∀ r ∈ u.active, r ∈ s.active ∨ r ∈ fresh
  members : ∀ r ∈ u.members, r ∈ s.members ∨ r ∈ known ∨ r ∈ fresh
  covers : ∀ r ∈ s.members, r ∈ u.members ∨ r ∈ out

namespace Moved

variable {fresh known out : List ResourceId}

theorem refl (h : s.members.Nodup) (fresh known out : List ResourceId) :
    s.Moved s fresh known out where
  nodup := h
  active _ hr := Or.inl hr
  members _ hr := Or.inl hr
  covers _ hr := Or.inl hr

theorem mono {fresh' known' out' : List ResourceId} (h : s.Moved u fresh known out)
    (hfresh : fresh ⊆ fresh') (hknown : known ⊆ known') (hout : out ⊆ out') :
    s.Moved u fresh' known' out' where
  nodup := h.nodup
  active r hr := (h.active r hr).imp_right (@hfresh r)
  members r hr := (h.members r hr).imp_right (Or.imp (@hknown r) (@hfresh r))
  covers r hr := (h.covers r hr).imp_right (@hout r)

/-- The active ones are rearranged, but that `fresh` comes in and some may go out. -/
theorem of_perm {l : List ResourceId} (hn : (fresh ++ s.members).Nodup)
    (hperm : u.active.Perm (fresh ++ l)) (hl : l.Sublist s.active)
    (hout : ∀ r ∈ s.active, r ∈ l ∨ r ∈ out) (hp : u.pendingClose = s.pendingClose) :
    s.Moved u fresh [] out where
  nodup := by
    apply ((hperm.append_right u.pendingClose.keys).nodup_iff).mpr
    rw [hp, List.append_assoc]
    exact hn.sublist ((hl.append_right _).append_left _)
  active r hr := by
    rcases List.mem_append.mp (hperm.subset hr) with hr | hr
    · exact Or.inr hr
    · exact Or.inl (hl.subset hr)
  members r hr := by
    rcases mem_members.mp hr with hr | hr
    · rcases List.mem_append.mp (hperm.subset hr) with hr | hr
      · exact Or.inr (Or.inr hr)
      · exact Or.inl (mem_members.mpr (Or.inl (hl.subset hr)))
    · exact Or.inl (mem_members.mpr (Or.inr (hp ▸ hr)))
  covers r hr := by
    rcases mem_members.mp hr with hr | hr
    · rcases hout r hr with hr | hr
      · exact Or.inl (mem_members.mpr (Or.inl (hperm.symm.subset (List.mem_append_right _ hr))))
      · exact Or.inr hr
    · exact Or.inl (mem_members.mpr (Or.inr (hp.symm ▸ hr)))

/-- The same when one resource may go out. -/
theorem of_erase (hn : (fresh ++ s.members).Nodup)
    (hperm : u.active.Perm (fresh ++ s.active.erase r)) (hp : u.pendingClose = s.pendingClose) :
    s.Moved u fresh [] [r] := by
  apply of_perm hn hperm List.erase_sublist _ hp
  intro x hx
  by_cases he : x = r
  · exact Or.inr (List.mem_singleton.mpr he)
  · exact Or.inl ((List.mem_erase_of_ne he).mpr hx)

end Moved

/-! ### Lending and returning -/

theorem eq_of_checkOut? (hout : s.checkOut? = some (r, u)) :
    s.idle.getLast? = some r ∧
      u = { s with idle := s.idle.dropLast, checkedOut := s.checkedOut.insert r } := by
  obtain ⟨x, hlast, he⟩ := Option.map_eq_some_iff.mp hout
  obtain ⟨rfl, rfl⟩ := Prod.mk.inj he
  exact ⟨hlast, rfl⟩

theorem checkOut?_moved (h : s.members.Nodup) (hout : s.checkOut? = some (r, u)) :
    s.Moved u [] [] [] ∧ r ∈ s.members := by
  obtain ⟨hlast, rfl⟩ := eq_of_checkOut? hout
  have hidle : s.idle = s.idle.dropLast ++ [r] :=
    (List.dropLast_append_getLast? r hlast).symm
  have hx : r ∈ s.idle := List.mem_of_getLast? hlast
  refine ⟨?_, mem_members.mpr (Or.inl (mem_active.mpr (Or.inl hx)))⟩
  refine Moved.of_perm h ?_ (List.Sublist.refl s.active) (fun _ => Or.inl) rfl
  simp only [active, List.nil_append]
  rw [List.insert_of_not_mem (not_checkedOut_of_idle (active_nodup h) hx)]
  apply List.Perm.append_right
  conv_rhs => rw [hidle]
  rw [List.append_assoc]
  exact List.Perm.refl _

theorem enroll_perm (maxSize : Nat) (hr : r ∉ s.active) :
    (s.enroll maxSize r).active.Perm (r :: s.active) := by
  have hc : r ∉ s.checkedOut := fun hc => hr (mem_active.mpr (Or.inr (Or.inl hc)))
  have ho : r ∉ s.overflow := fun ho => hr (mem_active.mpr (Or.inr (Or.inr ho)))
  unfold enroll
  split
  · simp only [active, List.insert_of_not_mem ho]
    exact List.perm_middle
  · simp only [active, List.insert_of_not_mem hc]
    rw [List.append_assoc, List.append_assoc]
    exact List.perm_middle

theorem enroll_pendingClose (s : Sets) (maxSize : Nat) (r : ResourceId) :
    (s.enroll maxSize r).pendingClose = s.pendingClose := by
  unfold enroll
  split <;> rfl

theorem enroll_moved (maxSize : Nat) (h : ([r] ++ s.members).Nodup) :
    s.Moved (s.enroll maxSize r) [r] [] [] ∧ r ∈ (s.enroll maxSize r).members := by
  have hr : r ∉ s.active := fun ha =>
    (List.nodup_cons.mp h).1 (mem_members.mpr (Or.inl ha))
  have hperm := enroll_perm maxSize hr
  constructor
  · exact Moved.of_perm h hperm (List.Sublist.refl _) (fun _ => Or.inl)
      (enroll_pendingClose s maxSize r)
  · exact mem_members.mpr (Or.inl (hperm.symm.subset List.mem_cons_self))

/-- Taken from one set and appended to the idle ones. -/
theorem perm_erase_appendNew {l m : List ResourceId} (hm : r ∈ m) (hl : r ∉ l) :
    (appendNew r l ++ m.erase r).Perm (l ++ m) := by
  rw [appendNew, if_neg hl, List.append_assoc]
  exact List.Perm.append_left _ (List.perm_cons_erase hm).symm

theorem receive_kept_moved (maxSize : Nat) (h : s.members.Nodup)
    (hr : s.receive maxSize r = .kept u) : s.Moved u [] [] [] := by
  have ha := active_nodup h
  unfold receive at hr
  split at hr
  · rename_i hc
    obtain rfl := Reception.kept.inj hr
    refine Moved.of_perm h ?_ (List.Sublist.refl s.active) (fun _ => Or.inl) rfl
    have hi : r ∉ s.idle := fun hi => not_checkedOut_of_idle ha hi hc
    exact (perm_erase_appendNew hc hi).append_right _
  · split at hr
    · rename_i ho
      split at hr
      · obtain rfl := Reception.kept.inj hr
        refine Moved.of_perm h ?_ (List.Sublist.refl s.active) (fun _ => Or.inl) rfl
        have hi : r ∉ s.idle := fun hi => not_overflow_of_idle ha hi ho
        simp only [active, List.append_assoc, List.nil_append]
        refine (List.perm_append_comm_assoc _ _ _).trans ?_
        refine ((perm_erase_appendNew ho hi).append_left _).trans ?_
        exact List.perm_append_comm_assoc _ _ _
      · cases hr
    · split at hr
      · obtain rfl := Reception.kept.inj hr
        exact Moved.refl h _ _ _
      · cases hr

theorem receive_leaving_eq (maxSize : Nat) (h : s.active.Nodup)
    (hr : s.receive maxSize r = .leaving u) :
    u.active = s.active.erase r ∧ u.pendingClose = s.pendingClose := by
  unfold receive at hr
  split at hr
  · cases hr
  · rename_i hc
    split at hr
    · rename_i ho
      split at hr
      · cases hr
      · obtain rfl := Reception.leaving.inj hr
        have hi : r ∉ s.idle := fun hi => not_overflow_of_idle h hi ho
        refine ⟨?_, rfl⟩
        simp only [active]
        rw [List.erase_append_right _ (by simp [hi, hc])]
    · rename_i ho
      split at hr
      · cases hr
      · rename_i hi
        obtain rfl := Reception.leaving.inj hr
        refine ⟨(List.erase_of_not_mem ?_).symm, rfl⟩
        rw [mem_active]
        exact fun ha => ha.elim (fun ha => hi (Or.inl ha)) (fun ha => ha.elim hc ho)

theorem receive_leaving_moved (maxSize : Nat) (h : s.members.Nodup)
    (hr : s.receive maxSize r = .leaving u) : s.Moved u [] [] [r] ∧ r ∉ u.active := by
  have ha := active_nodup h
  obtain ⟨hactive, hp⟩ := receive_leaving_eq maxSize ha hr
  constructor
  · exact Moved.of_erase h (hactive ▸ List.Perm.refl _) hp
  · rw [hactive]
    exact ha.not_mem_erase

/-! ### Giving up -/

theorem withdraw_active (h : s.active.Nodup) (r : ResourceId) :
    (s.withdraw r).active = s.active.erase r := by
  simp only [active, withdraw]
  rw [(idle_nodup h).erase_eq_filter, (checkedOut_nodup h).erase_eq_filter,
    (overflow_nodup h).erase_eq_filter]
  exact (by simpa only [active, List.filter_append] using (h.erase_eq_filter r).symm)

theorem withdraw_moved (h : s.members.Nodup) (r : ResourceId) :
    s.Moved (s.withdraw r) [] [] [r] ∧ r ∉ (s.withdraw r).active := by
  have ha := active_nodup h
  have hactive := withdraw_active ha r
  constructor
  · exact Moved.of_erase h (hactive ▸ List.Perm.refl _) rfl
  · rw [hactive]
    exact ha.not_mem_erase

theorem giveUp_keys (s : Sets) (r : ResourceId) (now : Instant) :
    (s.giveUp r now).pendingClose.keys = (s.pendingClose.keys.filter fun x => x ≠ r) ++ [r] := by
  rw [giveUp, Table.keys, Table.rows_insert, List.map_append, ← Table.rows_erase, ← Table.keys,
    Table.keys_erase]
  rfl

theorem giveUp_moved (h : s.members.Nodup) (hr : r ∉ s.active) (now : Instant) :
    s.Moved (s.giveUp r now) [] [r] [] ∧ r ∈ (s.giveUp r now).members := by
  have hmem : ∀ x, x ∈ (s.giveUp r now).members ↔ x ∈ s.members ∨ x = r := by
    intro x
    rw [mem_members, mem_members, giveUp_keys, List.mem_append, List.mem_filter,
      List.mem_singleton]
    by_cases he : x = r
    · simp [he]
    · simp [he, giveUp, active]
  constructor
  · constructor
    · refine List.nodup_append.mpr ⟨(active_nodup h :), (s.giveUp r now).pendingClose.distinct, ?_⟩
      intro x hx y hy
      have hy' := List.mem_append.mp (giveUp_keys s r now ▸ hy)
      rcases hy' with hy' | hy'
      · exact (List.nodup_append.mp h).2.2 x hx y (List.mem_of_mem_filter hy')
      · intro he
        exact hr (List.mem_singleton.mp hy' ▸ he ▸ hx)
    · exact fun x hx => Or.inl hx
    · intro x hx
      rcases (hmem x).mp hx with hx | hx
      · exact Or.inl hx
      · exact Or.inr (Or.inl (List.mem_singleton.mpr hx))
    · exact fun x hx => Or.inl ((hmem x).mpr (Or.inl hx))
  · exact (hmem r).mpr (Or.inr rfl)

/-! ### Replacing, sweeping and closing -/

theorem replace?_perm {old new : ResourceId} (hr : s.replace? old new = some u) :
    old ∈ s.idle ∧ u.active.Perm (new :: s.active.erase old) ∧
      u.pendingClose = s.pendingClose := by
  unfold replace? at hr
  split at hr
  · rename_i hold
    simp only [Bool.and_eq_true, List.contains_iff_mem] at hold
    obtain ⟨-, hold⟩ := hold
    obtain rfl := Option.some.inj hr
    refine ⟨hold, ?_, rfl⟩
    simp only [active]
    rw [exchange_eq_set hold, List.append_assoc, List.append_assoc,
      List.erase_append_left _ hold, ← List.cons_append]
    apply List.Perm.append_right
    have hi : s.idle.idxOf old < s.idle.length := List.idxOf_lt_length_of_mem hold
    rw [List.erase_eq_eraseIdx_of_idxOf rfl, List.set_eq_take_append_cons_drop, if_pos hi,
      List.eraseIdx_eq_take_drop_succ]
    exact List.perm_middle
  · cases hr

theorem replace?_moved {old new : ResourceId} (h : ([new] ++ s.members).Nodup)
    (hr : s.replace? old new = some u) :
    s.Moved u [new] [] [old] ∧ new ∈ u.members := by
  obtain ⟨-, hperm, hp⟩ := replace?_perm hr
  constructor
  · exact Moved.of_erase h hperm hp
  · exact mem_members.mpr (Or.inl (hperm.symm.subset List.mem_cons_self))

theorem takeDue_moved (h : s.members.Nodup) (limit : Duration) (now : Instant) :
    s.Moved (s.takeDue limit now).2 [] [] (s.takeDue limit now).1 := by
  have hsub : (s.takeDue limit now).2.members.Sublist s.members :=
    (List.filter_sublist.map Prod.fst).append_left _
  constructor
  · exact h.sublist hsub
  · exact fun r hr => Or.inl hr
  · exact fun r hr => Or.inl (hsub.subset hr)
  · intro r hr
    rcases mem_members.mp hr with hr | hr
    · exact Or.inl (mem_members.mpr (Or.inl hr))
    obtain ⟨row, hrow, rfl⟩ := List.mem_map.mp hr
    cases hdue : isOver limit row.2 now with
    | true => exact Or.inr (List.mem_map_of_mem (List.mem_filter.mpr ⟨hrow, hdue⟩))
    | false =>
      refine Or.inl (mem_members.mpr (Or.inr ?_))
      exact List.mem_map_of_mem (List.mem_filter.mpr ⟨hrow, by simp [hdue]⟩)

theorem takeDue_subset (s : Sets) (limit : Duration) (now : Instant) :
    (s.takeDue limit now).1 ⊆ s.members :=
  fun _ hr => mem_members.mpr (Or.inr ((List.filter_sublist.map Prod.fst).subset hr))

theorem close_moved (s : Sets) : s.Moved s.close.2 [] [] s.close.1 where
  nodup := List.nodup_nil
  active _ hr := nomatch hr
  members _ hr := nomatch hr
  covers _ hr := Or.inr hr

end Sets

end Stockroom.Pool
