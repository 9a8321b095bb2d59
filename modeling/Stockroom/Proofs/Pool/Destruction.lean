import Stockroom.Proofs.Pool.Ownership

/-! How resources come to be destroyed: what an instruction, and the turn of a job, destroy and what
they settle for destruction. -/

namespace Stockroom.Pool
set_option autoImplicit false

namespace Sets

variable {s u : Sets} {r : ResourceId}

theorem not_pendingClose_of_active (h : s.members.Nodup) (hr : r ∈ s.active) :
    r ∉ s.pendingClose.keys :=
  fun hp => (List.nodup_append.mp h).2.2 r hr r hp rfl

theorem receive_leaving_not_mem (maxSize : Nat) (h : s.members.Nodup)
    (hr : s.receive maxSize r = .leaving u) : r ∉ u.members := by
  intro hmem
  rcases mem_members.mp hmem with ha | hp
  · exact (receive_leaving_moved maxSize h hr).2 ha
  rw [(receive_leaving_eq maxSize (active_nodup h) hr).2] at hp
  unfold receive at hr
  split at hr
  · cases hr
  split at hr
  · rename_i ho
    exact not_pendingClose_of_active h (mem_active.mpr (Or.inr (Or.inr ho))) hp
  split at hr
  · cases hr
  · rename_i hno
    exact hno (Or.inr (Table.contains_iff_mem_keys.mpr hp))

theorem replace?_not_mem {old new : ResourceId} (h : ([new] ++ s.members).Nodup)
    (hr : s.replace? old new = some u) : old ∉ u.members := by
  obtain ⟨hnew, hmembers⟩ := List.nodup_cons.mp h
  obtain ⟨hidle, hperm, hp⟩ := replace?_perm hr
  have hold : old ∈ s.active := mem_active.mpr (Or.inl hidle)
  intro hmem
  rcases mem_members.mp hmem with ha | hpending
  · rcases List.mem_cons.mp (hperm.subset ha) with rfl | ha
    · exact hnew (mem_members.mpr (Or.inl hold))
    · exact (active_nodup hmembers).not_mem_erase ha
  · rw [hp] at hpending
    exact not_pendingClose_of_active hmembers hold hpending

theorem takeDue_not_mem (h : s.members.Nodup) {limit : Duration} {now : Instant}
    (hr : r ∈ (s.takeDue limit now).1) : r ∉ (s.takeDue limit now).2.members := by
  obtain ⟨⟨x, since⟩, hrow, rfl⟩ := List.mem_map.mp hr
  obtain ⟨hrow, hdue⟩ := List.mem_filter.mp hrow
  intro hmem
  rcases mem_members.mp hmem with ha | hp
  · exact not_pendingClose_of_active h ha (List.mem_map_of_mem hrow)
  · obtain ⟨⟨y, since'⟩, hrow', he⟩ := List.mem_map.mp hp
    obtain ⟨hrow', hnot⟩ := List.mem_filter.mp hrow'
    obtain rfl : y = x := he
    have hsame : since = since' :=
      Option.some.inj ((Table.get?_of_mem hrow).symm.trans (Table.get?_of_mem hrow'))
    rw [← hsame, hdue] at hnot
    cases hnot

end Sets

theorem Stock.isDestroyed_of_le {s : Stock} {r : ResourceId} (h : s.length ≤ r) :
    s.isDestroyed r = true := by
  rw [Stock.isDestroyed, List.getElem?_eq_none h]
  rfl

theorem State.isDestroyed_add (s : State) (now : Instant) (r : ResourceId) :
    (s.add now).2.stock.isDestroyed r = (s.stock.isDestroyed r && r != s.stock.length) := by
  rcases Nat.lt_trichotomy r s.stock.length with hlt | rfl | hgt
  · rw [State.add, Stock.isDestroyed_append _ hlt]
    simp [Nat.ne_of_lt hlt]
  · simp [State.add, Stock.isDestroyed]
  · have hlength : (s.add now).2.stock.length ≤ r := by
      simpa [State.add] using Nat.succ_le_of_lt hgt
    rw [Stock.isDestroyed_of_le hlength, Stock.isDestroyed_of_le (Nat.le_of_lt hgt)]
    simp [Nat.ne_of_gt hgt]

theorem Instr.mem_mentions_of_condemns {i : Instr} : i.condemns ⊆ i.mentions := by
  unfold condemns
  split
  · exact List.Subset.refl _
  · exact List.Subset.refl _
  · exact List.nil_subset _

/-- What is left to do after the first instruction holds no call but health checks. -/
theorem Orderly.call_mem_tail {i : Instr} {rest : List Instr} (h : Orderly (i :: rest))
    {callback : Callback} (hcall : .call callback ∈ rest) : ∃ r, callback = .check r := by
  have hplain : (Instr.call callback).Plain → ∃ r, callback = .check r := by
    intro hplain
    cases callback with
    | check r => exact ⟨r, rfl⟩
    | _ => exact hplain.elim
  cases h with
  | cons _ _ _ hrest _ =>
    rcases hrest.cases_mem hcall with ⟨r, he⟩ | h
    · cases he
    · exact hplain h
  | leaving r rest hrest =>
    rcases List.mem_cons.mp hcall with he | hcall
    · cases he
    · exact hplain (hrest _ hcall)

theorem State.grant_next (s : State) (purpose : Purpose) (x r : ResourceId) :
    .call (.destructor r) ∉ (s.grant purpose x).next := by
  cases purpose <;> simp [grant]

namespace Instr.Leads

variable {now : Instant} {s : State} {i : Instr} {e : Effect} {r : ResourceId}

theorem destructs (h : i.Leads now s e) : e.state.destructs = s.destructs := by
  cases h with
  | checkOut | enroll => rw [state_grant]
  | _ => rfl

/-- What an instruction does to a stock: nothing that matters, a destruction, or a new resource. -/
theorem stock (h : i.Leads now s e) :
    (e.state.stock.length = s.stock.length ∧
        (∀ r, e.state.stock.isDestroyed r = s.stock.isDestroyed r) ∧
        ∀ r, .call (.destructor r) ∉ e.next) ∨
      (∃ r, i = .destroy r ∧ s.stock.isDestroyed r = false ∧
        e.state.stock = s.stock.markDestroyed r ∧
        e.next = if s.destructs then [.call (.destructor r)] else []) ∨
      e.state.stock = (s.add now).2.stock ∧ ∀ r, .call (.destructor r) ∉ e.next := by
  have hnil : ∀ r, .call (.destructor r) ∉ ([] : List Instr) := fun _ => List.not_mem_nil
  have hone : ∀ i : Instr, (∀ r, i ≠ .call (.destructor r)) → ∀ r, .call (.destructor r) ∉ [i] :=
    fun i hi r hr => hi r (List.mem_singleton.mp hr).symm
  have hmap : ∀ (l : List ResourceId) (f : ResourceId → Instr),
      (∀ x r, f x ≠ .call (.destructor r)) → ∀ r, .call (.destructor r) ∉ l.map f := by
    intro l f hf r hr
    obtain ⟨x, -, he⟩ := List.mem_map.mp hr
    exact hf x r he
  cases h with
  | checkOut purpose x sets _ _ =>
    refine Or.inl ⟨?_, fun r => ?_, State.grant_next _ purpose x⟩
    · rw [state_grant]
      exact Stock.length_touch _ _ _
    · rw [state_grant]
      exact Stock.isDestroyed_touch _ _ r _
  | enroll purpose x _ =>
    refine Or.inl ⟨?_, fun r => ?_, State.grant_next _ purpose x⟩
    · rw [state_grant]
    · rw [state_grant]
  | destroy r halive => exact Or.inr (Or.inl ⟨r, rfl, halive, rfl, rfl⟩)
  | made | madeInstead => exact Or.inr (Or.inr ⟨rfl, hone _ fun _ he => by cases he⟩)
  | close | inspect | reclaim | sweep =>
    exact Or.inl ⟨rfl, fun _ => rfl, hmap _ _ fun _ _ he => by cases he⟩
  | claimClosed | keep | giveUp | destroyed | withdraw | closeClosed | notMade | notMadeInstead
  | healthy | destructor | bodyDone | bodyFailed => exact Or.inl ⟨rfl, fun _ => rfl, hnil⟩
  | _ => exact Or.inl ⟨rfl, fun _ => rfl, hone _ fun _ he => by cases he⟩

/-- What is to be destroyed from now on is in no set. -/
theorem condemns (h : i.Leads now s e) (hn : (i.fresh ++ s.sets.members).Nodup) (hs : s.Shut)
    (hr : r ∈ e.next.flatMap Instr.condemns) : r ∈ i.condemns ∨ r ∉ e.state.sets.members := by
  have hmap : ∀ l : List ResourceId, (l.map Instr.destroy).flatMap Instr.condemns = l := by
    intro l
    rw [List.flatMap_map]
    exact List.flatMap_singleton' l
  have hshut : s.sets.closed = true → r ∉ s.sets.members := by
    intro hclosed
    rw [hs hclosed]
    exact List.not_mem_nil
  cases h with
  | enrollClosed _ _ hclosed | putClosed _ _ hclosed | giveUpClosed _ hclosed =>
    exact Or.inr (hshut hclosed)
  | dispose x => exact Or.inl hr
  | leave x d sets _ hreceive =>
    cases d with
    | delayed => cases hr
    | immediate =>
      obtain rfl : r = x := List.mem_singleton.mp hr
      exact Or.inr (Sets.receive_leaving_not_mem _ hn hreceive)
  | close => exact Or.inr List.not_mem_nil
  | exchange old new sets hreplace =>
    obtain rfl : r = old := List.mem_singleton.mp hr
    exact Or.inr (Sets.replace?_not_mem hn hreplace)
  | exchangeGone old new =>
    obtain rfl : r = new := List.mem_singleton.mp hr
    exact Or.inr (List.nodup_cons.mp hn).1
  | sweep =>
    rw [hmap] at hr
    exact Or.inr (Sets.takeDue_not_mem hn hr)
  | inspect | reclaim =>
    rw [List.flatMap_map] at hr
    obtain ⟨x, -, hr⟩ := List.mem_flatMap.mp hr
    cases hr
  | checkOut purpose | enroll purpose => cases purpose <;> cases hr
  | destroy x _ =>
    dsimp only at hr
    split at hr <;> cases hr
  | _ => cases hr

end Instr.Leads

namespace Job

variable {mayCrash : Callback → Prop} {now : Instant} {s : State} {j : Job} {next : State × Job}

theorem invoked_self (j : Job) : j.invoked j = [] := by
  unfold invoked
  split
  · rw [if_pos rfl]
  · rfl

theorem handedOut_self (j : Job) : j.handedOut j = [] := by
  unfold handedOut
  split
  · assumption
  · rfl

theorem gaveUp_self (j : Job) : j.gaveUp j = [] := by
  unfold gaveUp
  split
  · rw [if_pos rfl]
  · rfl

theorem waitsFor_of_todo {callback : Callback} {rest : List Instr}
    (h : j.todo = .call callback :: rest) : j.waitsFor = some callback := by
  rw [waitsFor, h]

theorem Unwound.waitsFor {k : Job} (h : j.Unwound k) : k.waitsFor = none := by
  cases htodo : k.waitsFor with
  | none => rfl
  | some callback =>
    obtain ⟨rest, htodo⟩ := todo_of_waitsFor htodo
    obtain ⟨-, r, he⟩ := h.todo (.call callback) (htodo ▸ List.mem_cons_self)
    cases he

/-- A job that does not call the destructor next has not invoked it. -/
theorem invoked_eq_nil {k : Job} (h : ∀ r, .call (.destructor r) ∉ k.todo) : j.invoked k = [] := by
  unfold invoked
  split
  · rename_i r hwaits
    obtain ⟨rest, htodo⟩ := todo_of_waitsFor hwaits
    exact absurd (htodo ▸ List.mem_cons_self) (h r)
  · rfl

/-- The turn of a job destroys nothing and calls no destructor, or it begins one destruction. -/
theorem Moves.destruction (h : j.Moves mayCrash now s next) (hj : Orderly j.todo) :
    (j.invoked next.2 = [] ∧ ∀ r < next.1.stock.length, next.1.stock.isDestroyed r = true →
      r < s.stock.length ∧ s.stock.isDestroyed r = true) ∨
    ∃ r rest, j.todo = .destroy r :: rest ∧ s.stock.isDestroyed r = false ∧
      next.1.stock = s.stock.markDestroyed r ∧
      j.invoked next.2 = if s.destructs then [r] else [] := by
  rcases h.cases with rfl | ⟨i, rest, e, htodo, hleads, rfl⟩ | ⟨he, hunwound⟩
  · exact Or.inl ⟨j.invoked_self, fun r hlt hr => ⟨hlt, hr⟩⟩
  · have hrest : ∀ r, .call (.destructor r) ∉ rest := by
      intro r hr
      obtain ⟨x, hx⟩ := Orderly.call_mem_tail (htodo ▸ hj) hr
      cases hx
    have hnone : (∀ r, .call (.destructor r) ∉ e.next) → j.invoked (j.follow rest e).2 = [] := by
      intro h
      apply invoked_eq_nil
      intro r hr
      rcases List.mem_append.mp hr with hr | hr
      · exact h r hr
      · exact hrest r hr
    rcases hleads.stock with ⟨hlength, hsame, hcalls⟩ | ⟨r, rfl, halive, hstock, hnext⟩ |
      ⟨hstock, hcalls⟩
    · refine Or.inl ⟨hnone hcalls, fun r hlt hr => ?_⟩
      exact ⟨Nat.lt_of_lt_of_eq hlt hlength, (hsame r).symm.trans hr⟩
    · refine Or.inr ⟨r, rest, htodo, halive, hstock, ?_⟩
      cases hdestructs : s.destructs with
      | true =>
        have hcall : (j.follow rest e).2.todo = .call (.destructor r) :: rest := by
          rw [follow, hnext, hdestructs]
          rfl
        rw [invoked, waitsFor_of_todo hcall, if_pos rfl]
        refine if_neg fun he => ?_
        rw [← he, htodo] at hcall
        cases hcall
      | false =>
        rw [hdestructs] at hnext
        exact hnone (hnext ▸ fun _ => List.not_mem_nil)
    · refine Or.inl ⟨hnone hcalls, fun r hlt hr => ?_⟩
      simp only [follow] at hlt hr
      rw [hstock, State.isDestroyed_add, Bool.and_eq_true, bne_iff_ne] at hr
      rw [hstock, State.add, List.length_append] at hlt
      exact ⟨Nat.lt_of_le_of_ne (Nat.le_of_lt_succ hlt) hr.2, hr.1⟩
  · refine Or.inl ⟨?_, fun r hlt hr => ?_⟩
    · rw [invoked, hunwound.waitsFor]
    · rw [he] at hlt hr
      exact ⟨hlt, hr⟩

theorem mem_condemned {r : ResourceId} : r ∈ j.condemned ↔ ∃ i ∈ j.todo, r ∈ i.condemns :=
  List.mem_flatMap

theorem condemned_subset (j : Job) : j.condemned ⊆ j.mentions := by
  intro r hr
  obtain ⟨i, hi, hr⟩ := mem_condemned.mp hr
  exact List.mem_append_left _ (List.mem_flatMap.mpr ⟨i, hi, i.mem_mentions_of_condemns hr⟩)

theorem Moves.condemned (h : j.Moves mayCrash now s next)
    (hn : (j.fresh ++ s.sets.members).Nodup) (hs : s.Shut) {r : ResourceId}
    (hr : r ∈ next.2.condemned) : r ∈ j.condemned ∨ r ∉ next.1.sets.members := by
  rcases h.cases with rfl | ⟨i, rest, e, htodo, hleads, rfl⟩ | ⟨he, hunwound⟩
  · exact Or.inl hr
  · rw [Job.condemned, follow, List.flatMap_append] at hr
    rw [Job.condemned, htodo, List.flatMap_cons, List.mem_append]
    rcases List.mem_append.mp hr with hr | hr
    · rw [fresh, htodo, List.flatMap_cons] at hn
      have hi : (i.fresh ++ s.sets.members).Nodup :=
        hn.sublist ((List.sublist_append_left _ _).append_right _)
      exact (hleads.condemns hi hs hr).imp_left Or.inl
    · exact Or.inl (Or.inr hr)
  · obtain ⟨i, hi, hr⟩ := mem_condemned.mp hr
    exact Or.inl (mem_condemned.mpr ⟨i, (hunwound.todo i hi).1, hr⟩)

end Job

end Stockroom.Pool
