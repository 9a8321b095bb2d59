import Stockroom.Pool.Returns
import Stockroom.Proofs.Pool.Checking

/-! Idle resources lie in the order in which they were returned, and the last of them is lent first.
Nothing changes their order while they are idle. -/

namespace Stockroom.Pool
set_option autoImplicit false

/-! ### What an instruction does to the idle resources -/

namespace Sets

variable {s u : Sets} {maxSize : Nat} {r : ResourceId}

theorem idle_receive_kept (h : s.receive maxSize r = .kept u) :
    u.idle = s.idle ∨ r ∉ s.idle ∧ u.idle = s.idle ++ [r] := by
  have happend : appendNew r s.idle = s.idle ∨ r ∉ s.idle ∧ appendNew r s.idle = s.idle ++ [r] := by
    by_cases hr : r ∈ s.idle
    · exact Or.inl (if_pos hr)
    · exact Or.inr ⟨hr, if_neg hr⟩
  unfold receive at h
  split at h
  · cases h
    exact happend
  split at h
  · split at h
    · cases h
      exact happend
    · cases h
  split at h
  · cases h
    exact Or.inl rfl
  · cases h

theorem idle_receive_leaving (h : s.receive maxSize r = .leaving u) : u.idle = s.idle := by
  unfold receive at h
  split at h
  · cases h
  split at h
  · split at h
    · cases h
    · cases h
      rfl
  split at h
  · cases h
  · cases h
    rfl

theorem checkOut?_of_concat {front : List ResourceId} (h : s.idle = front ++ [r]) :
    s.checkOut? = some (r, { s with idle := front, checkedOut := s.checkedOut.insert r }) := by
  rw [checkOut?, h, List.getLast?_concat, List.dropLast_concat]
  rfl

end Sets

/-- Who asks an open pool gets the last of the idle resources. -/
theorem run_claim_of_concat {s : State} {front : List ResourceId} {r : ResourceId}
    (hopen : s.sets.closed = false) (h : s.sets.idle = front ++ [r]) (now : Instant)
    (purpose : Purpose) : (Instr.claim purpose).run now s = State.grant { s with
      sets := { s.sets with idle := front, checkedOut := s.sets.checkedOut.insert r }
      stock := s.stock.touch r now } purpose r := by
  rw [Instr.run, hopen, Sets.checkOut?_of_concat h]
  rfl

/-- What is idle stays in its order, but for one that is put at the end, or into the place of
another. -/
theorem Instr.Leads.idle {now : Instant} {s : State} {i : Instr} {e : Effect}
    (h : i.Leads now s e) : e.state.sets.idle.Sublist s.sets.idle ∨
      (∃ r d, i = .put r d ∧ r ∉ s.sets.idle ∧ e.state.sets.idle = s.sets.idle ++ [r]) ∨
      ∃ old new front back, i = .exchange old new ∧ s.sets.idle = front ++ old :: back ∧
        e.state.sets.idle = front ++ new :: back := by
  cases h with
  | checkOut purpose r sets _ hout =>
    rw [state_grant, (Sets.eq_of_checkOut? hout).2]
    exact Or.inl (List.dropLast_sublist _)
  | enroll purpose r _ =>
    rw [state_grant]
    refine Or.inl ?_
    dsimp only
    unfold Sets.enroll
    split
    · exact List.Sublist.refl _
    · exact List.Sublist.refl _
  | keep r d sets _ hreceive =>
    rcases Sets.idle_receive_kept hreceive with hsame | ⟨hnot, hlast⟩
    · exact Or.inl (hsame ▸ List.Sublist.refl _)
    · exact Or.inr (Or.inl ⟨r, d, rfl, hnot, hlast⟩)
  | leave r d sets _ hreceive =>
    exact Or.inl (Sets.idle_receive_leaving hreceive ▸ List.Sublist.refl _)
  | withdraw r => exact Or.inl List.erase_sublist
  | close => exact Or.inl (List.nil_sublist _)
  | exchange old new sets hreplace =>
    unfold Sets.replace? at hreplace
    split at hreplace
    · rename_i hfound
      obtain rfl := Option.some.inj hreplace
      have hold : old ∈ s.sets.idle := by simpa using (Bool.and_eq_true_iff.mp hfound).2
      obtain ⟨front, back, hidle, hexchange⟩ := Sets.exists_exchange_eq hold new
      exact Or.inr (Or.inr ⟨old, new, front, back, rfl, hidle, hexchange⟩)
    · cases hreplace
  | _ => exact Or.inl (List.Sublist.refl _)

/-! ### Numbers -/

namespace Returns

variable {t u : Traffic} {n : Returns} {r x : ResourceId}

theorem number_assign_of_ne (hx : x ≠ r) (k : Nat) : (n.assign r k).number x = n.number x :=
  if_neg hx

theorem number_assign_self (n : Returns) (r : ResourceId) (k : Nat) :
    (n.assign r k).number r = k := if_pos rfl

theorem number_enter_of_ne (hx : x ≠ r) : (n.enter t u r).number x = n.number x := by
  unfold enter
  split <;> exact number_assign_of_ne hx _

/-- What is idle already keeps its number. -/
theorem number_after (hx : x ∈ t.state.sets.idle) : (n.after t u).number x = n.number x := by
  have hkeep : ∀ (l : List ResourceId) (n : Returns), (∀ r ∈ l, x ≠ r) →
      (l.foldl (enter t u) n).number x = n.number x := by
    intro l
    induction l with
    | nil => exact fun _ _ => rfl
    | cons r l ih =>
      intro n hl
      rw [List.foldl_cons, ih _ fun r hr => hl r (List.mem_cons_of_mem _ hr)]
      exact number_enter_of_ne (hl r List.mem_cons_self)
  apply hkeep
  rintro r hr rfl
  exact absurd hx (by simpa using (List.mem_filter.mp hr).2)

theorem after_of_subset (h : u.state.sets.idle ⊆ t.state.sets.idle) : n.after t u = n := by
  have hnone : u.state.sets.idle.filter (· ∉ t.state.sets.idle) = [] :=
    List.filter_eq_nil_iff.mpr fun r hr => by simpa using h hr
  rw [after, hnone, List.foldl_nil]

/-- One resource has become idle. -/
theorem after_of_entered {front back : List ResourceId}
    (hu : u.state.sets.idle = front ++ r :: back) (hr : r ∉ t.state.sets.idle)
    (hfront : front ⊆ t.state.sets.idle) (hback : back ⊆ t.state.sets.idle) :
    n.after t u = n.enter t u r := by
  have hnone : ∀ {l : List ResourceId}, l ⊆ t.state.sets.idle →
      l.filter (· ∉ t.state.sets.idle) = [] := fun hl =>
    List.filter_eq_nil_iff.mpr fun r hr => by simpa using hl hr
  have hone : u.state.sets.idle.filter (· ∉ t.state.sets.idle) = [r] := by
    rw [hu, List.filter_append, List.filter_cons, hnone hfront, hnone hback,
      if_pos (decide_eq_true hr), List.nil_append]
  rw [after, hone]
  rfl

/-- A resource has been put at the end. -/
theorem after_of_returned (h : Traffic.between (Job.exchangedFor r) t u = [])
    (hr : r ∉ t.state.sets.idle) (hu : u.state.sets.idle = t.state.sets.idle ++ [r]) :
    n.after t u = { n.assign r (n.count + 1) with count := n.count + 1 } := by
  rw [after_of_entered hu hr (List.Subset.refl _) (List.nil_subset _), enter, h]

/-- A resource has been put into the place of another. -/
theorem after_of_exchanged {old : ResourceId} {front back : List ResourceId}
    (h : Traffic.between (Job.exchangedFor r) t u = [old]) (hr : r ∉ t.state.sets.idle)
    (ht : t.state.sets.idle = front ++ old :: back)
    (hu : u.state.sets.idle = front ++ r :: back) :
    n.after t u = n.assign r (n.number old) := by
  have hfront : front ⊆ t.state.sets.idle := ht ▸ List.subset_append_left _ _
  have hback : back ⊆ t.state.sets.idle := fun x hx =>
    ht ▸ List.mem_append_right _ (List.mem_cons_of_mem old hx)
  rw [after_of_entered hu hr hfront hback, enter, h]

theorem along_append (path : List (Traffic × Traffic)) (t u : Traffic) :
    along (path ++ [(t, u)]) = (along path).after t u := by
  rw [along, List.foldl_append]
  rfl

end Returns

/-- The numbers of idle resources grow, and there has been a return for each. -/
structure Numbered (n : Returns) (idle : List ResourceId) : Prop where
  grow : idle.Pairwise fun a b => n.number a < n.number b
  bound : ∀ r ∈ idle, n.number r ≤ n.count

namespace Numbered

variable {n : Returns} {idle : List ResourceId} {r : ResourceId}

theorem sublist (h : Numbered n idle) {l : List ResourceId} (hl : l.Sublist idle) :
    Numbered n l where
  grow := h.grow.sublist hl
  bound r hr := h.bound r (hl.subset hr)

/-- A resource is returned: no number is greater than its own. -/
theorem returned (h : Numbered n idle) (hr : r ∉ idle) :
    Numbered { n.assign r (n.count + 1) with count := n.count + 1 } (idle ++ [r]) := by
  have hold : ∀ x ∈ idle, (n.assign r (n.count + 1)).number x = n.number x := fun x hx =>
    Returns.number_assign_of_ne (ne_of_mem_of_not_mem hx hr) _
  have hnew := n.number_assign_self r (n.count + 1)
  constructor
  · refine List.pairwise_append.mpr ⟨h.grow.imp_of_mem fun hx hy hlt => ?_,
      List.pairwise_singleton _ r, fun x hx y hy => ?_⟩
    · exact (hold _ hx).symm ▸ (hold _ hy).symm ▸ hlt
    · rw [List.mem_singleton.mp hy]
      dsimp only
      rw [hold x hx, hnew]
      exact Nat.lt_succ_of_le (h.bound x hx)
  · intro x hx
    dsimp only
    rcases List.mem_append.mp hx with hx | hx
    · rw [hold x hx]
      exact Nat.le_succ_of_le (h.bound x hx)
    · exact Nat.le_of_eq (List.mem_singleton.mp hx ▸ hnew)

/-- A resource takes the place of another, and its number. -/
theorem exchanged {front back : List ResourceId} {old new : ResourceId}
    (h : Numbered n (front ++ old :: back)) (hnew : new ∉ front ++ old :: back) :
    Numbered (n.assign new (n.number old)) (front ++ new :: back) := by
  have hold : ∀ x ∈ front ++ old :: back,
      (n.assign new (n.number old)).number x = n.number x := fun x hx =>
    Returns.number_assign_of_ne (ne_of_mem_of_not_mem hx hnew) _
  have hsame : (front ++ new :: back).map (n.assign new (n.number old)).number =
      (front ++ old :: back).map n.number := by
    rw [List.map_append, List.map_cons, List.map_append, List.map_cons]
    have hfront := List.map_congr_left fun x hx => hold x (List.mem_append_left _ hx)
    have hback := List.map_congr_left fun x hx =>
      hold x (List.mem_append_right _ (List.mem_cons_of_mem old hx))
    rw [hfront, hback, n.number_assign_self]
  constructor
  · rw [← List.pairwise_map, hsame, List.pairwise_map]
    exact h.grow
  · intro x hx
    have hmem : (n.assign new (n.number old)).number x ∈
        (front ++ new :: back).map (n.assign new (n.number old)).number := List.mem_map_of_mem hx
    rw [hsame] at hmem
    obtain ⟨y, hy, he⟩ := List.mem_map.mp hmem
    rw [← he]
    exact h.bound y hy

end Numbered

/-! ### One step -/

namespace Traffic

variable {mayCrash : Callback → Prop} {t u v : Traffic} {path later : List (Traffic × Traffic)}
  {j : Job} {i : Nat} {r a b : ResourceId}

theorem exchangedFor_self (r : ResourceId) (j : Job) : j.exchangedFor r j = [] := by
  unfold Job.exchangedFor
  split
  · exact if_neg fun h => h.2 rfl
  · rfl

/-- What a step does to the idle resources: it removes some of them, or one is handed in, or one
takes the place of another. -/
inductive Shifts (t u : Traffic) : Prop where
  | removes : u.state.sets.idle.Sublist t.state.sets.idle → Shifts t u
  | returns (i : Nat) (r : ResourceId) (d : Disposal) : Does i (.put r d) t u →
      between (Job.exchangedFor r) t u = [] → r ∉ t.state.sets.idle →
      u.state.sets.idle = t.state.sets.idle ++ [r] → Shifts t u
  | replaces (i : Nat) (old new : ResourceId) (front back : List ResourceId) :
      Does i (.exchange old new) t u → between (Job.exchangedFor new) t u = [old] →
      new ∉ t.state.sets.idle → t.state.sets.idle = front ++ old :: back →
      u.state.sets.idle = front ++ new :: back → Shifts t u

theorem Owned.shifts (howned : t.Owned) (hnext : Next mayCrash t u) : Shifts t u := by
  rcases next_cases hnext with ⟨op, -, rfl⟩ | ⟨before, after, j, next, hjobs, hmoves, rfl⟩ |
    ⟨later, stock, -, -, rfl⟩
  · exact .removes (List.Sublist.refl _)
  · rcases hmoves.cases with rfl | ⟨instr, rest, e, htodo, hleads, rfl⟩ | ⟨he, -⟩
    · exact .removes (List.Sublist.refl _)
    · have hbetween (r : ResourceId) :
          between (Job.exchangedFor r) t (t.proceed before after (j.follow rest e)) =
            j.exchangedFor r (j.follow rest e).2 := between_proceed (exchangedFor_self r) hjobs
      rcases hleads.idle with hremoves | ⟨r, d, rfl, hnot, hidle⟩ |
        ⟨old, new, front, back, rfl, hbefore, hidle⟩
      · exact .removes hremoves
      · refine .returns _ r d (does_proceed hjobs hmoves htodo nofun) ?_ hnot hidle
        rw [hbetween, Job.exchangedFor, htodo]
      · refine .replaces _ old new front back (does_proceed hjobs hmoves htodo nofun) ?_
          (howned.not_mem_idle_of_exchange (getElem?_of_jobs hjobs) htodo) hbefore hidle
        rw [hbetween, Job.exchangedFor, htodo]
        exact if_pos ⟨rfl, (hmoves.ne htodo nofun).symm⟩
    · refine .removes ?_
      change next.1.sets.idle.Sublist _
      rw [he]
  · exact .removes (List.Sublist.refl _)

/-- The numbers go on growing. -/
theorem Shifts.numbered {n : Returns} (h : Shifts t u) (hn : Numbered n t.state.sets.idle) :
    Numbered (n.after t u) u.state.sets.idle := by
  cases h with
  | removes hsub =>
    rw [Returns.after_of_subset hsub.subset]
    exact hn.sublist hsub
  | returns i r d _ hbetween hnot hidle =>
    rw [Returns.after_of_returned hbetween hnot hidle, hidle]
    exact hn.returned hnot
  | replaces i old new front back _ hbetween hnot hbefore hidle =>
    rw [Returns.after_of_exchanged hbetween hnot hbefore hidle, hidle]
    exact Numbered.exchanged (hbefore ▸ hn) (hbefore ▸ hnot)

/-- What becomes idle is handed in and has the next number, or it replaces another resource and has
the number of that one. -/
theorem Shifts.enters {n : Returns} (h : Shifts t u) (hr : r ∈ u.state.sets.idle)
    (hnot : r ∉ t.state.sets.idle) :
    (∃ i d, Does i (.put r d) t u ∧ (n.after t u).number r = n.count + 1) ∨
      ∃ i old, Does i (.exchange old r) t u ∧ old ∈ t.state.sets.idle ∧
        (n.after t u).number r = n.number old := by
  cases h with
  | removes hsub => exact absurd (hsub.subset hr) hnot
  | returns i x d hdoes hbetween hx hidle =>
    obtain rfl : r = x := by
      rw [hidle] at hr
      exact List.mem_singleton.mp ((List.mem_append.mp hr).resolve_left hnot)
    refine Or.inl ⟨i, d, hdoes, ?_⟩
    rw [Returns.after_of_returned hbetween hx hidle]
    exact n.number_assign_self r (n.count + 1)
  | replaces i old new front back hdoes hbetween hnew hbefore hidle =>
    obtain rfl : r = new := by
      rw [hbefore] at hnot
      rw [hidle] at hr
      rcases List.mem_append.mp hr with hr | hr
      · exact absurd (List.mem_append_left _ hr) hnot
      · exact (List.mem_cons.mp hr).resolve_right fun hr =>
          hnot (List.mem_append_right _ (List.mem_cons_of_mem old hr))
    refine Or.inr ⟨i, old, hdoes, hbefore ▸ List.mem_append_right _ List.mem_cons_self, ?_⟩
    rw [Returns.after_of_exchanged hbetween hnew hbefore hidle]
    exact n.number_assign_self r (n.number old)

/-! ### Runs -/

section
variable {name : String} {limits : Limits} {destructs : Bool} {stock : Stock}

theorem numbered_of_run (h : Run mayCrash (.new name limits destructs stock) path t) :
    Numbered (Returns.along path) t.state.sets.idle := by
  induction h with
  | refl => exact ⟨List.Pairwise.nil, nofun⟩
  | next hrun hnext _ ih =>
    rw [Returns.along_append]
    exact ((Lendable.of_run hrun).1.shifts hnext).numbered ih

/-- What stays idle keeps its number. -/
theorem number_along (hrun : Run mayCrash t later u) (ha : a ∈ t.state.sets.idle)
    (hstays : ∀ p ∈ later, a ∈ p.2.state.sets.idle) :
    a ∈ u.state.sets.idle ∧
      (Returns.along (path ++ later)).number a = (Returns.along path).number a := by
  induction hrun with
  | refl => exact ⟨ha, by rw [List.append_nil]⟩
  | @next later u v _ _ _ ih =>
    obtain ⟨hidle, hsame⟩ := ih fun p hp => hstays p (List.mem_append_left _ hp)
    refine ⟨hstays (u, v) (List.mem_append_right _ List.mem_cons_self), ?_⟩
    rw [← List.append_assoc, Returns.along_append, Returns.number_after hidle, hsame]

/-- The order of idle resources is that of their numbers. -/
theorem before_iff {n : Returns} (hn : Numbered n t.state.sets.idle) (ha : a ∈ t.state.sets.idle)
    (hb : b ∈ t.state.sets.idle) : t.Before a b ↔ n.number a < n.number b := by
  constructor
  · intro h
    have hpair : [a, b].Pairwise fun a b => n.number a < n.number b := hn.grow.sublist h
    exact (List.pairwise_cons.mp hpair).1 b List.mem_cons_self
  · intro hlt
    obtain ⟨front, back, hidle⟩ := List.append_of_mem ha
    have hgrow := hn.grow
    rw [hidle] at hgrow hb
    have hback : b ∈ back := by
      rcases List.mem_append.mp hb with hfront | hrest
      · exact absurd ((List.pairwise_append.mp hgrow).2.2 b hfront a List.mem_cons_self)
          (Nat.lt_asymm hlt)
      · exact (List.mem_cons.mp hrest).resolve_left fun he => Nat.lt_irrefl _ (he ▸ hlt)
    rw [Before, hidle]
    have hpair : [a, b].Sublist (a :: back) := (List.singleton_sublist.mpr hback).cons_cons a
    exact hpair.trans (List.sublist_append_right front _)

/-! ### Checking out -/

/-- A job that does not wait can go on. -/
theorem exists_next (mayCrash : Callback → Prop) {instr : Instr} {rest : List Instr}
    (hj : t.jobs[i]? = some j) (htodo : j.todo = instr :: rest)
    (hcall : ∀ callback, instr ≠ .call callback) :
    ∃ u, Next mayCrash t u ∧ u.jobs[i]? ≠ t.jobs[i]? := by
  obtain ⟨hi, hget⟩ := List.getElem?_eq_some_iff.mp hj
  have hjobs : t.jobs = t.jobs.take i ++ j :: t.jobs.drop (i + 1) := by
    rw [← hget, ← List.drop_eq_getElem_cons hi, List.take_append_drop]
  have hlength : (t.jobs.take i).length = i := List.length_take_of_le (Nat.le_of_lt hi)
  have hmoves : j.Moves mayCrash t.now t.state (j.step t.now t.state) := .step
  refine ⟨_, .step _ _ j hjobs, ?_⟩
  obtain ⟨k, -, hk, -, hne⟩ := does_proceed hjobs hmoves htodo hcall
  rw [hlength] at hk hne
  exact hk ▸ hne

/-- Whoever asks an open pool in which resources are idle gets the one that was returned last. -/
theorem lendsLast_of_next {n : Returns} (hn : Numbered n t.state.sets.idle) (howned : t.Owned)
    {purpose : Purpose} (hopen : t.state.sets.closed = false) (hidle : t.state.sets.idle ≠ [])
    (hj : t.jobs[i]? = some { todo := [.claim purpose] }) (hnext : Next mayCrash t u)
    (hmoved : u.jobs[i]? ≠ t.jobs[i]?) : ∃ r, LendsLast n.number i purpose t u r := by
  obtain ⟨before, after, next, hjobs, rfl, hmoves, rfl⟩ := moves_of_ne hnext hj (hj ▸ hmoved)
  have hfollow := hmoves.eq_follow rfl nofun
  obtain ⟨front, r, hfront⟩ := (List.eq_nil_or_concat t.state.sets.idle).resolve_left hidle
  rw [List.concat_eq_append] at hfront
  have hr : r ∈ t.state.sets.idle := hfront ▸ List.mem_append_right _ List.mem_cons_self
  have hlt : r < t.state.stock.length := howned.known r (howned.members
    (Sets.mem_members.mpr (Or.inl (Sets.mem_active.mpr (Or.inl hr)))))
  have hgrow := hn.grow
  rw [hfront] at hgrow
  obtain ⟨-, -, hlast⟩ := List.pairwise_append.mp hgrow
  rw [hfollow, run_claim_of_concat hopen hfront]
  refine ⟨r, fun x hx hne => ?_, ?_, ?_, ?_, ?_⟩
  · rw [hfront] at hx
    have hx := (List.mem_append.mp hx).resolve_right fun hx => hne (List.mem_singleton.mp hx)
    exact hlast x hx r List.mem_cons_self
  · change _ = (State.grant _ purpose r).state.sets.idle ++ [r]
    rw [state_grant]
    exact hfront
  · rw [getElem?_proceed hjobs, if_pos rfl]
    cases purpose <;> rfl
  · change (State.grant _ purpose r).state.stock.lastUsed r = t.now
    rw [state_grant]
    exact (Stock.lastUsed_touch hlt r).trans (if_pos rfl)
  · have hlength : (t.state.stock.touch r t.now).length = t.state.stock.length :=
      Stock.length_touch _ _ _
    change t.made ++ List.range' _ ((State.grant _ purpose r).state.stock.length - _) = t.made
    rw [state_grant, hlength, Nat.sub_self, List.range'_zero, List.append_nil]

/-- The idle resources lie in the order of their returns, and whoever asks gets the last. One that
replaces another takes over its place. -/
theorem lends_last_returned (h : Run mayCrash (.new name limits destructs stock) path t) :
    let n := Returns.along path
    (t.state.sets.idle.Pairwise fun a b => n.number a < n.number b) ∧
    (∀ u, Next mayCrash t u → ∀ r ∈ u.state.sets.idle, r ∉ t.state.sets.idle →
      (∃ i d, Does i (.put r d) t u ∧ (n.after t u).number r = n.count + 1) ∨
        ∃ i old, Does i (.exchange old r) t u ∧ old ∈ t.state.sets.idle ∧
          (n.after t u).number r = n.number old) ∧
    (∀ i purpose, t.state.sets.closed = false → t.state.sets.idle ≠ [] →
      t.jobs[i]? = some { todo := [.claim purpose] } →
      (∃ u, Next mayCrash t u ∧ u.jobs[i]? ≠ t.jobs[i]?) ∧
      ∀ u, Next mayCrash t u → u.jobs[i]? ≠ t.jobs[i]? →
        ∃ r, LendsLast n.number i purpose t u r) ∧
    ∀ later u, Run mayCrash t later u → ∀ a ∈ t.state.sets.idle, ∀ b ∈ t.state.sets.idle,
      (∀ p ∈ later, a ∈ p.2.state.sets.idle ∧ b ∈ p.2.state.sets.idle) →
      (t.Before a b ↔ u.Before a b) := by
  intro n
  have howned := (Lendable.of_run h).1
  have hn : Numbered n t.state.sets.idle := numbered_of_run h
  refine ⟨hn.grow, fun u hnext r hr hnot => (howned.shifts hnext).enters hr hnot,
    fun i purpose hopen hidle hj => ⟨exists_next mayCrash hj rfl nofun, fun u hnext hmoved =>
      lendsLast_of_next hn howned hopen hidle hj hnext hmoved⟩,
    fun later u hrun a ha b hb hstays => ?_⟩
  obtain ⟨ha', hsamea⟩ := number_along hrun ha fun p hp => (hstays p hp).1
  obtain ⟨hb', hsameb⟩ := number_along hrun hb fun p hp => (hstays p hp).2
  rw [before_iff hn ha hb, before_iff (numbered_of_run (h.trans hrun)) ha' hb', hsamea, hsameb]

end

/-- Three resources came back in turn, and the idle ones are about to be checked. -/
def threeReturned : Traffic where
  state := {
    name := "pool"
    limits := ⟨3, .zero⟩
    destructs := false
    sets := { idle := [0, 1, 2] }
    stock := [⟨"pool", 0, .start, .start, false⟩, ⟨"pool", 1, .start, .start, false⟩,
      ⟨"pool", 2, .start, .start, false⟩] }
  jobs := [⟨[], .got 0⟩, ⟨[], .got 1⟩, ⟨[], .got 2⟩, ⟨[], .done⟩, ⟨[], .done⟩, ⟨[], .done⟩,
    ⟨[.inspect], .done⟩]
  handles := [2, 1, 0]
  made := [0, 1, 2]

/-- The last one was replaced, and somebody is about to ask for a resource. -/
def lastReplaced : Traffic :=
  { threeReturned with
    state := { threeReturned.state with
      sets := { idle := [0, 1, 3] }
      stock := [⟨"pool", 0, .start, .start, false⟩, ⟨"pool", 1, .start, .start, false⟩,
        ⟨"pool", 2, .start, .start, true⟩, ⟨"pool", 3, .start, .start, false⟩] }
    jobs := threeReturned.jobs.take 6 ++ [⟨[], .done⟩, ⟨[.claim .keep], .done⟩]
    made := [0, 1, 2, 3] }

theorem run_threeReturned : ∃ path,
    Run (fun _ => False) (.new "pool" ⟨3, .zero⟩ false []) path threeReturned := by
  have h : Run (fun _ => False) (.new "pool" ⟨3, .zero⟩ false []) [] _ := .refl
  replace h := h.next (.start .get nofun) (by decide)
  replace h := h.next (.step [] [] _ rfl) (by decide)
  replace h := h.next (.reply [] [] _ (.make .keep) .ok rfl rfl nofun) (by decide)
  replace h := h.next (.step [] [] _ rfl) (by decide)
  replace h := h.next (.start .get nofun) (by decide)
  replace h := h.next (.step [_] [] _ rfl) (by decide)
  replace h := h.next (.reply [_] [] _ (.make .keep) .ok rfl rfl nofun) (by decide)
  replace h := h.next (.step [_] [] _ rfl) (by decide)
  replace h := h.next (.start .get nofun) (by decide)
  replace h := h.next (.step [_, _] [] _ rfl) (by decide)
  replace h := h.next (.reply [_, _] [] _ (.make .keep) .ok rfl rfl nofun) (by decide)
  replace h := h.next (.step [_, _] [] _ rfl) (by decide)
  replace h := h.next (.start (.put 0) (by decide)) (by decide)
  replace h := h.next (.step [_, _, _] [] _ rfl) (by decide)
  replace h := h.next (.start (.put 1) (by decide)) (by decide)
  replace h := h.next (.step [_, _, _, _] [] _ rfl) (by decide)
  replace h := h.next (.start (.put 2) (by decide)) (by decide)
  replace h := h.next (.step [_, _, _, _, _] [] _ rfl) (by decide)
  replace h := h.next (.start .check nofun) (by decide)
  exact ⟨_, h⟩

theorem run_lastReplaced : ∃ later, Run (fun _ => False) threeReturned later lastReplaced ∧
    ∀ p ∈ later, 0 ∈ p.2.state.sets.idle ∧ 1 ∈ p.2.state.sets.idle := by
  have h : Run (fun _ => False) threeReturned [] _ := .refl
  replace h := h.next (.step [_, _, _, _, _, _] [] _ rfl) (by decide)
  replace h := h.next (.reply [_, _, _, _, _, _] [] _ (.check 0) .ok rfl rfl nofun) (by decide)
  replace h := h.next (.reply [_, _, _, _, _, _] [] _ (.check 1) .ok rfl rfl nofun) (by decide)
  replace h := h.next (.reply [_, _, _, _, _, _] [] _ (.check 2) (.fail "worn") rfl rfl nofun)
    (by decide)
  replace h := h.next (.reply [_, _, _, _, _, _] [] _ (.makeInstead 2) .ok rfl rfl nofun)
    (by decide)
  replace h := h.next (.step [_, _, _, _, _, _] [] _ rfl) (by decide)
  replace h := h.next (.step [_, _, _, _, _, _] [] _ rfl) (by decide)
  replace h := h.next (.start .get nofun) (by decide)
  exact ⟨_, h, by decide⟩

/-- The replacement has the number of the one that it replaced, which was returned last, so it is
lent first. -/
theorem lends_last_returned_lastReplaced : ∃ path later,
    Run (fun _ => False) (.new "pool" ⟨3, .zero⟩ false []) path threeReturned ∧
      Run (fun _ => False) threeReturned later lastReplaced ∧
      (threeReturned.Before 0 1 ↔ lastReplaced.Before 0 1) ∧
      ∃ u, Next (fun _ => False) lastReplaced u ∧
        LendsLast (Returns.along (path ++ later)).number 7 .keep lastReplaced u 3 := by
  obtain ⟨path, h⟩ := run_threeReturned
  obtain ⟨later, h', hstays⟩ := run_lastReplaced
  obtain ⟨-, -, -, horder⟩ := lends_last_returned h
  obtain ⟨-, -, hlends, -⟩ := lends_last_returned (h.trans h')
  obtain ⟨⟨u, hnext, hmoved⟩, hlast⟩ := hlends 7 .keep rfl (by decide) rfl
  obtain ⟨r, hr⟩ := hlast u hnext hmoved
  obtain rfl : r = 3 := by
    have hsame := congrArg List.getLast? hr.idle
    rw [List.getLast?_concat] at hsame
    exact (Option.some.inj hsame).symm
  have hbefore := horder later _ h' 0 (by decide) 1 (by decide) hstays
  exact ⟨path, later, h, h', hbefore, u, hnext, hr⟩

end Traffic

end Stockroom.Pool
