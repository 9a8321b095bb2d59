import Stockroom.Pool.Traffic

/-! How many resources a pool keeps or lends, but for overflow. All moves keep within the size of the
pool save one: a get that comes back from the factory only looks at what is checked out, and may
take the room of resources that were returned meanwhile. -/

namespace Stockroom.Pool
set_option autoImplicit false

namespace Sets

variable {s u : Sets} {r : ResourceId}

/-- The number of resources that count against the size of the pool. -/
def counted (s : Sets) : Nat := s.idle.length + s.checkedOut.length

theorem length_insert_le (r : ResourceId) (l : List ResourceId) :
    (l.insert r).length ≤ l.length + 1 := by
  rw [List.length_insert]
  split <;> omega

theorem length_appendNew_le (r : ResourceId) (l : List ResourceId) :
    (appendNew r l).length ≤ l.length + 1 := by
  unfold appendNew
  split
  · exact Nat.le_succ _
  · exact Nat.le_of_eq List.length_append

theorem counted_checkOut? (h : s.checkOut? = some (r, u)) : u.counted ≤ s.counted := by
  obtain ⟨x, hlast, he⟩ := Option.map_eq_some_iff.mp h
  obtain ⟨rfl, rfl⟩ := Prod.mk.inj he
  have hpos := List.length_pos_of_mem (List.mem_of_getLast? hlast)
  have hinsert := length_insert_le x s.checkedOut
  simp only [counted, List.length_dropLast]
  omega

theorem counted_enroll_le (s : Sets) (maxSize : Nat) (r : ResourceId) :
    (s.enroll maxSize r).counted ≤ s.counted + 1 := by
  have hinsert := length_insert_le r s.checkedOut
  unfold enroll
  split
  · exact Nat.le_succ _
  · simp only [counted]
    omega

theorem counted_enroll (s : Sets) (maxSize : Nat) (r : ResourceId)
    (h : ¬ (s.checkedOut.length < maxSize ∧ maxSize ≤ s.counted)) :
    (s.enroll maxSize r).counted ≤ max maxSize s.counted := by
  have hinsert := length_insert_le r s.checkedOut
  unfold enroll
  split
  · exact Nat.le_max_right _ _
  · simp only [counted] at h ⊢
    omega

theorem counted_receive_kept (maxSize : Nat) (h : s.receive maxSize r = .kept u) :
    u.counted ≤ max maxSize s.counted := by
  have happend := length_appendNew_le r s.idle
  unfold receive at h
  split at h
  · rename_i hc
    obtain rfl := Reception.kept.inj h
    have hpos := List.length_pos_of_mem hc
    simp only [counted, List.length_erase_of_mem hc]
    omega
  · split at h
    · split at h
      · rename_i hroom
        obtain rfl := Reception.kept.inj h
        simp only [counted]
        omega
      · cases h
    · split at h
      · obtain rfl := Reception.kept.inj h
        exact Nat.le_max_right _ _
      · cases h

theorem counted_receive_leaving (maxSize : Nat) (h : s.receive maxSize r = .leaving u) :
    u.counted = s.counted := by
  unfold receive at h
  split at h
  · cases h
  · split at h
    · split at h
      · cases h
      · obtain rfl := Reception.leaving.inj h
        rfl
    · split at h
      · cases h
      · obtain rfl := Reception.leaving.inj h
        rfl

theorem counted_withdraw (s : Sets) (r : ResourceId) : (s.withdraw r).counted ≤ s.counted :=
  Nat.add_le_add List.length_erase_le List.length_erase_le

theorem counted_replace? {old new : ResourceId} (h : s.replace? old new = some u) :
    u.counted = s.counted := by
  unfold replace? at h
  split at h
  · rename_i hold
    rw [Bool.and_eq_true, List.contains_iff_mem] at hold
    obtain rfl := Option.some.inj h
    simp only [counted, exchange_eq_set hold.2, List.length_set]
  · cases h

end Sets

/-- A move within the size of the pool. -/
structure Fits (s s' : State) : Prop where
  limits : s'.limits = s.limits
  counted : s'.sets.counted ≤ max s.limits.maxSize s.sets.counted

namespace Fits

variable {s s' : State}

theorem of_sets (hlimits : s'.limits = s.limits) (hsets : s'.sets = s.sets) : Fits s s' :=
  ⟨hlimits, by rw [hsets]; exact Nat.le_max_right _ _⟩

theorem of_le (hlimits : s'.limits = s.limits) (hle : s'.sets.counted ≤ s.sets.counted) :
    Fits s s' :=
  ⟨hlimits, Nat.le_trans hle (Nat.le_max_right _ _)⟩

theorem grant (h : Fits s s') (purpose : Purpose) (r : ResourceId) :
    Fits s (s'.grant purpose r).state := by
  cases purpose <;> exact h

end Fits

/-- A new resource is about to be taken in by a pool that has room for it only if the idle ones are
left out. -/
def Instr.Crowds (s : State) : Instr → Prop
  | .enroll _ _ => s.sets.closed = false ∧ s.sets.checkedOut.length < s.limits.maxSize ∧
      s.limits.maxSize ≤ s.sets.counted
  | _ => False

theorem fits_run (now : Instant) (s : State) (i : Instr) (h : ¬ i.Crowds s) :
    Fits s (i.run now s).state := by
  cases i with
  | claim purpose =>
    simp only [Instr.run]
    split
    · exact .of_sets rfl rfl
    · split
      · rename_i r sets hout
        have hfits : Fits s { s with sets, stock := s.stock.touch r now } :=
          .of_le rfl (Sets.counted_checkOut? hout)
        exact hfits.grant purpose r
      · exact .of_sets rfl rfl
  | enroll purpose r =>
    simp only [Instr.run]
    split
    · exact .of_sets rfl rfl
    · rename_i hopen
      have hfits : Fits s { s with sets := s.sets.enroll s.limits.maxSize r } := by
        refine ⟨rfl, s.sets.counted_enroll _ r fun hcrowded => h ?_⟩
        exact ⟨Bool.not_eq_true _ ▸ hopen, hcrowded⟩
      exact hfits.grant purpose r
  | put r disposal =>
    simp only [Instr.run]
    split
    · exact .of_sets rfl rfl
    · split
      · rename_i sets hkept
        exact ⟨rfl, Sets.counted_receive_kept _ hkept⟩
      · rename_i sets hleaving
        exact .of_le rfl (Nat.le_of_eq (Sets.counted_receive_leaving _ hleaving))
  | dispose r disposal =>
    cases disposal with
    | immediate => exact .of_sets rfl rfl
    | delayed =>
      simp only [Instr.run]
      split
      · exact .of_sets rfl rfl
      · exact .of_le rfl (Nat.le_refl s.sets.counted)
  | destroy r =>
    simp only [Instr.run]
    split <;> exact .of_sets rfl rfl
  | withdraw r => exact .of_le rfl (s.sets.counted_withdraw r)
  | close =>
    simp only [Instr.run]
    split
    · exact .of_sets rfl rfl
    · exact .of_le rfl (Nat.zero_le _)
  | inspect => exact .of_sets rfl rfl
  | exchange old new =>
    simp only [Instr.run]
    split
    · rename_i sets hreplace
      exact .of_le rfl (Nat.le_of_eq (Sets.counted_replace? hreplace))
    · exact .of_sets rfl rfl
  | reclaim => exact .of_sets rfl rfl
  | sweep => exact .of_le rfl (Nat.le_refl s.sets.counted)
  | giveBack r => exact .of_sets rfl rfl
  | call callback => exact .of_sets rfl rfl

theorem fits_resume (now : Instant) (s : State) (callback : Callback) (error : Option String) :
    Fits s (callback.resume now s error).state := by
  cases callback <;> cases error <;> exact .of_sets rfl rfl

/-- One that crowds the pool adds itself and no more. -/
theorem counted_run_of_crowds (now : Instant) {s : State} {i : Instr} (h : i.Crowds s) :
    (i.run now s).state.limits = s.limits ∧
      (i.run now s).state.sets.counted ≤ s.sets.counted + 1 := by
  cases i with
  | enroll purpose r =>
    simp only [Instr.run, h.1, Bool.false_eq_true, if_false]
    cases purpose <;> exact ⟨rfl, Sets.counted_enroll_le _ _ r⟩
  | _ => exact h.elim

instance (s : State) : (i : Instr) → Decidable (i.Crowds s)
  | .enroll .. => inferInstanceAs (Decidable (_ ∧ _ ∧ _))
  | .claim _ | .put .. | .dispose .. | .destroy _ | .withdraw _ | .close | .inspect
  | .exchange .. | .reclaim | .sweep | .giveBack _ | .call _ => inferInstanceAs (Decidable False)

namespace Job

variable {s : State} {j : Job}

/-- The next instruction of the job takes in a resource that there is no room for. -/
def Crowds (s : State) (j : Job) : Prop := ∃ i ∈ j.todo.head?, i.Crowds s

instance (s : State) (j : Job) : Decidable (j.Crowds s) :=
  inferInstanceAs (Decidable (∃ i ∈ j.todo.head?, i.Crowds s))

theorem fits_step (now : Instant) (h : ¬ j.Crowds s) : Fits s (j.step now s).1 := by
  unfold step
  split
  · exact .of_sets rfl rfl
  · rename_i i rest htodo
    refine fits_run now s i fun hi => h ⟨i, ?_, hi⟩
    rw [htodo]
    rfl

theorem counted_step_of_crowds (now : Instant) (h : j.Crowds s) :
    (j.step now s).1.limits = s.limits ∧
      (j.step now s).1.sets.counted ≤ s.sets.counted + 1 := by
  obtain ⟨i, hi, hcrowds⟩ := h
  obtain ⟨rest, htodo⟩ := List.head?_eq_some_iff.mp hi
  rw [step, htodo]
  exact counted_run_of_crowds now hcrowds

theorem fits_reply (now : Instant) (s : State) (j : Job) (r : Reply) :
    Fits s (j.reply now s r).1 := by
  unfold reply
  split
  · split
    · exact fits_resume now s _ none
    · exact fits_resume now s _ _
    · exact .of_sets rfl rfl
  · exact .of_sets rfl rfl

end Job

namespace Traffic

variable {mayCrash : Callback → Prop} {t u : Traffic} {n : Nat}

/-- A get crowds the pool: the factory has made a resource for it, and meanwhile so many have been
returned that, with the idle ones, the pool is full. -/
def Crowds (t u : Traffic) : Prop := ∃ before after j,
  t.jobs = before ++ j :: after ∧ j.Crowds t.state ∧
    u = t.proceed before after (j.step t.now t.state)

/-- What can have become of a new pool that was crowded so many times. -/
inductive ReachableCrowding (mayCrash : Callback → Prop) : Nat → Traffic → Prop where
  | new (name : String) (limits : Limits) (destructs : Bool) (stock : Stock) :
      ReachableCrowding mayCrash 0 (.new name limits destructs stock)
  | next {n : Nat} {t u : Traffic} : ReachableCrowding mayCrash n t → Next mayCrash t u →
      ¬ t.Crowds u → ReachableCrowding mayCrash n u
  | crowd {n : Nat} {t u : Traffic} : ReachableCrowding mayCrash n t → Next mayCrash t u →
      t.Crowds u → ReachableCrowding mayCrash (n + 1) u

theorem exists_reachableCrowding_iff :
    (∃ n, ReachableCrowding mayCrash n t) ↔ Reachable mayCrash t := by
  constructor
  · rintro ⟨n, h⟩
    induction h with
    | new name limits destructs stock => exact .new name limits destructs stock
    | next _ hnext _ ih => exact .next ih hnext
    | crowd _ hnext _ ih => exact .next ih hnext
  · intro h
    induction h with
    | new name limits destructs stock => exact ⟨0, .new name limits destructs stock⟩
    | @next t u _ hnext ih =>
      obtain ⟨n, hn⟩ := ih
      by_cases hcrowds : t.Crowds u
      · exact ⟨n + 1, .crowd hn hnext hcrowds⟩
      · exact ⟨n, .next hn hnext hcrowds⟩

theorem fits_next (hnext : Next mayCrash t u) (h : ¬ t.Crowds u) : Fits t.state u.state := by
  cases hnext with
  | start op hop => exact .of_sets rfl rfl
  | step before after j hjobs =>
    exact j.fits_step t.now fun hj => h ⟨before, after, j, hjobs, hj, rfl⟩
  | reply before after j callback r hjobs hwaits hcrash => exact j.fits_reply t.now t.state r
  | drop before after j r hjobs hwaits => exact .of_sets rfl rfl
  | pass later => exact .of_sets rfl rfl
  | elsewhere stock hlength hdestroyed => exact .of_sets rfl rfl

/-- Resources that are idle or checked out exceed the size of the pool by no more than the times it
was crowded. -/
theorem idle_add_checkedOut_le (h : ReachableCrowding mayCrash n t) :
    t.state.sets.idle.length + t.state.sets.checkedOut.length ≤ t.state.limits.maxSize + n := by
  change t.state.sets.counted ≤ _
  induction h with
  | new name limits destructs stock => exact Nat.zero_le _
  | next _ hnext hcrowds ih =>
    obtain ⟨hlimits, hcounted⟩ := fits_next hnext hcrowds
    rw [hlimits]
    omega
  | @crowd n t _ _ _ hcrowds ih =>
    obtain ⟨before, after, j, hjobs, hj, rfl⟩ := hcrowds
    obtain ⟨hlimits, hcounted⟩ := j.counted_step_of_crowds t.now hj
    change (j.step t.now t.state).1.sets.counted ≤ (j.step t.now t.state).1.limits.maxSize + _
    rw [hlimits]
    omega

/-- No get can crowd the pool now. -/
theorem not_crowds (h : ∀ j ∈ t.jobs, ¬ j.Crowds t.state) : ¬ t.Crowds u := by
  rintro ⟨before, after, j, hjobs, hj, -⟩
  refine h j ?_ hj
  rw [hjobs]
  exact List.mem_append_right _ List.mem_cons_self

/-- The one resource that fits was returned while a get was in the factory. -/
def returnedMeanwhile : Traffic where
  state := {
    name := "pool"
    limits := ⟨1, .zero⟩
    sets := { idle := [0], checkedOut := [1] }
    stock := [⟨"pool", 0, .start, .start, false⟩, ⟨"pool", 1, .start, .start, false⟩] }
  jobs := [⟨[], .got 0⟩, ⟨[], .got 1⟩, ⟨[], .done⟩]
  handles := [1, 0]
  made := [0, 1]

theorem reachable_returnedMeanwhile : ReachableCrowding (fun _ => False) 1 returnedMeanwhile := by
  have h : ReachableCrowding (fun _ => False) 0 (.new "pool" ⟨1, .zero⟩ true []) := .new _ _ _ _
  have hlent : ReachableCrowding (fun _ => False) 0 { returnedMeanwhile with
      state.sets := { checkedOut := [0] }
      state.stock := [⟨"pool", 0, .start, .start, false⟩]
      jobs := [⟨[], .got 0⟩]
      handles := [0]
      made := [0] } := by
    replace h := h.next (.start .get nofun) (not_crowds (by decide))
    replace h := h.next (.step [] [] _ rfl) (not_crowds (by decide))
    replace h := h.next (.reply [] [] _ (.make .keep) .ok rfl rfl nofun) (not_crowds (by decide))
    replace h := h.next (.step [] [] _ rfl) (not_crowds (by decide))
    exact h
  replace h := hlent.next (.start .get nofun) (not_crowds (by decide))
  replace h := h.next (.step [_] [] _ rfl) (not_crowds (by decide))
  replace h := h.next (.start (.put 0) (by decide)) (not_crowds (by decide))
  replace h := h.next (.step [_, _] [] _ rfl) (not_crowds (by decide))
  replace h := h.next (.reply [_] [_] _ (.make .keep) .ok rfl rfl nofun) (not_crowds (by decide))
  replace h := h.crowd (.step [_] [_] _ rfl) ⟨[_], [_], _, rfl, by decide, rfl⟩
  exact h

theorem idle_add_checkedOut_le_returnedMeanwhile :
    ReachableCrowding (fun _ => False) 1 returnedMeanwhile ∧
      returnedMeanwhile.state.sets.idle.length + returnedMeanwhile.state.sets.checkedOut.length
        ≤ 1 + 1 :=
  ⟨reachable_returnedMeanwhile, idle_add_checkedOut_le reachable_returnedMeanwhile⟩

/-- The size of the pool bounds neither what it keeps nor what it lends: after a get has crowded a
pool of size one, both of its resources can be returned, and both can be lent. -/
theorem exists_beyond_maxSize :
    ∃ t u, Reachable (fun _ => False) t ∧ Reachable (fun _ => False) u ∧
      t.state.limits.maxSize = 1 ∧ t.state.sets.idle.length = 2 ∧
      u.state.limits.maxSize = 1 ∧ u.state.sets.checkedOut.length = 2 := by
  have h := exists_reachableCrowding_iff.mp ⟨1, reachable_returnedMeanwhile⟩
  replace h := h.next (.start (.put 1) (by decide))
  have hkept := h.next (.step [_, _, _] [] _ rfl)
  replace h := hkept.next (.start .get nofun)
  replace h := h.next (.step [_, _, _, _] [] _ rfl)
  replace h := h.next (.start .get nofun)
  have hlent := h.next (.step [_, _, _, _, _] [] _ rfl)
  exact ⟨_, _, hkept, hlent, rfl, rfl, rfl, rfl⟩

end Traffic

end Stockroom.Pool
