import Stockroom.Proofs.Cache.Passes

/-! What a move does to the executions: it changes nothing, starts one, or ends one. -/

namespace Stockroom.Cache
set_option autoImplicit false

variable {V : Type}

namespace World

variable {w w' w₁ w₂ : World V}

/-- The loaders that have not been invoked yet. -/
def pendings (w : World V) : List (Call × Cause × Loader V) := w.tasks.filterMap Task.pending?

/-- The callers that wait or have an answer. -/
def people (w : World V) : List Nat := w.tasks.filterMap Task.caller? ++ w.results.map Prod.fst

/-! ### Tasks -/

theorem Calm.tasks (h : w.Calm w') :
    ∃ saves, w'.tasks.Perm (saves ++ w.tasks) ∧ ∀ t ∈ saves, t.hand = {} := by
  obtain ⟨ready, hready, hr⟩ := h.ready
  obtain ⟨parked, hparked, hp⟩ := h.parked
  refine ⟨ready ++ parked, ?_, ?_⟩
  · rw [World.tasks, World.tasks, hready, hparked, List.append_assoc, List.append_assoc]
    refine (List.perm_append_comm_assoc _ _ _).trans (List.Perm.append_left _ ?_)
    rw [← List.append_assoc]
    exact List.perm_append_comm
  · intro t ht
    exact (List.mem_append.mp ht).elim (fun ht => t.hand_of_isSave (hr t ht))
      (fun ht => t.hand_of_isSave (hp t ht))

theorem tasks_spawn (w : World V) (t : Task V) : (w.spawn t).tasks.Perm (t :: w.tasks) := by
  change (w.ready ++ [t] ++ w.parked).Perm (t :: (w.ready ++ w.parked))
  rw [List.append_assoc]
  exact List.perm_middle

theorem tasks_park (w : World V) (t : Task V) : (w.park t).tasks.Perm (t :: w.tasks) := by
  change (w.ready ++ (w.parked ++ [t])).Perm (t :: (w.ready ++ w.parked))
  rw [← List.append_assoc]
  exact List.perm_append_singleton _ _

theorem tasks_wake (w : World V) (p : Task V → Bool) : (w.wake p).tasks.Perm w.tasks := by
  change (w.ready ++ w.parked.filter p ++ w.parked.filter fun t => !p t).Perm _
  rw [List.append_assoc]
  exact List.Perm.append_left _ (List.filter_append_perm p w.parked)

theorem tasks_settleCall (w : World V) (call : Call) (p : Progress V) :
    (w.settleCall call p).tasks.Perm w.tasks := tasks_wake _ _

theorem tasks_lead (w : World V) (name : String) (cause : Cause) (loader : Loader V) :
    (w.lead name cause loader).tasks.Perm
      (.start (w.cache.flights.register name).1 cause loader :: w.tasks) := tasks_spawn _ _

theorem perm_cons_eraseIdx {α : Type} {l : List α} {i : Nat} (h : i < l.length) :
    l.Perm (l[i] :: l.eraseIdx i) := by
  rw [List.eraseIdx_eq_take_drop_succ]
  conv_lhs => rw [← List.take_append_drop i l, List.drop_eq_getElem_cons h]
  exact List.perm_middle

theorem tasks_wakeAt (w : World V) (i : Nat) : (w.wakeAt i).tasks.Perm w.tasks := by
  unfold wakeAt
  split
  · rename_i t ht
    obtain ⟨hi, rfl⟩ := List.getElem?_eq_some_iff.mp ht
    change (w.ready ++ [w.parked[i]] ++ w.parked.eraseIdx i).Perm _
    rw [List.append_assoc]
    exact List.Perm.append_left _ (perm_cons_eraseIdx hi).symm
  · exact .refl _

/-- The task at a position of the ready queue, and all others. -/
theorem tasks_of_ready {i : Nat} {t : Task V} (h : w.ready[i]? = some t) :
    w.tasks.Perm (t :: { w with ready := w.ready.eraseIdx i }.tasks) := by
  obtain ⟨hi, rfl⟩ := List.getElem?_eq_some_iff.mp h
  exact (perm_cons_eraseIdx hi).append_right w.parked

section
variable {β : Type} (f : Task V → Option β)

theorem filterMap_cons_perm {l l' : List (Task V)} {t : Task V} (h : l.Perm (t :: l')) :
    (l.filterMap f).Perm ((f t).toList ++ l'.filterMap f) := by
  refine (h.filterMap f).trans ?_
  cases ht : f t <;> simp [ht]

theorem people_of_tasks {t : Task V} (h : w.tasks.Perm (t :: w'.tasks))
    (hr : w.results = w'.results) : w.people.Perm (t.caller?.toList ++ w'.people) := by
  rw [people, people, hr, ← List.append_assoc]
  exact (filterMap_cons_perm Task.caller? h).append_right _

theorem Calm.filterMap_tasks (h : w.Calm w') (hf : ∀ t : Task V, t.hand = {} → f t = none) :
    (w'.tasks.filterMap f).Perm (w.tasks.filterMap f) := by
  obtain ⟨saves, hperm, hsaves⟩ := h.tasks
  refine (hperm.filterMap f).trans ?_
  rw [List.filterMap_append, List.filterMap_eq_nil_iff.mpr fun t ht => hf t (hsaves t ht)]
  exact .refl _

end

theorem Calm.calls (h : w.Calm w') : w'.calls.Perm w.calls :=
  h.filterMap_tasks _ fun _ ht => congrArg Hand.call ht

theorem Calm.pendings (h : w.Calm w') : w'.pendings.Perm w.pendings :=
  h.filterMap_tasks _ fun _ ht => congrArg Hand.pending ht

theorem Calm.people (h : w.Calm w') : w'.people.Perm w.people := by
  rw [World.people, h.results]
  exact (h.filterMap_tasks _ fun _ ht => congrArg Hand.caller ht).append_right _

theorem calls_lead (w : World V) (name : String) (cause : Cause) (loader : Loader V) :
    (w.lead name cause loader).calls.Perm ((w.cache.flights.register name).1 :: w.calls) :=
  filterMap_cons_perm _ (tasks_lead w name cause loader)

theorem pendings_lead (w : World V) (name : String) (cause : Cause) (loader : Loader V) :
    (w.lead name cause loader).pendings.Perm
      (((w.cache.flights.register name).1, cause, loader) :: w.pendings) :=
  filterMap_cons_perm _ (tasks_lead w name cause loader)

theorem people_lead (w : World V) (name : String) (cause : Cause) (loader : Loader V) :
    (w.lead name cause loader).people.Perm w.people :=
  people_of_tasks (tasks_lead w name cause loader) rfl

/-! ### Executions -/

/-- How the executions with a live call change, with the registry and the count. -/
inductive Change (w : World V) (live : List Call) (w' : World V) (live' : List Call) : Prop where
  | same : w'.cache.flights = w.cache.flights → w'.started = w.started → live'.Perm live →
      Change w live w' live'
  | started (name : String) : w.cache.flights.contains name = false →
      w'.cache.flights = (w.cache.flights.register name).2 → w'.started = w.started + 1 →
      live'.Perm ((w.cache.flights.register name).1 :: live) → Change w live w' live'
  | ended (call : Call) (p : Progress V) : p ≠ .running →
      w'.cache.flights = w.cache.flights.settle call p → w'.started = w.started →
      live.Perm (call :: live') → Change w live w' live'

theorem started_lead (w : World V) (name : String) (cause : Cause) (loader : Loader V) :
    (w.lead name cause loader).started = w.started + 1 := by
  cases cause with
  | miss => exact Nat.succ_add _ _
  | refresh => rfl

section
variable {h : Hand V} {offer : Option (String × Loader V)} {r : Option (Running V)}

theorem Closes.cache (hc : w.Closes h w' r) : w'.cache = w.cache := by
  cases hc <;> rfl

theorem Closes.live (hc : w.Closes h w' r) : (w'.live r).Perm (h.call.toList ++ w.calls) := by
  cases hc with
  | drops he => subst he; exact .refl _
  | goesOn r he => subst he; exact .refl _
  | begins call cause loader he => subst he; exact .refl _
  | parks t he => subst he; exact filterMap_cons_perm Task.call? (tasks_park w t)
  | answers caller outcome he => subst he; exact .refl _

theorem Passes.change (hp : Passes h offer w w' r) :
    Change w (h.call.toList ++ w.calls) w' (w'.live r) := by
  cases hp with
  | @closes w₁ w₂ _ _ hc hl hclose =>
    have hlive := hclose.live
    cases hl with
    | none =>
      refine .same ?_ ?_ (hlive.trans (hc.calls.append_left _))
      · rw [hclose.cache, hc.flights]
      · rw [World.started, hclose.cache]
        exact hc.started
    | start name cause loader hoffer hnone =>
      refine .started name ?_ ?_ ?_ (hlive.trans ?_)
      · rw [← hc.flights]
        exact hnone
      · rw [hclose.cache, ← hc.flights]
        rfl
      · rw [World.started, hclose.cache, ← hc.started]
        exact started_lead w₁ name cause loader
      · refine ((calls_lead w₁ name cause loader).append_left _).trans ?_
        rw [hc.flights]
        exact List.perm_middle.trans ((hc.calls.append_left _).cons _)
  | @ends w₁ call p hc hcall hcaller hp =>
    refine .ended call p hp ?_ hc.started ?_
    · rw [← hc.flights]
      rfl
    · rw [hcall]
      exact (((tasks_settleCall w₁ call p).filterMap Task.call?).trans hc.calls).symm.cons call

end

namespace Change

variable {live live' : List Call}

theorem of_perm {start : List Call} (h : Change w live w' live') (hp : live.Perm start) :
    Change w start w' live' := by
  cases h with
  | same hf hs hl => exact .same hf hs (hl.trans hp)
  | started name hnone hf hs hl => exact .started name hnone hf hs (hl.trans (hp.cons _))
  | ended call p hrun hf hs hl => exact .ended call p hrun hf hs (hp.symm.trans hl)

theorem tracks (h : Change w live w' live') (ht : w.cache.flights.Tracks live) :
    w'.cache.flights.Tracks live' := by
  cases h with
  | same hf hs hl =>
    rw [hf]
    exact ht.perm hl.symm
  | started name hnone hf hs hl =>
    rw [hf]
    exact (ht.register hnone).perm hl.symm
  | ended call p hrun hf hs hl =>
    rw [hf]
    exact (ht.perm hl).settle hrun

/-- A slot whose call has ended stays as it is. -/
theorem progress (h : Change w live w' live') (ht : w.cache.flights.Tracks live) {slot : Nat}
    {p : Progress V} (hlt : slot < w.cache.flights.slots.length)
    (hp : w.cache.flights.progress slot = p) (hrun : p ≠ .running) :
    slot < w'.cache.flights.slots.length ∧ w'.cache.flights.progress slot = p := by
  cases h with
  | same hf hs hl =>
    rw [hf]
    exact ⟨hlt, hp⟩
  | started name hnone hf hs hl =>
    rw [hf]
    constructor
    · simp only [Registry.register, List.length_append]
      exact Nat.lt_add_right _ hlt
    · rw [Registry.progress_register_eq, if_neg (Nat.ne_of_lt hlt)]
      exact hp
  | ended call q hq hf hs hl =>
    have hcall := (ht.running_iff call.slot).mpr ⟨call, hl.symm.subset List.mem_cons_self, rfl⟩
    rw [hf]
    constructor
    · simp only [Registry.settle, List.length_set]
      exact hlt
    · rw [Registry.progress_settle_eq, if_neg]
      · exact hp
      · rintro ⟨rfl, -⟩
        exact hrun (hp.symm.trans hcall)

theorem of_cache {w₀ : World V} (h : Change w₀ live w' live') (hc : w₀.cache = w.cache) :
    Change w live w' live' := by
  have hstarted : w₀.started = w.started := by
    rw [World.started, hc]
    rfl
  cases h with
  | same hf hs hl => exact .same (hc ▸ hf) (hs.trans hstarted) hl
  | started name hnone hf hs hl =>
    exact .started name (hc ▸ hnone) (hc ▸ hf) (hstarted ▸ hs) (hc ▸ hl)
  | ended call p hrun hf hs hl => exact .ended call p hrun (hc ▸ hf) (hs.trans hstarted) hl

theorem slots_length (h : Change w live w' live') :
    w.cache.flights.slots.length ≤ w'.cache.flights.slots.length := by
  cases h with
  | same hf hs hl => exact hf ▸ Nat.le_refl _
  | started name hnone hf hs hl =>
    rw [hf]
    simp only [Registry.register, List.length_append]
    exact Nat.le_add_right _ _
  | ended call p hrun hf hs hl =>
    rw [hf]
    simp only [Registry.settle, List.length_set]
    exact Nat.le_refl _

/-- The one call that has gone. -/
theorem filter_eq_singleton {call : Call} (hnodup : live.Nodup) (hl : live.Perm (call :: live')) :
    (live.filter fun c => c ∉ live') = [call] := by
  have hnot := (List.nodup_cons.mp (hl.nodup_iff.mp hnodup)).1
  have hrest : (live'.filter fun c => c ∉ live') = [] :=
    List.filter_eq_nil_iff.mpr fun other hother => by simpa using hother
  have hperm := hl.filter fun c => c ∉ live'
  rw [List.filter_cons_of_pos (by simpa using hnot), hrest] at hperm
  exact List.perm_singleton.mp hperm

/-- The calls that have gone. -/
theorem filter_eq (h : Change w live w' live') (ht : w.cache.flights.Tracks live) :
    (live.filter fun call => call ∉ live').length + live'.length + w.started =
      live.length + w'.started := by
  cases h with
  | same hf hs hl =>
    rw [List.filter_eq_nil_iff.mpr, hl.length_eq, hs]
    · simp
    · exact fun call hcall => by simpa using hl.symm.subset hcall
  | started name hnone hf hs hl =>
    rw [List.filter_eq_nil_iff.mpr, hl.length_eq, hs]
    · simp only [List.length_nil, List.length_cons]
      omega
    · exact fun call hcall => by simpa using hl.symm.subset (List.mem_cons_of_mem _ hcall)
  | ended call p hrun hf hs hl =>
    rw [filter_eq_singleton ht.nodup hl, hl.length_eq, hs]
    simp only [List.length_nil, List.length_cons]
    omega

/-- A call that has gone has left something in its slot. -/
theorem progress_of_gone (h : Change w live w' live') (ht : w.cache.flights.Tracks live)
    {call : Call} (hcall : call ∈ live) (hgone : call ∉ live') :
    call.slot < w'.cache.flights.slots.length ∧
      w'.cache.flights.progress call.slot ≠ .running := by
  refine ⟨Nat.lt_of_lt_of_le (ht.slot_lt hcall) h.slots_length, ?_⟩
  cases h with
  | same hf hs hl => exact absurd (hl.symm.subset hcall) hgone
  | started name hnone hf hs hl =>
    exact absurd (hl.symm.subset (List.mem_cons_of_mem _ hcall)) hgone
  | ended other p hrun hf hs hl =>
    obtain rfl := (List.mem_cons.mp (hl.subset hcall)).resolve_right hgone
    rw [hf, Registry.progress_settle_eq, if_pos ⟨rfl, ht.slot_lt hcall⟩]
    exact hrun

end Change

end World

end Stockroom.Cache
