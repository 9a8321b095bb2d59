import Stockroom.Proofs.Cache.Deeds
import Stockroom.Proofs.Cache.Sound

/-! Who waits for what. Whoever begins to wait for a name does so at the slot of its execution, so
that everybody at the slot of an execution that is alive waits for the name that it is for. -/

namespace Stockroom.Cache
set_option autoImplicit false

variable {V : Type}

/-- The name that the task waits for, with the slot that it looks at. -/
def Task.awaits? : Task V → Option (String × Nat)
  | .waiter _ name slot _ | .fetching _ _ name slot _ => some (name, slot)
  | _ => none

/-- Whoever waits is a caller or an execution. -/
theorem Task.awaits?_of_hand {t : Task V} (h : t.hand = {}) : t.awaits? = none := by
  have hcall : t.call? = none := congrArg Hand.call h
  have hcaller : t.caller? = none := congrArg Hand.caller h
  cases t with
  | waiter caller name slot token => cases hcaller
  | fetching call cause name slot rest => cases hcall
  | _ => rfl

namespace World

variable {w w' : World V}

def awaited (w : World V) : List (String × Nat) := w.tasks.filterMap Task.awaits?

/-! ### What adds nobody who waits -/

theorem awaited_of_perm (h : w'.tasks.Perm w.tasks) : w'.awaited ⊆ w.awaited :=
  (h.filterMap Task.awaits?).subset

theorem awaited_of_cons {t : Task V} (h : w'.tasks.Perm (t :: w.tasks)) (ht : t.awaits? = none) :
    w'.awaited ⊆ w.awaited := by
  have hperm := filterMap_cons_perm Task.awaits? h
  rw [ht] at hperm
  exact hperm.subset

theorem Calm.awaited (h : w.Calm w') : w'.awaited ⊆ w.awaited :=
  (h.filterMap_tasks Task.awaits? fun _ => Task.awaits?_of_hand).subset

theorem Leads.awaited {offer : Option (String × Loader V)} (h : w.Leads offer w') :
    w'.awaited ⊆ w.awaited := by
  cases h with
  | none => exact List.Subset.refl _
  | start name cause loader => exact awaited_of_cons (tasks_lead w name cause loader) rfl

theorem awaited_settleCall (w : World V) (call : Call) (p : Progress V) :
    (w.settleCall call p).awaited ⊆ w.awaited := awaited_of_perm (tasks_settleCall w call p)

theorem awaited_getOrLoad (w : World V) (name : String) (loader : Loader V) :
    (w.getOrLoad name loader).2.awaited ⊆ w.awaited := by
  have hlook := (calm_lookup w name).awaited
  rw [getOrLoad_eq]
  cases (w.cache.lookup w.now name).1 with
  | some found => exact List.Subset.trans (leads_considerRefresh _ _ _ _).awaited hlook
  | none => exact List.Subset.trans (leads_joinLoad _ _ _).awaited hlook

theorem awaited_storeAndPublish (w : World V) (call : Call) (value : Option V) (ttl : Duration)
    (keep : Bool) : (w.storeAndPublish call value ttl keep).awaited ⊆ w.awaited := by
  rw [storeAndPublish_eq]
  exact List.Subset.trans (awaited_settleCall _ _ _) (calm_write w _ _ _ _ _).awaited

theorem awaited_conclude (w : World V) (call : Call) (cause : Cause) (product : Loaded V) :
    (w.conclude call cause product).awaited ⊆ w.awaited := by
  unfold conclude
  split
  · exact awaited_settleCall w call _
  · exact awaited_storeAndPublish w call _ _ _

theorem awaited_restore (w : World V) (call : Call) (loader : Loader V) :
    (w.restore call loader).1.awaited ⊆ w.awaited := by
  unfold restore
  dsimp only
  split
  · exact awaited_settleCall (w.log _) call _
  · split
    · exact awaited_storeAndPublish (w.log _) call _ _ _
    · exact List.Subset.refl _

theorem awaited_begin (w : World V) (call : Call) (cause : Cause) (loader : Loader V) :
    (w.begin call cause loader).1.awaited ⊆ w.awaited := by
  cases cause with
  | refresh => exact List.Subset.refl _
  | miss =>
    simp only [begin]
    split
    · split
      · exact awaited_of_cons (tasks_park w (.restoring call loader)) rfl
      · exact awaited_restore w call loader
    · exact List.Subset.refl _

/-! ### Who begins to wait -/

/-- Whoever has begun to wait does so at the slot that the name has now. -/
def Joins (l : List (String × Nat)) (w : World V) : Prop :=
  ∀ x ∈ w.awaited, x ∈ l ∨ w.cache.flights.calls.get? x.1 = some x.2

theorem joins_of_subset {l : List (String × Nat)} (h : w.awaited ⊆ l) : w.Joins l :=
  fun _ hx => Or.inl (h hx)

theorem joins_park {l : List (String × Nat)} {t : Task V} {name : String} {slot : Nat}
    (ht : t.awaits? = some (name, slot)) (h : w.awaited ⊆ l)
    (hslot : (name, slot) ∈ l ∨ w.cache.flights.calls.get? name = some slot) :
    (w.park t).Joins l := by
  intro x hx
  have hperm := filterMap_cons_perm Task.awaits? (tasks_park w t)
  rw [ht] at hperm
  rcases List.mem_cons.mp (hperm.subset hx) with rfl | hx
  · exact hslot
  · exact Or.inl (h hx)

theorem joins_checkSlot {l : List (String × Nat)} (caller : Nat) {name : String} {slot : Nat}
    (token : Option String) (h : w.awaited ⊆ l)
    (hslot : (name, slot) ∈ l ∨ w.cache.flights.calls.get? name = some slot) :
    (w.checkSlot caller name slot token).Joins l := by
  unfold checkSlot
  split
  · exact joins_of_subset h
  · exact joins_park rfl h hslot

theorem joins_carryOut (w : World V) (r : Running V) : (w.carryOut r).1.Joins w.awaited := by
  obtain ⟨call, cause, script, last⟩ := r
  cases script with
  | done product => exact joins_of_subset (awaited_conclude w call cause product)
  | relay => exact joins_of_subset (awaited_conclude w call cause _)
  | fail text => exact joins_of_subset (awaited_settleCall _ call _)
  | crash text => exact joins_of_subset (awaited_settleCall w call _)
  | await gate rest =>
    simp only [carryOut]
    split
    · exact joins_of_subset (List.Subset.refl _)
    · exact joins_of_subset (awaited_of_cons (tasks_park w _) rfl)
  | act op rest =>
    have hcalm := (calm_perform w true op).awaited
    rw [carryOut_act]
    split
    · exact joins_of_subset (List.Subset.trans (awaited_settleCall _ call _) hcalm)
    · exact joins_of_subset hcalm
  | fetch name tag loader rest =>
    have hsubset := awaited_getOrLoad w name ⟨tag, loader⟩
    simp only [carryOut]
    split <;> rename_i he <;> rw [he] at hsubset
    · exact joins_of_subset hsubset
    · exact joins_park rfl hsubset (Or.inr (getOrLoad_waiting he).2)

theorem joins_enter (w : World V) (t : Task V) :
    (w.enter t).1.Joins (t.awaits?.toList ++ w.awaited) := by
  cases t with
  | request caller name loader token =>
    have hsubset := awaited_getOrLoad w name loader
    simp only [enter]
    split <;> rename_i he <;> rw [he] at hsubset
    · exact joins_of_subset hsubset
    · exact joins_checkSlot caller token hsubset (Or.inr (getOrLoad_waiting he).2)
  | waiter caller name slot token =>
    exact joins_checkSlot caller token (List.subset_cons_self _ _) (Or.inl List.mem_cons_self)
  | start call cause loader => exact joins_of_subset (awaited_begin w call cause loader)
  | restoring call loader => exact joins_of_subset (awaited_restore w call loader)
  | paused call cause gate last rest =>
    simp only [enter]
    split
    · exact joins_of_subset (List.Subset.refl _)
    · exact joins_of_subset (awaited_of_cons (tasks_park w _) rfl)
  | fetching call cause name slot rest =>
    have hsubset : w.awaited ⊆ (name, slot) :: w.awaited := List.subset_cons_self _ _
    simp only [enter, checkFetch]
    split
    · exact joins_of_subset hsubset
    · exact joins_of_subset (List.Subset.trans (awaited_settleCall _ call _) hsubset)
    · exact joins_park rfl hsubset (Or.inl List.mem_cons_self)
  | save name value => exact joins_of_subset (calm_beginSave w name value).awaited
  | saving name value => exact joins_of_subset (calm_endSave w name value).awaited

theorem awaited_effect (w : World V) (command : Command V) :
    (w.effect command).awaited ⊆ w.awaited := by
  cases command with
  | perform op inRuntime =>
    rw [effect_perform]
    exact (calm_perform w inRuntime op).awaited
  | request name loader token => exact awaited_of_cons (tasks_spawn _ _) rfl
  | cancel token => exact awaited_of_perm (tasks_wake _ _)
  | dropCaller caller =>
    exact ((List.filter_sublist.append List.filter_sublist).filterMap Task.awaits?).subset
  | _ => exact List.Subset.refl _

end World

namespace Moment

variable {m : Moment V}

theorem joins_step (m : Moment V) (move : Move V) : (m.step move).world.Joins m.world.awaited := by
  change (m.next move).1.Joins m.world.awaited
  have hsame : m.world.Joins m.world.awaited := World.joins_of_subset (List.Subset.refl _)
  obtain ⟨w, running, ended⟩ := m
  cases running with
  | some r =>
    cases move with
    | goOn => exact World.joins_carryOut w r
    | _ => exact hsame
  | none =>
    cases move with
    | outside command => exact World.joins_of_subset (World.awaited_effect w command)
    | archive archive => exact hsame
    | wake i => exact World.joins_of_subset (World.awaited_of_perm (World.tasks_wakeAt w i))
    | run i =>
      simp only [next, World.enterAt]
      split
      · rename_i t ht
        have hperm := World.filterMap_cons_perm Task.awaits? (World.tasks_of_ready ht)
        intro x hx
        exact (World.joins_enter { w with ready := w.ready.eraseIdx i } t x hx).imp_left fun hx =>
          hperm.symm.subset hx
      · exact hsame
    | goOn => exact hsame

/-- The slot has been opened, and if it is that of an execution that is alive, this is for the name
that is waited for. -/
def Paired (m : Moment V) : Prop :=
  ∀ x ∈ m.world.awaited, x.2 < m.world.cache.flights.slots.length ∧
    ∀ call ∈ m.live, call.slot = x.2 → call.key = x.1

theorem Sound.slot_of_live_step (h : m.Sound) (move : Move V) {call : Call}
    (hcall : call ∈ (m.step move).live) : call ∈ m.live ∨
      call.slot = m.world.cache.flights.slots.length := by
  cases h.change move with
  | same hf hs hl => exact Or.inl (hl.subset hcall)
  | started name hnone hf hs hl =>
    rcases List.mem_cons.mp (hl.subset hcall) with rfl | hcall
    · exact Or.inr rfl
    · exact Or.inl hcall
  | ended other p hrun hf hs hl => exact Or.inl (hl.symm.subset (List.mem_cons_of_mem _ hcall))

theorem Sound.paired_step (h : m.Sound) (hp : m.Paired) (move : Move V) :
    (m.step move).Paired := by
  have htracks := (h.step move).tracks
  intro x hx
  rcases m.joins_step move x hx with hold | hslot
  · obtain ⟨hlt, hkey⟩ := hp x hold
    refine ⟨Nat.lt_of_lt_of_le hlt (h.change move).slots_length, fun call hcall hs => ?_⟩
    rcases h.slot_of_live_step move hcall with hlive | hnew
    · exact hkey call hlive hs
    · omega
  · have hlive : ⟨x.1, x.2⟩ ∈ (m.step move).live := (htracks.get?_iff x.1 x.2).mp hslot
    refine ⟨htracks.slot_lt hlive, fun call hcall hs => ?_⟩
    rw [htracks.slot_inj call hcall _ hlive hs]

theorem paired_run (config : Config V) (moves : List (Move V)) :
    ((new config).run moves).Paired := by
  have hrun : ∀ (m : Moment V), m.Sound → m.Paired → (m.run moves).Paired := by
    induction moves with
    | nil => exact fun _ _ hp => hp
    | cons move moves ih =>
      exact fun m h hp => ih (m.step move) (h.step move) (h.paired_step hp move)
  exact hrun _ (sound_new config) nofun

end Moment

end Stockroom.Cache
