import Stockroom.Proofs.Cache.Sound
import Stockroom.Proofs.Cache.Totals

/-! Who waits for the archive. An execution that is parked before its loader has been invoked waits for
a restore, and that happens only in a cache that has an archive. -/

namespace Stockroom.Cache
set_option autoImplicit false

variable {V : Type}

theorem Task.awaitsRestore_of_pending? {t : Task V} (h : t.pending? = none) :
    t.awaitsRestore = false := by
  cases t <;> first | rfl | cases h

namespace World

variable {w w' w'' : World V}

/-- Among the tasks that are new, only loads of a cache with an archive wait for it, and only those are
parked before their loaders have been invoked. -/
structure Defers (w w' : World V) (persists : Bool) : Prop where
  tasks : ∀ t ∈ w'.tasks, t.awaitsRestore = true → t ∈ w.tasks ∨ persists = true
  parked : ∀ t ∈ w'.parked, t.pending?.isSome = true → t ∈ w.parked ∨ t.awaitsRestore = true

namespace Defers

variable {persists : Bool}

theorem trans (h : w.Defers w' persists) (h' : w'.Defers w'' persists) : w.Defers w'' persists where
  tasks t ht hawaits := (h'.tasks t ht hawaits).elim (fun ht => h.tasks t ht hawaits) Or.inr
  parked t ht hpending := (h'.parked t ht hpending).elim (fun ht => h.parked t ht hpending) Or.inr

theorem of_subset (htasks : w'.tasks ⊆ w.tasks) (hparked : w'.parked ⊆ w.parked) :
    w.Defers w' persists where
  tasks _ ht _ := Or.inl (htasks ht)
  parked _ ht _ := Or.inl (hparked ht)

theorem refl (w : World V) : w.Defers w persists :=
  of_subset (List.Subset.refl _) (List.Subset.refl _)

theorem of_calm (h : w.Calm w') : w.Defers w' persists := by
  obtain ⟨ready, hready, hr⟩ := h.ready
  obtain ⟨parked, hparked, hp⟩ := h.parked
  have hnone {t : Task V} (hsave : t.isSave = true) : t.pending? = none :=
    congrArg Hand.pending (t.hand_of_isSave hsave)
  constructor
  · intro t ht hawaits
    rw [World.tasks, hready, hparked] at ht
    simp only [List.mem_append] at ht
    rcases ht with (ht | ht) | (ht | ht)
    · exact Or.inl (List.mem_append_left _ ht)
    · rw [Task.awaitsRestore_of_pending? (hnone (hr t ht))] at hawaits
      cases hawaits
    · exact Or.inl (List.mem_append_right _ ht)
    · rw [Task.awaitsRestore_of_pending? (hnone (hp t ht))] at hawaits
      cases hawaits
  · intro t ht hpending
    rw [hparked] at ht
    rcases List.mem_append.mp ht with ht | ht
    · exact Or.inl ht
    · rw [hnone (hp t ht)] at hpending
      cases hpending

theorem of_leads {offer : Option (String × Loader V)} (h : w.Leads offer w') :
    w.Defers w' persists := by
  cases h with
  | none => exact refl w
  | start name cause loader hoffer hnone =>
    constructor
    · intro t ht hawaits
      rcases List.mem_cons.mp ((tasks_lead w name cause loader).subset ht) with rfl | ht
      · cases hawaits
      · exact Or.inl ht
    · exact fun t ht _ => Or.inl ht

theorem of_settleCall (w : World V) (call : Call) (p : Progress V) :
    w.Defers (w.settleCall call p) persists :=
  of_subset (tasks_settleCall w call p).subset fun _ ht => List.mem_of_mem_filter ht

theorem of_park (w : World V) {t : Task V}
    (ht : t.pending? = none ∨ t.awaitsRestore = true ∧ persists = true) :
    w.Defers (w.park t) persists := by
  constructor
  · intro t' ht' hawaits
    rcases List.mem_cons.mp ((tasks_park w t).subset ht') with rfl | ht'
    · refine Or.inr (ht.elim (fun hnone => ?_) And.right)
      rw [Task.awaitsRestore_of_pending? hnone] at hawaits
      cases hawaits
    · exact Or.inl ht'
  · intro t' ht' hpending
    rcases List.mem_append.mp ht' with ht' | ht'
    · exact Or.inl ht'
    · obtain rfl := List.mem_singleton.mp ht'
      refine Or.inr (ht.elim (fun hnone => ?_) And.left)
      rw [hnone] at hpending
      cases hpending

theorem of_closes {h : Hand V} {r : Option (Running V)} (hc : w.Closes h w' r)
    (hnone : h.pending = none) : w.Defers w' persists := by
  cases hc with
  | drops he => exact refl w
  | goesOn r he => exact refl w
  | begins call cause loader he => exact { refl w with }
  | parks t he =>
    subst he
    exact of_park w (Or.inl hnone)
  | answers caller outcome he => exact { refl w with }

theorem of_passes {h : Hand V} {offer : Option (String × Loader V)} {r : Option (Running V)}
    (hp : Passes h offer w w' r) (hnone : h.pending = none) : w.Defers w' persists := by
  cases hp with
  | closes hc hl hclose => exact ((of_calm hc).trans (of_leads hl)).trans (of_closes hclose hnone)
  | ends call p hc hcall hcaller hp => exact (of_calm hc).trans (of_settleCall _ call p)

theorem of_restore (w : World V) (call : Call) (loader : Loader V) :
    w.Defers (w.restore call loader).1 persists := by
  have hlog : w.Defers (w.log (.restore call.key w.archive.data[call.key]?.isSome)) persists :=
    of_calm (.log w fun _ => rfl)
  unfold restore
  dsimp only
  split
  · exact hlog.trans (of_settleCall _ _ _)
  · split
    · rename_i v hv
      refine hlog.trans ?_
      rw [storeAndPublish_eq]
      exact (of_calm (calm_write _ _ _ _ _ _)).trans (of_settleCall _ _ _)
    · exact { hlog with }

theorem of_begin (w : World V) (call : Call) (cause : Cause) (loader : Loader V) :
    w.Defers (w.begin call cause loader).1 w.cache.config.persists := by
  unfold begin
  split
  · exact { refl w with }
  · split
    · rename_i hpersists
      split
      · exact of_park w (Or.inr ⟨rfl, hpersists⟩)
      · exact of_restore w call loader
    · exact { refl w with }

theorem of_enter (w : World V) (t : Task V) : w.Defers (w.enter t).1 w.cache.config.persists := by
  cases t with
  | start call cause loader => exact of_begin w call cause loader
  | restoring call loader => exact of_restore w call loader
  | _ => exact of_passes (passes_enter w _) rfl

theorem of_effect (w : World V) (command : Command V) : w.Defers (w.effect command) persists := by
  cases command with
  | perform op inRuntime =>
    rw [effect_perform]
    exact of_calm (calm_perform w inRuntime op)
  | request name loader token =>
    constructor
    · intro t ht hawaits
      have htasks := tasks_spawn { w with callers := w.callers + 1 }
        (.request w.callers name loader token)
      rcases List.mem_cons.mp (htasks.subset ht) with rfl | ht
      · cases hawaits
      · exact Or.inl ht
    · exact fun t ht _ => Or.inl ht
  | cancel token =>
    exact of_subset (tasks_wake _ _).subset fun _ ht => List.mem_of_mem_filter ht
  | dropCaller caller =>
    refine of_subset ?_ fun _ ht => List.mem_of_mem_filter ht
    intro t ht
    rcases List.mem_append.mp ht with ht | ht
    · exact List.mem_append_left _ (List.mem_of_mem_filter ht)
    · exact List.mem_append_right _ (List.mem_of_mem_filter ht)
  | _ => exact { refl w with }

theorem of_wakeAt (w : World V) (i : Nat) : w.Defers (w.wakeAt i) persists := by
  refine of_subset (tasks_wakeAt w i).subset ?_
  unfold wakeAt
  split
  · exact List.eraseIdx_subset
  · exact List.Subset.refl _

end Defers

end World

namespace Moment

variable {m : Moment V}

/-- The tasks that wait for the archive, and those that are parked before they have begun. -/
structure Deferred (m : Moment V) : Prop where
  tasks : ∀ t ∈ m.world.tasks, t.awaitsRestore = true → m.world.cache.config.persists = true
  parked : ∀ t ∈ m.world.parked, t.pending?.isSome = true → t.awaitsRestore = true

theorem defers_step (h : m.Sound) (move : Move V) :
    m.world.Defers (m.step move).world m.world.cache.config.persists := by
  change m.world.Defers (m.next move).1 _
  have hflying := h.flying
  obtain ⟨w, running, ended⟩ := m
  have hsame : w.Defers w w.cache.config.persists := .refl w
  cases running with
  | some r =>
    cases move with
    | goOn => exact .of_passes (World.passes_carryOut hflying r) rfl
    | _ => exact hsame
  | none =>
    cases move with
    | goOn => exact hsame
    | outside command => exact .of_effect w command
    | archive archive => exact { hsame with }
    | wake i => exact .of_wakeAt w i
    | run i =>
      simp only [next, World.enterAt]
      split
      · rename_i t ht
        have htaken : w.Defers { w with ready := w.ready.eraseIdx i } w.cache.config.persists := by
          refine .of_subset ?_ (List.Subset.refl _)
          exact fun t' ht' => (World.tasks_of_ready ht).symm.subset (List.mem_cons_of_mem t ht')
        exact htaken.trans (.of_enter _ t)
      · exact hsame

theorem Deferred.step (hd : m.Deferred) (h : m.Sound) (move : Move V) : (m.step move).Deferred := by
  have hdefers := defers_step h move
  have hconfig : (m.step move).world.cache.config = m.world.cache.config := config_run m [move]
  constructor
  · intro t ht hawaits
    rw [hconfig]
    exact (hdefers.tasks t ht hawaits).elim (fun ht => hd.tasks t ht hawaits) id
  · intro t ht hpending
    exact (hdefers.parked t ht hpending).elim (fun ht => hd.parked t ht hpending) id

theorem deferred_new (config : Config V) : (new config).Deferred := ⟨nofun, nofun⟩

theorem Deferred.run (hd : m.Deferred) (h : m.Sound) (moves : List (Move V)) :
    (m.run moves).Deferred := by
  induction moves generalizing m with
  | nil => exact hd
  | cons move moves ih => exact ih (hd.step h move) (h.step move)

/-- At rest, with nobody waiting for the archive, every execution has begun. -/
theorem Deferred.pendings_eq_nil (hd : m.Deferred) (hrest : m.AtRest)
    (hnone : ∀ t ∈ m.world.parked, t.awaitsRestore = false) : m.world.pendings = [] := by
  rw [World.pendings, World.tasks, hrest.2, List.nil_append, List.filterMap_eq_nil_iff]
  intro t ht
  cases hpending : t.pending? with
  | none => rfl
  | some x =>
    have hawaits := hd.parked t ht (by rw [hpending]; rfl)
    rw [hnone t ht] at hawaits
    cases hawaits

end Moment

end Stockroom.Cache
