import Stockroom.Proofs.Cache.Invocations

/-! Whoever misses waits for the execution that is in flight then, and is told what became of it:
a caller gets its outcome as a result, and a loader goes on with it. -/

namespace Stockroom.Cache
set_option autoImplicit false

variable {V : Type}

namespace World

variable {w w' : World V}

/-- Tasks stay, and nobody is asked for a result back. -/
structure Grows (w w' : World V) : Prop where
  tasks : w.tasks ⊆ w'.tasks
  results : w.results ⊆ w'.results

theorem Calm.grows (h : w.Calm w') : w.Grows w' where
  tasks := by
    obtain ⟨saves, hperm, -⟩ := h.tasks
    exact fun _ ht => hperm.symm.subset (List.mem_append_right _ ht)
  results := h.results ▸ List.Subset.refl _

theorem Grows.trans {w'' : World V} (h : w.Grows w') (h' : w'.Grows w'') : w.Grows w'' where
  tasks := List.Subset.trans h.tasks h'.tasks
  results := List.Subset.trans h.results h'.results

theorem Grows.refl (w : World V) : w.Grows w := (Calm.refl w).grows

theorem Leads.grows {offer : Option (String × Loader V)} (h : w.Leads offer w') :
    w.Grows w' := by
  cases h with
  | none => exact .refl w
  | start name cause loader hoffer hnone =>
    refine ⟨?_, List.Subset.refl _⟩
    exact fun _ ht => (tasks_lead w name cause loader).symm.subset (List.mem_cons_of_mem _ ht)

theorem Closes.grows {h : Hand V} {r : Option (Running V)} (hc : w.Closes h w' r) :
    w.Grows w' := by
  cases hc with
  | drops he => exact .refl w
  | goesOn r he => exact .refl w
  | begins call cause loader he => exact { Grows.refl w with }
  | parks t he =>
    refine ⟨?_, List.Subset.refl _⟩
    exact fun _ ht => (tasks_park w t).symm.subset (List.mem_cons_of_mem _ ht)
  | answers caller outcome he => exact { Grows.refl w with results := List.subset_cons_self _ _ }

theorem Passes.grows {h : Hand V} {offer : Option (String × Loader V)}
    {r : Option (Running V)} (hp : Passes h offer w w' r) : w.Grows w' := by
  cases hp with
  | closes hc hl hclose => exact hc.grows.trans (hl.grows.trans hclose.grows)
  | @ends w₁ call p hc hcall hcaller hp =>
    refine hc.grows.trans ⟨?_, List.Subset.refl _⟩
    exact (tasks_settleCall w₁ call p).symm.subset

theorem mem_tasks_effect {t : Task V} {command : Command V} (ht : t ∈ w.tasks)
    (hdrop : ∀ caller, command = .dropCaller caller → t.caller? ≠ some caller) :
    t ∈ (w.effect command).tasks := by
  cases command with
  | perform op inRuntime =>
    rw [effect_perform]
    exact (calm_perform w inRuntime op).grows.tasks ht
  | request name loader token => exact (tasks_spawn _ _).symm.subset (List.mem_cons_of_mem _ ht)
  | cancel token => exact (tasks_wake { w with fired := w.fired ++ [token] } _).symm.subset ht
  | dropCaller caller =>
    have hstays : (t.caller? != some caller) = true := by simpa using hdrop caller rfl
    rcases List.mem_append.mp ht with ht | ht
    · exact List.mem_append_left _ (List.mem_filter.mpr ⟨ht, hstays⟩)
    · exact List.mem_append_right _ (List.mem_filter.mpr ⟨ht, hstays⟩)
  | openGate gate => exact ht
  | setArchive gated saveMode restoreCrashes => exact ht
  | release count => exact ht
  | holdRestores held => exact ht
  | releaseRestores count => exact ht
  | deposit name value => exact ht
  | advance d => exact ht

end World

namespace Moment

variable {m : Moment V}

theorem results_step (h : m.Sound) (move : Move V) :
    m.world.results ⊆ (m.step move).world.results := by
  change m.world.results ⊆ (m.next move).1.results
  cases m.turn_next move with
  | outside ho hr => exact ho.results ▸ List.Subset.refl _
  | passes ht hp => exact ht.results ▸ (hp (ht.flying h)).grows.results

theorem results_run (h : m.Sound) (moves : List (Move V)) :
    m.world.results ⊆ (m.run moves).world.results := by
  induction moves generalizing m with
  | nil => exact List.Subset.refl _
  | cons move moves ih => exact List.Subset.trans (results_step h move) (ih (h.step move))

theorem ended_run (moves : List (Move V)) {e : Call × Progress V} (he : e ∈ m.ended) :
    e ∈ (m.run moves).ended := by
  induction moves generalizing m with
  | nil => exact he
  | cons move moves ih => exact ih (ended_mono_step move he)

theorem live_or_ended_run {call : Call} (moves : List (Move V)) (hcall : call ∈ m.live) :
    call ∈ (m.run moves).live ∨ ∃ p, (call, p) ∈ (m.run moves).ended := by
  induction moves generalizing m with
  | nil => exact Or.inl hcall
  | cons move moves ih =>
    rcases live_or_ended_step move hcall with hlive | ⟨p, hp⟩
    · exact ih hlive
    · exact Or.inr ⟨p, ended_run moves hp⟩

/-- A task stays until it has its turn or its caller is dropped. -/
theorem mem_tasks_step (h : m.Sound) {t : Task V} (ht : t ∈ m.world.tasks) (move : Move V)
    (hdrop : ∀ caller, move = .outside (.dropCaller caller) → t.caller? ≠ some caller) :
    t ∈ (m.step move).world.tasks ∨
      ∃ i, move = .run i ∧ m.running = none ∧ m.world.ready[i]? = some t := by
  obtain ⟨w, running, ended⟩ := m
  cases running with
  | some r =>
    refine Or.inl ?_
    cases move with
    | goOn => exact (World.passes_carryOut h.flying r).grows.tasks ht
    | outside command => exact ht
    | archive archive => exact ht
    | wake i => exact ht
    | run i => exact ht
  | none =>
    cases move with
    | goOn => exact Or.inl ht
    | outside command =>
      exact Or.inl (World.mem_tasks_effect ht fun caller he => hdrop caller (he ▸ rfl))
    | archive archive => exact Or.inl ht
    | wake i => exact Or.inl ((World.tasks_wakeAt w i).symm.subset ht)
    | run i =>
      change t ∈ (w.enterAt i).1.tasks ∨ _
      unfold World.enterAt
      split
      · rename_i t' ht'
        rcases List.mem_cons.mp ((World.tasks_of_ready ht').subset ht) with rfl | hmem
        · exact Or.inr ⟨i, rfl, rfl, ht'⟩
        · exact Or.inl ((World.passes_enter _ t').grows.tasks hmem)
      · exact Or.inl ht

/-- A task that waits at a slot has its turn when nothing keeps it any more, at the latest when
everything has come to rest after the slot was settled. -/
theorem turn_of_settled (h : m.Sound) {t : Task V} (ht : t ∈ m.world.tasks) {slot : Nat}
    (hslot : t.awaitsSlot slot = true) (kept : World V → Prop) (later : List (Move V))
    (hdrop : ∀ caller, t.caller? = some caller → .outside (.dropCaller caller) ∉ later)
    (hpark : ∀ (w : World V) ready, kept w → t ∈ ({ w with ready }.enter t).1.tasks)
    (hrest : (m.run later).AtRest)
    (hrun : (m.run later).world.cache.flights.progress slot ≠ .running) :
    ∃ before i after, later = before ++ .run i :: after ∧ (m.run before).running = none ∧
      (m.run before).world.ready[i]? = some t ∧ ¬ kept (m.run before).world := by
  induction later generalizing m with
  | nil =>
    have hparked : t ∈ m.world.parked := by
      have hready : m.world.ready = [] := hrest.2
      rwa [World.tasks, hready, List.nil_append] at ht
    exact absurd (h.awake t hparked slot hslot) hrun
  | cons move later ih =>
    have hlater : t ∈ (m.step move).world.tasks →
        ∃ before i after, move :: later = before ++ .run i :: after ∧
          (m.run before).running = none ∧ (m.run before).world.ready[i]? = some t ∧
          ¬ kept (m.run before).world := by
      intro hmem
      obtain ⟨before, i, after, rfl, hbefore⟩ := ih (h.step move) hmem
        (fun caller hc hin => hdrop caller hc (List.mem_cons_of_mem _ hin)) hrest hrun
      exact ⟨move :: before, i, after, rfl, hbefore⟩
    have hstep := mem_tasks_step h ht move fun caller he hc =>
      hdrop caller hc (he ▸ List.mem_cons_self)
    rcases hstep with hmem | ⟨i, rfl, hnone, hready⟩
    · exact hlater hmem
    · by_cases hkept : kept m.world
      · apply hlater
        change t ∈ (m.next (.run i)).1.tasks
        simp only [next, hnone, World.enterAt, hready]
        exact hpark m.world _ hkept
      · exact ⟨[], i, later, rfl, hnone, hready, hkept⟩

end Moment

end Stockroom.Cache
