import Mathlib.Data.List.Perm.Subperm
import Stockroom.Proofs.Cache.Change

/-! What one move can be: something from outside that starts and ends no execution, or the turn of
a task or of the loader that runs. -/

namespace Stockroom.Cache
set_option autoImplicit false

variable {V : Type}

namespace World

/-- No execution is started or ended; at most one caller comes. -/
structure Outside (w w' : World V) : Prop where
  flights : w'.cache.flights = w.cache.flights
  loads : w'.cache.counters.loads = w.cache.counters.loads
  refreshes : w'.cache.counters.refreshes = w.cache.counters.refreshes
  events : ∃ new, w'.events = new ++ w.events ∧ Silent new
  results : w'.results = w.results
  parked : ∀ t ∈ w'.parked, t ∈ w.parked ∨ t.isSave = true
  calls : w'.calls.Perm w.calls
  pendings : w'.pendings.Perm w.pendings
  people : (w'.callers = w.callers ∧ w'.people.Subperm w.people) ∨
    (w'.callers = w.callers + 1 ∧ w'.people.Perm (w.callers :: w.people))

variable {w w' : World V}

theorem Outside.started (h : w.Outside w') : w'.started = w.started := by
  rw [World.started, h.loads, h.refreshes]
  rfl

theorem Calm.outside (h : w.Calm w') : w.Outside w' where
  flights := h.flights
  loads := h.loads
  refreshes := h.refreshes
  events := h.events
  results := h.results
  parked t ht := by
    obtain ⟨new, he, hnew⟩ := h.parked
    rw [he] at ht
    exact (List.mem_append.mp ht).imp_right (hnew t)
  calls := h.calls
  pendings := h.pendings
  people := Or.inl ⟨h.callers, h.people.subperm⟩

/-- Tasks are put into another order, and perhaps into the other list. -/
theorem outside_of_perm (hcache : w'.cache = w.cache) (hevents : w'.events = w.events)
    (hresults : w'.results = w.results) (hcallers : w'.callers = w.callers)
    (hparked : w'.parked ⊆ w.parked)
    (htasks : w'.tasks.Perm w.tasks) : w.Outside w' where
  flights := by rw [hcache]
  loads := by rw [hcache]
  refreshes := by rw [hcache]
  events := ⟨[], hevents, .nil⟩
  results := hresults
  parked _ ht := Or.inl (hparked ht)
  calls := htasks.filterMap _
  pendings := htasks.filterMap _
  people := by
    refine Or.inl ⟨hcallers, List.Perm.subperm ?_⟩
    rw [people, hresults]
    exact (htasks.filterMap _).append_right _

theorem outside_wakeAt (w : World V) (i : Nat) : w.Outside (w.wakeAt i) := by
  have htasks := tasks_wakeAt w i
  unfold wakeAt at htasks ⊢
  split
  · rename_i t ht
    rw [ht] at htasks
    exact outside_of_perm rfl rfl rfl rfl List.eraseIdx_subset htasks
  · exact (Calm.refl w).outside

/-- What drops callers drops no execution. -/
theorem filterMap_dropCaller {β : Type} (f : Task V → Option β)
    (hf : ∀ t : Task V, t.caller? ≠ none → f t = none) (caller : Nat) (l : List (Task V)) :
    (l.filter fun t => t.caller? != some caller).filterMap f = l.filterMap f := by
  rw [List.filterMap_filter]
  apply List.filterMap_congr
  intro t _
  split
  · rfl
  · rename_i h
    refine (hf t ?_).symm
    intro hnone
    rw [hnone] at h
    exact h rfl

theorem outside_request (w : World V) (name : String) (loader : Loader V)
    (token : Option String) :
    w.Outside ({ w with callers := w.callers + 1 }.spawn
      (.request w.callers name loader token)) := by
  have htasks := tasks_spawn { w with callers := w.callers + 1 }
    (.request w.callers name loader token)
  constructor
  · rfl
  · rfl
  · rfl
  · exact ⟨[], rfl, .nil⟩
  · rfl
  · exact fun _ ht => Or.inl ht
  · exact filterMap_cons_perm Task.call? htasks
  · exact filterMap_cons_perm Task.pending? htasks
  · exact Or.inr ⟨rfl, people_of_tasks htasks rfl⟩

theorem outside_dropCaller (w : World V) (caller : Nat) :
    w.Outside (w.effect (.dropCaller caller)) := by
  have hfilter : (w.effect (.dropCaller caller)).tasks =
      w.tasks.filter fun t => t.caller? != some caller := by
    rw [tasks, tasks, List.filter_append]
    rfl
  constructor
  · rfl
  · rfl
  · rfl
  · exact ⟨[], rfl, .nil⟩
  · rfl
  · exact fun _ ht => Or.inl (List.mem_of_mem_filter ht)
  · rw [calls, hfilter, filterMap_dropCaller]
    · exact .refl _
    · intro t ht
      cases t <;> first | rfl | exact absurd rfl ht
  · rw [pendings, hfilter, filterMap_dropCaller]
    · exact .refl _
    · intro t ht
      cases t <;> first | rfl | exact absurd rfl ht
  · refine Or.inl ⟨rfl, ?_⟩
    rw [people, hfilter]
    exact ((List.filter_sublist.filterMap _).append_right _).subperm

theorem outside_effect (w : World V) (command : Command V) : w.Outside (w.effect command) := by
  have hsame : w.Outside w := (Calm.refl w).outside
  cases command with
  | perform op inRuntime =>
    rw [effect_perform]
    exact (calm_perform w inRuntime op).outside
  | request name loader token => exact outside_request w name loader token
  | cancel token =>
    exact outside_of_perm rfl rfl rfl rfl (fun _ ht => List.mem_of_mem_filter ht)
      (tasks_wake _ _)
  | dropCaller caller => exact outside_dropCaller w caller
  | release count => exact hsame
  | releaseRestores count => exact hsame
  | openGate gate => exact { hsame with }
  | setArchive gated saveMode restoreCrashes => exact { hsame with }
  | holdRestores held => exact { hsame with }
  | deposit name value => exact { hsame with }
  | advance d => exact { hsame with }

end World

namespace Moment

/-- A task or the running loader has its turn: `h` is what it has in its hands, and `w` the world
without it. -/
structure Takes (m : Moment V) (h : Hand V) (w : World V) : Prop where
  owned : ∀ x, h.pending = some x → h.call = some x.1
  cache : w.cache = m.world.cache
  parked : w.parked = m.world.parked
  events : w.events = m.world.events
  results : w.results = m.world.results
  callers : w.callers = m.world.callers
  live : m.live.Perm (h.call.toList ++ w.calls)
  people : m.world.people.Perm (h.caller.toList ++ w.people)
  pendings : m.world.pendings.Perm (h.pending.toList ++ w.pendings)

/-- What a move can be. -/
inductive Turn (m : Moment V) (offer : Option (String × Loader V)) :
    World V → Option (Running V) → Prop where
  | outside {w : World V} {r : Option (Running V)} : m.world.Outside w → r = m.running →
      Turn m offer w r
  | passes {h : Hand V} {w₀ w : World V} {r : Option (Running V)} : m.Takes h w₀ →
      (w₀.Flying → w₀.Passes h offer w r) → Turn m offer w r

theorem offer?_goOn {m : Moment V} {r : Running V} (h : m.running = some r) :
    m.offer? .goOn = r.offer? := by
  obtain ⟨call, cause, script, last⟩ := r
  unfold offer?
  rw [h]
  cases script <;> rfl

theorem offer?_run {m : Moment V} {i : Nat} {t : Task V} (h : m.running = none)
    (ht : m.world.ready[i]? = some t) : m.offer? (.run i) = t.offer? := by
  simp only [offer?, h, ht]
  cases t <;> rfl

theorem turn_next (m : Moment V) (move : Move V) :
    m.Turn (m.offer? move) (m.next move).1 (m.next move).2 := by
  obtain ⟨w, running, ended⟩ := m
  have hsame : w.Outside w := (World.Calm.refl w).outside
  cases running with
  | some r =>
    cases move with
    | goOn =>
      rw [offer?_goOn rfl]
      have htakes : Takes ⟨w, some r, ended⟩ r.hand w :=
        ⟨nofun, rfl, rfl, rfl, rfl, rfl, .refl _, .refl _, .refl _⟩
      exact .passes htakes fun hw => World.passes_carryOut hw r
    | outside command => exact .outside hsame rfl
    | archive archive => exact .outside hsame rfl
    | wake i => exact .outside hsame rfl
    | run i => exact .outside hsame rfl
  | none =>
    cases move with
    | goOn => exact .outside hsame rfl
    | outside command => exact .outside (World.outside_effect w command) rfl
    | archive archive => exact .outside { hsame with } rfl
    | wake i => exact .outside (World.outside_wakeAt w i) rfl
    | run i =>
      simp only [next, World.enterAt]
      split
      · rename_i t ht
        rw [offer?_run rfl ht]
        have htasks := World.tasks_of_ready ht
        refine .passes ?_ fun _ => World.passes_enter { w with ready := w.ready.eraseIdx i } t
        exact ⟨fun _ => Task.call?_of_pending?, rfl, rfl, rfl, rfl, rfl,
          World.filterMap_cons_perm _ htasks,
          World.people_of_tasks htasks rfl, World.filterMap_cons_perm _ htasks⟩
      · exact .outside hsame rfl

end Moment

end Stockroom.Cache
