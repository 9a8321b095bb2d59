import Stockroom.Cache.Moments

/-! What a change of the store leaves alone: it starts and ends no execution, answers nobody and
invokes no loader. -/

namespace Stockroom.Cache
set_option autoImplicit false

variable {V : Type}

/-- Whether this is the invocation of a loader for the name. -/
def Event.invokes (name : String) : Event V → Bool
  | .invoked n _ _ => n == name
  | _ => false

/-- A lookup counts what it came upon, and nothing else. -/
theorem exists_counters_lookup (c : Cache V) (now : Instant) (name : String) :
    ∃ hits misses expirations : Nat, (c.lookup now name).2.counters =
      { c.counters with hits, misses, expirations } := by
  change ∃ hits misses expirations, countLookup c.counters _ = _
  unfold countLookup
  split <;> exact ⟨_, _, _, rfl⟩

theorem loads_lookup (c : Cache V) (now : Instant) (name : String) :
    (c.lookup now name).2.counters.loads = c.counters.loads := by
  obtain ⟨_, _, _, hcounters⟩ := exists_counters_lookup c now name
  rw [hcounters]

theorem failures_lookup (c : Cache V) (now : Instant) (name : String) :
    (c.lookup now name).2.counters.loadFailures = c.counters.loadFailures := by
  obtain ⟨_, _, _, hcounters⟩ := exists_counters_lookup c now name
  rw [hcounters]

namespace World

variable {w w' w'' : World V}

/-- Events among which no loader is invoked. -/
def Silent (l : List (Event V)) : Prop := ∀ e ∈ l, ∀ name, e.invokes name = false

theorem Silent.nil : Silent ([] : List (Event V)) := nofun

theorem Silent.filter_eq_nil {l : List (Event V)} (h : Silent l) (name : String) :
    l.filter (Event.invokes name) = [] :=
  List.filter_eq_nil_iff.mpr fun e he => by simp [h e he name]

/-- Nothing has changed but the store and the archive. Saves may have begun. -/
structure Calm (w w' : World V) : Prop where
  now : w'.now = w.now
  flights : w'.cache.flights = w.cache.flights
  loads : w'.cache.counters.loads = w.cache.counters.loads
  refreshes : w'.cache.counters.refreshes = w.cache.counters.refreshes
  ready : ∃ new, w'.ready = w.ready ++ new ∧ ∀ t ∈ new, t.isSave = true
  parked : ∃ new, w'.parked = w.parked ++ new ∧ ∀ t ∈ new, t.isSave = true
  events : ∃ new, w'.events = new ++ w.events ∧ Silent new
  results : w'.results = w.results
  callers : w'.callers = w.callers
  fired : w'.fired = w.fired

namespace Calm

theorem refl (w : World V) : w.Calm w where
  now := rfl
  flights := rfl
  loads := rfl
  refreshes := rfl
  ready := ⟨[], (List.append_nil _).symm, nofun⟩
  parked := ⟨[], (List.append_nil _).symm, nofun⟩
  events := ⟨[], rfl, .nil⟩
  results := rfl
  callers := rfl
  fired := rfl

theorem trans (h : w.Calm w') (h' : w'.Calm w'') : w.Calm w'' where
  now := h'.now.trans h.now
  flights := h'.flights.trans h.flights
  loads := h'.loads.trans h.loads
  refreshes := h'.refreshes.trans h.refreshes
  ready := by
    obtain ⟨new, he, hnew⟩ := h.ready
    obtain ⟨new', he', hnew'⟩ := h'.ready
    refine ⟨new ++ new', by rw [he', he, List.append_assoc], ?_⟩
    exact fun t ht => (List.mem_append.mp ht).elim (hnew t) (hnew' t)
  parked := by
    obtain ⟨new, he, hnew⟩ := h.parked
    obtain ⟨new', he', hnew'⟩ := h'.parked
    refine ⟨new ++ new', by rw [he', he, List.append_assoc], ?_⟩
    exact fun t ht => (List.mem_append.mp ht).elim (hnew t) (hnew' t)
  events := by
    obtain ⟨new, he, hnew⟩ := h.events
    obtain ⟨new', he', hnew'⟩ := h'.events
    refine ⟨new' ++ new, by rw [he', he, List.append_assoc], ?_⟩
    exact fun e he => (List.mem_append.mp he).elim (hnew' e) (hnew e)
  results := h'.results.trans h.results
  callers := h'.callers.trans h.callers
  fired := h'.fired.trans h.fired

theorem started (h : w.Calm w') : w'.started = w.started := by
  rw [World.started, h.loads, h.refreshes]
  rfl

/-- A change of the cache that starts and ends nothing. -/
theorem of_cache {cache : Cache V} (hf : cache.flights = w.cache.flights)
    (hl : cache.counters.loads = w.cache.counters.loads)
    (hr : cache.counters.refreshes = w.cache.counters.refreshes) : w.Calm { w with cache } :=
  { refl w with
    flights := hf
    loads := hl
    refreshes := hr }

theorem log (w : World V) {e : Event V} (he : ∀ name, e.invokes name = false) :
    w.Calm (w.log e) :=
  { refl w with
    events := ⟨[e], rfl, fun _ he' => List.mem_singleton.mp he' ▸ he⟩ }

theorem spawn (w : World V) {t : Task V} (ht : t.isSave = true) : w.Calm (w.spawn t) :=
  { refl w with
    ready := ⟨[t], rfl, fun _ ht' => List.mem_singleton.mp ht' ▸ ht⟩ }

theorem park (w : World V) {t : Task V} (ht : t.isSave = true) : w.Calm (w.park t) :=
  { refl w with
    parked := ⟨[t], rfl, fun _ ht' => List.mem_singleton.mp ht' ▸ ht⟩ }

end Calm

/-! ### The store -/

theorem calm_setShard (w : World V) (name : String) (s : Shard V) (counters : Counters)
    (hl : counters.loads = w.cache.counters.loads)
    (hr : counters.refreshes = w.cache.counters.refreshes) :
    w.Calm { w with cache := { w.cache with counters }.setShard name s } :=
  .of_cache rfl hl hr

theorem calm_lookup (w : World V) (name : String) :
    w.Calm { w with cache := (w.cache.lookup w.now name).2 } := by
  obtain ⟨_, _, _, hcounters⟩ := exists_counters_lookup w.cache w.now name
  exact .of_cache rfl (by rw [hcounters]) (by rw [hcounters])

theorem calm_delete (w : World V) (name : String) :
    w.Calm { w with cache := (w.cache.delete name).2 } := calm_setShard w name _ _ rfl rfl

theorem calm_purgeShard (w : World V) (index : Nat) :
    w.Calm { w with cache := (w.cache.purgeShard index).2 } := by
  unfold Cache.purgeShard
  split
  · exact .of_cache rfl rfl rfl
  · exact .of_cache rfl rfl rfl

theorem calm_requestSave (w : World V) (name : String) (value : V) (inRuntime : Bool) :
    w.Calm (w.requestSave name value inRuntime) := by
  have hcache : w.Calm { w with cache := (w.cache.requestSave inRuntime).2 } := by
    unfold Cache.requestSave
    split
    · exact .refl w
    · split <;> exact .of_cache rfl rfl rfl
  unfold World.requestSave
  dsimp only
  split
  · exact hcache.trans (.spawn _ rfl)
  · exact hcache

theorem calm_forfeit (w : World V) (name : String) :
    w.Calm { w with cache := w.cache.forfeit name } := calm_setShard w name _ _ rfl rfl

theorem calm_add (w : World V) (name : String) (e : Entry V) :
    w.Calm { w with cache := w.cache.add name e } := calm_setShard w name _ _ rfl rfl

theorem calm_offerSave (w : World V) (name : String) (value : Option V) (keep inRuntime : Bool) :
    w.Calm (w.offerSave name value keep inRuntime) := by
  unfold offerSave
  split
  · split
    · exact calm_requestSave w name _ inRuntime
    · exact .refl w
  · exact .refl w

theorem calm_write (w : World V) (name : String) (value : Option V) (ttl : Duration)
    (keep inRuntime : Bool) : w.Calm (w.write name value ttl keep inRuntime).2 := by
  rcases w.write_cases name value ttl keep inRuntime with
    ⟨crash, -, hw⟩ | ⟨e, -, -, hw⟩ | ⟨e, -, -, hw⟩
  · rw [hw]
    exact .refl w
  · rw [hw]
    exact calm_forfeit w name
  · rw [hw]
    exact (calm_add w name e).trans (calm_offerSave _ name value keep inRuntime)

theorem calm_perform (w : World V) (inRuntime : Bool) (op : Op V) :
    w.Calm (w.perform inRuntime op).2 := by
  cases op with
  | set name value ttl =>
    rw [perform_set]
    exact calm_write w name (some value) (ttl.getD w.cache.config.defaultTtl) true inRuntime
  | get name => exact calm_lookup w name
  | contains name => exact .refl w
  | isLoading name => exact .refl w
  | delete name => exact calm_delete w name
  | purge => exact .of_cache rfl rfl rfl
  | purgeShard index => exact calm_purgeShard w index

/-! ### Saves -/

theorem calm_endSave (w : World V) (name : String) (value : V) :
    w.Calm (w.endSave name value) := by
  have h : w.Calm { w.log (.saveEnd name w.archive.saveMode) with cache := w.cache.endSave } :=
    (Calm.log w fun _ => rfl).trans (.of_cache rfl rfl rfl)
  unfold World.endSave
  dsimp only
  split
  · exact h.trans { Calm.refl _ with }
  · exact h

theorem calm_beginSave (w : World V) (name : String) (value : V) :
    w.Calm (w.beginSave name value) := by
  have h : w.Calm (w.log (.save name value)) := .log w fun _ => rfl
  unfold beginSave
  dsimp only
  split
  · exact h.trans (.park _ rfl)
  · exact h.trans (calm_endSave _ name value)

end World

end Stockroom.Cache
