import Stockroom.Cache.Excerpts
import Stockroom.Proofs.Cache.Interleaved
import Stockroom.Proofs.Cache.OneName
import Stockroom.Proofs.Cache.Passes

/-! A world beside one in which everything is about one name. What happens under the name happens in
both alike; what happens under other names leaves the second world as good an image as it was. -/

namespace Stockroom
set_option autoImplicit false

open Cache (Numbering)

variable {V : Type} {name other : String} {slots : Numbering} {s s' : Nat}

namespace Registry

/-- The second registry has the calls of the name, under slots of its own. -/
structure Mirrors (name : String) (slots : Numbering) (r r' : Registry V) : Prop where
  bound : slots.bound = r.slots.length
  length : slots.own.length = r'.slots.length
  loading : Option.Rel slots.Pairs (r.calls.get? name) (r'.calls.get? name)
  others : ∀ other s, other ≠ name → r.calls.get? other = some s → slots.Foreign s
  progress : ∀ s s', slots.Pairs s s' → r'.progress s' = r.progress s

namespace Mirrors

variable {r r' : Registry V}

theorem new (name : String) : Mirrors (V := V) name .empty {} {} where
  bound := rfl
  length := rfl
  loading := .none
  others _ _ _ h := by simp at h
  progress _ _ h := by cases h

theorem register_own (h : r.Mirrors name slots r') :
    (r.register name).2.Mirrors name slots.add (r'.register name).2 where
  bound := by simp [register, Numbering.add, h.bound]
  length := by simp [register, Numbering.add, h.length]
  loading := by
    simp only [register, Table.get?_insert_self, ← h.bound, ← h.length]
    exact .some slots.pairs_add
  others other s hne hs := by
    rw [register, Table.get?_insert_of_ne _ _ hne] at hs
    exact slots.le_add.foreign s (h.others other s hne hs)
  progress s s' hs := by
    rw [progress_register_eq, progress_register_eq, ← h.bound, ← h.length]
    rcases Numbering.pairs_add_iff.mp hs with hold | ⟨rfl, rfl⟩
    · rw [if_neg (Nat.ne_of_lt hold.lt_length), if_neg (Nat.ne_of_lt (slots.below s hold.mem)),
        h.progress s s' hold]
    · rw [if_pos rfl, if_pos rfl]

theorem register_aside (h : r.Mirrors name slots r') (hne : other ≠ name) :
    (r.register other).2.Mirrors name slots.skip r' where
  bound := by simp [register, Numbering.skip, h.bound]
  length := h.length
  loading := by
    rw [register, Table.get?_insert_of_ne _ _ hne.symm]
    exact h.loading
  others key s hkey hs := by
    rw [register, Table.get?_insert] at hs
    split at hs
    · cases hs
      rw [← h.bound]
      exact slots.foreign_skip
    · exact slots.le_skip.foreign s (h.others key s hkey hs)
  progress s s' hs := by
    have hlt := slots.below s (Numbering.Pairs.mem (n := slots) hs)
    rw [progress_register_eq, ← h.bound, if_neg (Nat.ne_of_lt hlt)]
    exact h.progress s s' hs

theorem settle_own (h : r.Mirrors name slots r') (hs : slots.Pairs s s') (p : Progress V) :
    (r.settle ⟨name, s⟩ p).Mirrors name slots (r'.settle ⟨name, s'⟩ p) where
  bound := by rw [h.bound, settle, List.length_set]
  length := by rw [h.length, settle, List.length_set]
  loading := by
    simp only [settle, Table.get?_erase_self]
    exact .none
  others other a hne ha := by
    rw [settle, Table.get?_erase_of_ne _ hne] at ha
    exact h.others other a hne ha
  progress a a' ha := by
    have hlt : a < r.slots.length := h.bound ▸ slots.below a ha.mem
    have hlt' : a' < r'.slots.length := h.length ▸ ha.lt_length
    rw [progress_settle_eq, progress_settle_eq, h.progress a a' ha]
    simp only [hlt, hlt', and_true, ha.eq_iff hs]

theorem settle_aside (h : r.Mirrors name slots r') {call : Call} (hkey : call.key ≠ name)
    (hslot : slots.Foreign call.slot) (p : Progress V) :
    (r.settle call p).Mirrors name slots r' where
  bound := by rw [h.bound, settle, List.length_set]
  length := h.length
  loading := by
    rw [settle, Table.get?_erase_of_ne _ hkey.symm]
    exact h.loading
  others other a hne ha := by
    by_cases hother : other = call.key
    · subst hother
      simp [settle] at ha
    · rw [settle, Table.get?_erase_of_ne _ hother] at ha
      exact h.others other a hne ha
  progress a a' ha := by
    rw [progress_settle_eq, if_neg fun he => ha.ne hslot he.1]
    exact h.progress a a' ha

theorem loading_cases (h : r.Mirrors name slots r') :
    (r.calls.get? name = none ∧ r'.calls.get? name = none) ∨
      ∃ s s', slots.Pairs s s' ∧ r.calls.get? name = some s ∧ r'.calls.get? name = some s' := by
  have hloading := h.loading
  generalize r.calls.get? name = x, r'.calls.get? name = x' at hloading
  cases hloading with
  | none => exact Or.inl ⟨rfl, rfl⟩
  | some hs => exact Or.inr ⟨_, _, hs, rfl, rfl⟩

theorem contains (h : r.Mirrors name slots r') : r'.contains name = r.contains name := by
  rw [Registry.contains, Registry.contains, Table.contains, Table.contains]
  rcases h.loading_cases with ⟨hr, hr'⟩ | ⟨s, s', -, hr, hr'⟩
  · rw [hr, hr']
  · rw [hr, hr']
    rfl

end Mirrors

end Registry

namespace Cache

variable {callers : Numbering} {caller caller' : Nat}

/-! ### Tasks -/

namespace Task

/-- The same task at its two places. Its loader keeps to the name. -/
inductive Same (name : String) (slots callers : Numbering) : Task V → Task V → Prop where
  | request {c c' : Nat} (loader : Loader V) (token : Option String) : callers.Pairs c c' →
      loader.script.KeepsTo name →
      Same name slots callers (.request c name loader token) (.request c' name loader token)
  | waiter {c c' s s' : Nat} (token : Option String) : callers.Pairs c c' → slots.Pairs s s' →
      Same name slots callers (.waiter c name s token) (.waiter c' name s' token)
  | start {s s' : Nat} (cause : Cause) (loader : Loader V) : slots.Pairs s s' →
      loader.script.KeepsTo name →
      Same name slots callers (.start ⟨name, s⟩ cause loader) (.start ⟨name, s'⟩ cause loader)
  | paused {s s' : Nat} (cause : Cause) (gate : String) (last : Option V) (rest : Script V) :
      slots.Pairs s s' → rest.KeepsTo name →
      Same name slots callers (.paused ⟨name, s⟩ cause gate last rest)
        (.paused ⟨name, s'⟩ cause gate last rest)
  | fetching {s s' a a' : Nat} (cause : Cause) (rest : Script V) : slots.Pairs s s' →
      slots.Pairs a a' → rest.KeepsTo name →
      Same name slots callers (.fetching ⟨name, s⟩ cause name a rest)
        (.fetching ⟨name, s'⟩ cause name a' rest)

/-- A task of another name, whose loader keeps to that. -/
inductive Aside (name : String) (slots callers : Numbering) : Task V → Prop where
  | request (c : Nat) (other : String) (loader : Loader V) (token : Option String) :
      other ≠ name → callers.Foreign c → loader.script.KeepsTo other →
      Aside name slots callers (.request c other loader token)
  | waiter (c : Nat) (other : String) (s : Nat) (token : Option String) : other ≠ name →
      callers.Foreign c → slots.Foreign s → Aside name slots callers (.waiter c other s token)
  | start (call : Call) (cause : Cause) (loader : Loader V) : call.key ≠ name →
      slots.Foreign call.slot → loader.script.KeepsTo call.key →
      Aside name slots callers (.start call cause loader)
  | paused (call : Call) (cause : Cause) (gate : String) (last : Option V) (rest : Script V) :
      call.key ≠ name → slots.Foreign call.slot → rest.KeepsTo call.key →
      Aside name slots callers (.paused call cause gate last rest)
  | fetching (call : Call) (cause : Cause) (a : Nat) (rest : Script V) : call.key ≠ name →
      slots.Foreign call.slot → slots.Foreign a → rest.KeepsTo call.key →
      Aside name slots callers (.fetching call cause call.key a rest)

variable {t t' : Task V}

theorem Same.mono {slots' callers' : Numbering} (hslots : slots.Le slots')
    (hcallers : callers.Le callers') (h : Same name slots callers t t') :
    Same name slots' callers' t t' := by
  cases h with
  | request loader token hc hk => exact .request loader token (hcallers.pairs _ _ hc) hk
  | waiter token hc hs => exact .waiter token (hcallers.pairs _ _ hc) (hslots.pairs _ _ hs)
  | start cause loader hs hk => exact .start cause loader (hslots.pairs _ _ hs) hk
  | paused cause gate last rest hs hk =>
    exact .paused cause gate last rest (hslots.pairs _ _ hs) hk
  | fetching cause rest hs ha hk =>
    exact .fetching cause rest (hslots.pairs _ _ hs) (hslots.pairs _ _ ha) hk

theorem Aside.mono {slots' callers' : Numbering} (hslots : slots.Le slots')
    (hcallers : callers.Le callers') (h : Aside name slots callers t) :
    Aside name slots' callers' t := by
  cases h with
  | request c other loader token hne hc hk =>
    exact .request c other loader token hne (hcallers.foreign _ hc) hk
  | waiter c other s token hne hc hs =>
    exact .waiter c other s token hne (hcallers.foreign _ hc) (hslots.foreign _ hs)
  | start call cause loader hne hs hk =>
    exact .start call cause loader hne (hslots.foreign _ hs) hk
  | paused call cause gate last rest hne hs hk =>
    exact .paused call cause gate last rest hne (hslots.foreign _ hs) hk
  | fetching call cause a rest hne hs ha hk =>
    exact .fetching call cause a rest hne (hslots.foreign _ hs) (hslots.foreign _ ha) hk

theorem Same.isOf (h : Same name slots callers t t') : t.isOf name = true := by
  cases h <;> exact beq_self_eq_true name

theorem Aside.isOf (h : Aside name slots callers t) : t.isOf name = false := by
  cases h <;> exact beq_eq_false_iff_ne.mpr ‹_›

theorem Same.awaitsSlot (h : Same name slots callers t t') (hs : slots.Pairs s s') :
    t.awaitsSlot s = t'.awaitsSlot s' := by
  cases h with
  | waiter token _ ha => exact Bool.eq_iff_iff.mpr (by simp [Task.awaitsSlot, ha.eq_iff hs])
  | fetching cause rest _ ha _ =>
    exact Bool.eq_iff_iff.mpr (by simp [Task.awaitsSlot, ha.eq_iff hs])
  | _ => rfl

theorem Same.not_awaitsSlot (h : Same name slots callers t t') (hs : slots.Foreign s) :
    t.awaitsSlot s = false := by
  cases h with
  | waiter token _ ha => exact beq_eq_false_iff_ne.mpr (ha.ne hs)
  | fetching cause rest _ ha _ => exact beq_eq_false_iff_ne.mpr (ha.ne hs)
  | _ => rfl

theorem Same.awaitsToken (h : Same name slots callers t t') (token : String) :
    t.awaitsToken token = t'.awaitsToken token := by
  cases h <;> rfl

theorem Same.caller?_ne (h : Same name slots callers t t') (hc : callers.Pairs caller caller') :
    (t.caller? != some caller) = (t'.caller? != some caller') := by
  cases h with
  | request loader token ha _ => exact Bool.eq_iff_iff.mpr (by simp [Task.caller?, ha.eq_iff hc])
  | waiter token ha _ => exact Bool.eq_iff_iff.mpr (by simp [Task.caller?, ha.eq_iff hc])
  | _ => rfl

theorem Same.caller?_ne_of_not_mem (h : Same name slots callers t t') (hc : caller ∉ callers.own) :
    (t.caller? != some caller) = true := by
  cases h with
  | request loader token ha _ | waiter token ha _ =>
    rw [bne_iff_ne]
    intro he
    exact hc (Option.some.inj he ▸ ha.mem)
  | _ => rfl

end Task

/-- How the loaders stand that run in two worlds of which the second has the name only. -/
inductive Running.Beside (name : String) (slots : Numbering) :
    Option (Running V) → Option (Running V) → Prop where
  | none : Beside name slots none none
  | own {s s' : Nat} (cause : Cause) (script : Script V) (last : Option V) : slots.Pairs s s' →
      script.KeepsTo name →
      Beside name slots (some ⟨⟨name, s⟩, cause, script, last⟩)
        (some ⟨⟨name, s'⟩, cause, script, last⟩)
  | aside (r : Running V) : r.call.key ≠ name → slots.Foreign r.call.slot →
      r.script.KeepsTo r.call.key → Beside name slots (some r) none

/-- How a caller stands in both. -/
inductive Started.Same (slots : Numbering) : Started V → Started V → Prop where
  | hit (value : Option V) : Same slots (.hit value) (.hit value)
  | waiting {s s' : Nat} : slots.Pairs s s' → Same slots (.waiting s) (.waiting s')

namespace World

/-- The second world is what the first one is to the name. -/
structure Mirrors (name : String) (slots callers : Numbering) (w w' : World V) : Prop where
  cache : w.cache.AgreeAt name w'.cache
  lone : w'.cache.Lone name
  persists : w.cache.config.persists = false
  flights : w.cache.flights.Mirrors name slots w'.cache.flights
  bound : callers.bound = w.callers
  length : callers.own.length = w'.callers
  now : w'.now = w.now
  opened : w'.opened = w.opened
  fired : w'.fired = w.fired
  ready : Interleaved (Task.Same name slots callers) (Task.Aside name slots callers)
    w.ready w'.ready
  parked : Interleaved (Task.Same name slots callers) (Task.Aside name slots callers)
    w.parked w'.parked
  events : Interleaved (fun e e' => e.name = name ∧ e = e') (fun e => e.name ≠ name)
    w.events w'.events
  results : Interleaved (fun r r' => callers.Pairs r.1 r'.1 ∧ r.2 = r'.2)
    (fun r => callers.Foreign r.1) w.results w'.results

/-- Without an archive nothing is offered to one. -/
theorem offerSave_eq {w : World V} (h : w.cache.config.persists = false) (name : String)
    (value : Option V) (keep inRuntime : Bool) : w.offerSave name value keep inRuntime = w := by
  unfold offerSave
  split
  · split
    · simp [requestSave, Cache.requestSave, h]
    · rfl
  · rfl

namespace Mirrors

variable {w w' : World V} {t t' : Task V} {call : Call}

theorem new {config : Config V} (hcapacity : config.capacity = 0)
    (hpersists : config.persists = false) (name : String) :
    (World.new config).Mirrors name .empty .empty (.new config) where
  cache := .refl (unbounded_new hcapacity) name
  lone := .new config name
  persists := hpersists
  flights := .new name
  bound := rfl
  length := rfl
  now := rfl
  opened := rfl
  fired := rfl
  ready := .nil
  parked := .nil
  events := .nil
  results := .nil

/-! ### Single changes -/

/-- The entries change on both sides, or on the first. -/
theorem setCache (h : w.Mirrors name slots callers w') {c c' : Cache V}
    (hcache : c.AgreeAt name c') (hlone : c'.Lone name) (hconfig : c.config = w.cache.config)
    (hflights : c.flights = w.cache.flights) (hflights' : c'.flights = w'.cache.flights) :
    Mirrors name slots callers { w with cache := c } { w' with cache := c' } :=
  { h with
    cache := hcache
    lone := hlone
    persists := (congrArg Config.persists hconfig).trans h.persists
    flights := by
      rw [hflights, hflights']
      exact h.flights }

theorem spawn (h : w.Mirrors name slots callers w') (ht : t.Same name slots callers t') :
    (w.spawn t).Mirrors name slots callers (w'.spawn t') :=
  { h with ready := h.ready.concat_own ht }

theorem spawn_aside (h : w.Mirrors name slots callers w') (ht : t.Aside name slots callers) :
    (w.spawn t).Mirrors name slots callers w' :=
  { h with ready := h.ready.concat_aside ht }

theorem park (h : w.Mirrors name slots callers w') (ht : t.Same name slots callers t') :
    (w.park t).Mirrors name slots callers (w'.park t') :=
  { h with parked := h.parked.concat_own ht }

theorem park_aside (h : w.Mirrors name slots callers w') (ht : t.Aside name slots callers) :
    (w.park t).Mirrors name slots callers w' :=
  { h with parked := h.parked.concat_aside ht }

theorem wake (h : w.Mirrors name slots callers w') {p p' : Task V → Bool}
    (hp : ∀ t t' : Task V, t.Same name slots callers t' → p t = p' t') :
    (w.wake p).Mirrors name slots callers (w'.wake p') :=
  { h with
    ready := h.ready.append (h.parked.filter hp)
    parked := h.parked.filter fun t t' ht => congrArg not (hp t t' ht) }

theorem wake_aside (h : w.Mirrors name slots callers w') {p : Task V → Bool}
    (hp : ∀ t t' : Task V, t.Same name slots callers t' → p t = false) :
    (w.wake p).Mirrors name slots callers w' :=
  { h with
    ready := by
      have hready := h.ready.append (h.parked.filter_nil hp)
      rwa [List.append_nil] at hready
    parked := h.parked.filter_aside fun t t' ht => by rw [hp t t' ht]; rfl }

theorem log (h : w.Mirrors name slots callers w') {e : Event V} (he : e.name = name) :
    (w.log e).Mirrors name slots callers (w'.log e) :=
  { h with events := .own ⟨he, rfl⟩ h.events }

theorem log_aside (h : w.Mirrors name slots callers w') {e : Event V} (he : e.name ≠ name) :
    (w.log e).Mirrors name slots callers w' :=
  { h with events := .aside he h.events }

theorem finish (h : w.Mirrors name slots callers w') (hc : callers.Pairs caller caller')
    (outcome : Outcome V) :
    (w.finish caller outcome).Mirrors name slots callers (w'.finish caller' outcome) :=
  { h with results := .own ⟨hc, rfl⟩ h.results }

theorem finish_aside (h : w.Mirrors name slots callers w') (hc : callers.Foreign caller)
    (outcome : Outcome V) : (w.finish caller outcome).Mirrors name slots callers w' :=
  { h with results := .aside hc h.results }

theorem isFired (h : w.Mirrors name slots callers w') (token : Option String) :
    w'.isFired token = w.isFired token := by
  rw [World.isFired, World.isFired, h.fired]

/-- More slots are known, and the registries have changed. -/
theorem setFlights (h : w.Mirrors name slots callers w') {slots' : Numbering} {f f' : Registry V}
    (hslots : slots.Le slots') (hf : f.Mirrors name slots' f') (n n' : Counters) :
    Mirrors name slots' callers
      { w with cache := { w.cache with counters := n, flights := f } }
      { w' with cache := { w'.cache with counters := n', flights := f' } } :=
  { h with
    cache := h.cache.setFlights f f' n n'
    lone := ⟨h.lone.exact, h.lone.beside⟩
    flights := hf
    ready := h.ready.mono (fun _ _ => .mono hslots (.refl _)) fun _ => .mono hslots (.refl _)
    parked := h.parked.mono (fun _ _ => .mono hslots (.refl _)) fun _ => .mono hslots (.refl _) }

/-- A caller comes. -/
theorem setCallers (h : w.Mirrors name slots callers w') {callers' : Numbering} {asked asked' : Nat}
    (hcallers : callers.Le callers') (hbound : callers'.bound = asked)
    (hlength : callers'.own.length = asked') :
    Mirrors name slots callers' { w with callers := asked } { w' with callers := asked' } :=
  { h with
    bound := hbound
    length := hlength
    ready := h.ready.mono (fun _ _ => .mono (.refl _) hcallers) fun _ => .mono (.refl _) hcallers
    parked := h.parked.mono (fun _ _ => .mono (.refl _) hcallers) fun _ => .mono (.refl _) hcallers
    results := h.results.mono (fun _ _ hr => ⟨hcallers.pairs _ _ hr.1, hr.2⟩) fun _ hr =>
      hcallers.foreign _ hr }

/-! ### Calls -/

theorem lead (h : w.Mirrors name slots callers w') (cause : Cause) {loader : Loader V}
    (hk : loader.script.KeepsTo name) :
    (w.lead name cause loader).Mirrors name slots.add callers (w'.lead name cause loader) := by
  refine (h.setFlights slots.le_add h.flights.register_own _ _).spawn (.start cause loader ?_ hk)
  rw [← h.flights.bound, ← h.flights.length]
  exact slots.pairs_add

theorem lead_aside (h : w.Mirrors name slots callers w') (hne : other ≠ name) (cause : Cause)
    {loader : Loader V} (hk : loader.script.KeepsTo other) :
    (w.lead other cause loader).Mirrors name slots.skip callers w' := by
  refine (h.setFlights slots.le_skip (h.flights.register_aside hne) _ _).spawn_aside
    (.start _ cause loader hne ?_ hk)
  rw [Registry.register, ← h.flights.bound]
  exact slots.foreign_skip

theorem settleCall (h : w.Mirrors name slots callers w') (hs : slots.Pairs s s')
    (p : Progress V) :
    (w.settleCall ⟨name, s⟩ p).Mirrors name slots callers (w'.settleCall ⟨name, s'⟩ p) :=
  (h.setFlights (.refl slots) (h.flights.settle_own hs p) _ _).wake fun _ _ ht => ht.awaitsSlot hs

theorem settleCall_aside (h : w.Mirrors name slots callers w') (hkey : call.key ≠ name)
    (hs : slots.Foreign call.slot) (p : Progress V) :
    (w.settleCall call p).Mirrors name slots callers w' :=
  (h.setFlights (.refl slots) (h.flights.settle_aside hkey hs p) _ _).wake_aside fun _ _ ht =>
    ht.not_awaitsSlot hs

/-! ### What callers do -/

theorem carried (h : w.Mirrors name slots callers w') (now : Instant) (d : Deed V)
    (hd : ¬ d.Aside name) : (w'.cache.carry now (some d)).Lone name :=
  h.lone.carry h.cache.right now hd

theorem lookup (h : w.Mirrors name slots callers w') :
    Mirrors name slots callers { w with cache := (w.cache.lookup w.now name).2 }
      { w' with cache := (w'.cache.lookup w'.now name).2 } := by
  have hcache : (w.cache.lookup w.now name).2.AgreeAt name (w'.cache.lookup w'.now name).2 := by
    rw [h.now]
    exact h.cache.carry w.now (some (.look name))
  exact h.setCache hcache (h.carried w'.now (.look name) (not_not_intro rfl)) rfl rfl rfl

theorem lookup_aside (h : w.Mirrors name slots callers w') (hne : other ≠ name) :
    Mirrors name slots callers { w with cache := (w.cache.lookup w.now other).2 } w' := by
  refine h.setCache (h.cache.aside w.now (some (.look other)) ?_) h.lone rfl rfl rfl
  rintro _ ⟨⟩
  exact hne

theorem refreshes (h : w.Mirrors name slots callers w') (found : Snapshot V) :
    w'.refreshes name found = w.refreshes name found := by
  rw [World.refreshes, World.refreshes, h.cache.config, h.flights.contains]

theorem considerRefresh (h : w.Mirrors name slots callers w') (found : Snapshot V)
    {loader : Loader V} (hk : loader.script.KeepsTo name) :
    ∃ slots', slots.Le slots' ∧ (w.considerRefresh name found loader).Mirrors name slots' callers
      (w'.considerRefresh name found loader) := by
  rw [considerRefresh_eq, considerRefresh_eq, h.refreshes]
  split
  · exact ⟨_, slots.le_add, h.lead .refresh hk⟩
  · exact ⟨slots, .refl slots, h⟩

theorem considerRefresh_aside (h : w.Mirrors name slots callers w') (hne : other ≠ name)
    (found : Snapshot V) {loader : Loader V} (hk : loader.script.KeepsTo other) :
    ∃ slots', slots.Le slots' ∧
      (w.considerRefresh other found loader).Mirrors name slots' callers w' := by
  rw [considerRefresh_eq]
  split
  · exact ⟨_, slots.le_skip, h.lead_aside hne .refresh hk⟩
  · exact ⟨slots, .refl slots, h⟩

theorem joinLoad (h : w.Mirrors name slots callers w') {loader : Loader V}
    (hk : loader.script.KeepsTo name) :
    ∃ slots', slots.Le slots' ∧ slots'.Pairs (w.joinLoad name loader).1 (w'.joinLoad name loader).1 ∧
      (w.joinLoad name loader).2.Mirrors name slots' callers (w'.joinLoad name loader).2 := by
  rw [joinLoad_eq, joinLoad_eq]
  rcases h.flights.loading_cases with ⟨hr, hr'⟩ | ⟨s, s', hs, hr, hr'⟩ <;> rw [hr, hr']
  · refine ⟨_, slots.le_add, ?_, h.lead .miss hk⟩
    rw [← h.flights.bound, ← h.flights.length]
    exact slots.pairs_add
  · exact ⟨slots, .refl slots, hs, h⟩

theorem joinLoad_aside (h : w.Mirrors name slots callers w') (hne : other ≠ name)
    {loader : Loader V} (hk : loader.script.KeepsTo other) :
    ∃ slots', slots.Le slots' ∧ slots'.Foreign (w.joinLoad other loader).1 ∧
      (w.joinLoad other loader).2.Mirrors name slots' callers w' := by
  rw [joinLoad_eq]
  split
  · rename_i s hs
    exact ⟨slots, .refl slots, h.flights.others other s hne hs, h⟩
  · refine ⟨_, slots.le_skip, ?_, h.lead_aside hne .miss hk⟩
    rw [← h.flights.bound]
    exact slots.foreign_skip

theorem getOrLoad (h : w.Mirrors name slots callers w') {loader : Loader V}
    (hk : loader.script.KeepsTo name) :
    ∃ slots', slots.Le slots' ∧
      Started.Same slots' (w.getOrLoad name loader).1 (w'.getOrLoad name loader).1 ∧
      (w.getOrLoad name loader).2.Mirrors name slots' callers (w'.getOrLoad name loader).2 := by
  have hfound : (w'.cache.lookup w'.now name).1 = (w.cache.lookup w.now name).1 := by
    rw [h.now]
    exact h.cache.lookup_fst w.now
  rw [getOrLoad_eq, getOrLoad_eq, hfound]
  cases (w.cache.lookup w.now name).1 with
  | none =>
    obtain ⟨slots', hle, hs, hjoin⟩ := h.lookup.joinLoad hk
    exact ⟨slots', hle, .waiting hs, hjoin⟩
  | some found =>
    obtain ⟨slots', hle, hrefresh⟩ := h.lookup.considerRefresh found hk
    exact ⟨slots', hle, .hit found.value, hrefresh⟩

theorem getOrLoad_aside (h : w.Mirrors name slots callers w') (hne : other ≠ name)
    {loader : Loader V} (hk : loader.script.KeepsTo other) :
    ∃ slots', slots.Le slots' ∧
      (∀ s, (w.getOrLoad other loader).1 = .waiting s → slots'.Foreign s) ∧
      (w.getOrLoad other loader).2.Mirrors name slots' callers w' := by
  rw [getOrLoad_eq]
  cases (w.cache.lookup w.now other).1 with
  | none =>
    obtain ⟨slots', hle, hs, hjoin⟩ := (h.lookup_aside hne).joinLoad_aside hne hk
    refine ⟨slots', hle, ?_, hjoin⟩
    rintro _ ⟨⟩
    exact hs
  | some found =>
    obtain ⟨slots', hle, hrefresh⟩ := (h.lookup_aside hne).considerRefresh_aside hne found hk
    exact ⟨slots', hle, nofun, hrefresh⟩

theorem checkSlot (h : w.Mirrors name slots callers w') (hc : callers.Pairs caller caller')
    (hs : slots.Pairs s s') (token : Option String) :
    (w.checkSlot caller name s token).Mirrors name slots callers
      (w'.checkSlot caller' name s' token) := by
  unfold World.checkSlot
  rw [h.flights.progress s s' hs, h.isFired]
  split
  · exact h.finish hc _
  · exact h.park (.waiter token hc hs)

theorem checkSlot_aside (h : w.Mirrors name slots callers w') (hne : other ≠ name)
    (hc : callers.Foreign caller) (hs : slots.Foreign s) (token : Option String) :
    (w.checkSlot caller other s token).Mirrors name slots callers w' := by
  unfold World.checkSlot
  split
  · exact h.finish_aside hc _
  · exact h.park_aside (.waiter caller other s token hne hc hs)

/-! ### Operations -/

theorem write (h : w.Mirrors name slots callers w') (value : Option V) (ttl : Duration)
    (keep inRuntime : Bool) (hroom : w.writing? name value ttl ≠ some (.forfeit name)) :
    (w'.write name value ttl keep inRuntime).1 = (w.write name value ttl keep inRuntime).1 ∧
      (w.write name value ttl keep inRuntime).2.Mirrors name slots callers
        (w'.write name value ttl keep inRuntime).2 := by
  have hpersists' : w'.cache.config.persists = false := by
    rw [h.cache.config]
    exact h.persists
  have hentry : w'.cache.entry w'.now name value ttl = w.cache.entry w.now name value ttl := by
    rw [h.now]
    exact entry_eq h.cache.config w.now name value ttl
  rcases w.write_cases name value ttl keep inRuntime with
    ⟨crash, he, hw⟩ | ⟨e, he, hfits, hw⟩ | ⟨e, he, hfits, hw⟩ <;>
  rcases w'.write_cases name value ttl keep inRuntime with
    ⟨crash', he', hw'⟩ | ⟨e', he', hfits', hw'⟩ | ⟨e', he', hfits', hw'⟩ <;>
  cases he'.symm.trans (hentry.trans he)
  · rw [hw, hw']
    exact ⟨rfl, h⟩
  · exact absurd ((writing?_of_ok he).trans (congrArg some (if_neg hfits))) hroom
  · exact absurd ((writing?_of_ok he).trans (congrArg some (if_neg hfits))) hroom
  · exact absurd (h.lone.fits h.cache.right.shards e) hfits'
  · rw [hw, hw']
    refine ⟨rfl, ?_⟩
    rw [offerSave_eq (w := { w with cache := w.cache.add name e }) h.persists,
      offerSave_eq (w := { w' with cache := w'.cache.add name e }) hpersists']
    exact h.setCache (h.cache.carry w.now (some (.write name e)))
      (h.carried w'.now (.write name e) (not_not_intro rfl)) rfl rfl rfl

theorem write_aside (h : w.Mirrors name slots callers w') (hne : other ≠ name)
    (value : Option V) (ttl : Duration) (keep inRuntime : Bool) :
    (w.write other value ttl keep inRuntime).2.Mirrors name slots callers w' := by
  rcases w.write_cases other value ttl keep inRuntime with
    ⟨crash, -, hw⟩ | ⟨e, -, -, hw⟩ | ⟨e, -, -, hw⟩
  · rw [hw]
    exact h
  · rw [hw]
    refine h.setCache (h.cache.aside w.now (some (.forfeit other)) ?_) h.lone rfl rfl rfl
    rintro _ ⟨⟩
    exact hne
  · rw [hw, offerSave_eq (w := { w with cache := w.cache.add other e }) h.persists]
    refine h.setCache (h.cache.aside w.now (some (.write other e)) ?_) h.lone rfl rfl rfl
    rintro _ ⟨⟩
    exact hne

theorem delete (h : w.Mirrors name slots callers w') :
    Mirrors name slots callers { w with cache := (w.cache.delete name).2 }
      { w' with cache := (w'.cache.delete name).2 } :=
  h.setCache (h.cache.carry w.now (some (.delete name)))
    (h.carried w.now (.delete name) (not_not_intro rfl)) rfl rfl rfl

theorem purge (h : w.Mirrors name slots callers w') :
    Mirrors name slots callers { w with cache := w.cache.purge }
      { w' with cache := w'.cache.purge } :=
  h.setCache (h.cache.carry w.now (some .purge)) (h.carried w.now .purge not_false) rfl rfl rfl

theorem flights_purgeShard (c : Cache V) (index : Nat) :
    (c.purgeShard index).2.flights = c.flights := by
  unfold Cache.purgeShard
  split <;> rfl

theorem purgeShard (h : w.Mirrors name slots callers w') (index : Nat) :
    Mirrors name slots callers { w with cache := (w.cache.purgeShard index).2 }
      { w' with cache := (w'.cache.purgeShard index).2 } := by
  refine h.setCache (h.cache.carry w.now (some (.purgeShard index)))
    (h.carried w.now (.purgeShard index) not_false) ?_ (flights_purgeShard _ _)
    (flights_purgeShard _ _)
  exact config_carry w.cache w.now (some (.purgeShard index))

/-- An operation on the name, or on none, is carried out in both worlds; one on the name gets the
same answer. -/
theorem perform (h : w.Mirrors name slots callers w') (inRuntime : Bool) {op : Op V}
    (hop : op.name?.all (· == name) = true) (hroom : op.deed? w ≠ some (.forfeit name)) :
    (op.name? = some name → (w'.perform inRuntime op).1 = (w.perform inRuntime op).1) ∧
      (w.perform inRuntime op).2.Mirrors name slots callers (w'.perform inRuntime op).2 := by
  cases op with
  | set n value ttl =>
    obtain rfl : n = name := beq_iff_eq.mp hop
    obtain ⟨hanswer, hwrite⟩ := h.write (some value) (ttl.getD w.cache.config.defaultTtl) true
      inRuntime hroom
    rw [perform_set, perform_set, h.cache.config]
    dsimp only
    rw [hanswer]
    exact ⟨fun _ => rfl, hwrite⟩
  | get n =>
    obtain rfl : n = name := beq_iff_eq.mp hop
    refine ⟨fun _ => ?_, h.lookup⟩
    simp only [World.perform, h.now, h.cache.lookup_fst]
  | contains n =>
    obtain rfl : n = name := beq_iff_eq.mp hop
    refine ⟨fun _ => ?_, h⟩
    simp only [World.perform, h.now, h.cache.contains]
  | isLoading n =>
    obtain rfl : n = name := beq_iff_eq.mp hop
    refine ⟨fun _ => ?_, h⟩
    simp only [World.perform, Cache.isLoading, h.flights.contains]
  | delete n =>
    obtain rfl : n = name := beq_iff_eq.mp hop
    refine ⟨fun _ => ?_, h.delete⟩
    simp only [World.perform, h.cache.delete_fst]
  | purge => exact ⟨nofun, h.purge⟩
  | purgeShard index => exact ⟨nofun, h.purgeShard index⟩

theorem perform_aside (h : w.Mirrors name slots callers w') (inRuntime : Bool) {op : Op V}
    (hop : op.name? = some other) (hne : other ≠ name) :
    (w.perform inRuntime op).2.Mirrors name slots callers w' := by
  cases op with
  | set n value ttl =>
    obtain rfl := Option.some.inj hop
    rw [perform_set]
    exact h.write_aside hne _ _ _ _
  | get n =>
    obtain rfl := Option.some.inj hop
    exact h.lookup_aside hne
  | contains n => exact h
  | isLoading n => exact h
  | delete n =>
    obtain rfl := Option.some.inj hop
    refine h.setCache (h.cache.aside w.now (some (.delete n)) ?_) h.lone rfl rfl rfl
    rintro _ ⟨⟩
    exact hne
  | purge => cases hop
  | purgeShard index => cases hop

/-! ### Executions -/

theorem failLoad (h : w.Mirrors name slots callers w') (hs : slots.Pairs s s') (text : String) :
    (w.failLoad ⟨name, s⟩ text).Mirrors name slots callers (w'.failLoad ⟨name, s'⟩ text) :=
  (h.setFlights (.refl slots) h.flights _ _).settleCall hs _

theorem failLoad_aside (h : w.Mirrors name slots callers w') (hkey : call.key ≠ name)
    (hs : slots.Foreign call.slot) (text : String) :
    (w.failLoad call text).Mirrors name slots callers w' :=
  (h.setFlights (.refl slots) h.flights _ w'.cache.counters).settleCall_aside hkey hs _

theorem storeAndPublish (h : w.Mirrors name slots callers w') (hs : slots.Pairs s s')
    (value : Option V) (ttl : Duration) (keep : Bool)
    (hroom : w.writing? name value ttl ≠ some (.forfeit name)) :
    (w.storeAndPublish ⟨name, s⟩ value ttl keep).Mirrors name slots callers
      (w'.storeAndPublish ⟨name, s'⟩ value ttl keep) := by
  obtain ⟨hanswer, hwrite⟩ := h.write value ttl keep true hroom
  rw [storeAndPublish_eq, storeAndPublish_eq]
  dsimp only
  rw [hanswer]
  exact hwrite.settleCall hs _

theorem storeAndPublish_aside (h : w.Mirrors name slots callers w') (hkey : call.key ≠ name)
    (hs : slots.Foreign call.slot) (value : Option V) (ttl : Duration) (keep : Bool) :
    (w.storeAndPublish call value ttl keep).Mirrors name slots callers w' := by
  rw [storeAndPublish_eq]
  exact (h.write_aside hkey value ttl keep true).settleCall_aside hkey hs _

theorem conclude (h : w.Mirrors name slots callers w') (hs : slots.Pairs s s') (cause : Cause)
    (product : Loaded V)
    (hroom : ¬ (cause = .refresh ∧ product.value.isNone) →
      w.writing? name product.value
        (product.lifetime w.cache.config.defaultTtl w.cache.config.emptyTtl) ≠
          some (.forfeit name)) :
    (w.conclude ⟨name, s⟩ cause product).Mirrors name slots callers
      (w'.conclude ⟨name, s'⟩ cause product) := by
  unfold World.conclude
  rw [h.cache.config]
  split
  · exact h.settleCall hs _
  · rename_i hother
    refine h.storeAndPublish hs _ _ _ (hroom fun ⟨hrefresh, hnone⟩ => ?_)
    exact hother hrefresh (Option.isNone_iff_eq_none.mp hnone)

theorem conclude_aside (h : w.Mirrors name slots callers w') (hkey : call.key ≠ name)
    (hs : slots.Foreign call.slot) (cause : Cause) (product : Loaded V) :
    (w.conclude call cause product).Mirrors name slots callers w' := by
  unfold World.conclude
  split
  · exact h.settleCall_aside hkey hs _
  · exact h.storeAndPublish_aside hkey hs _ _ _

end Mirrors

end World

end Cache

end Stockroom
