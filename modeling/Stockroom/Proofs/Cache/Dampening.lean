import Stockroom.Proofs.Cache.Lasting

/-! A load that finds no value keeps that for a while, so that its name is not loaded again at once.
A refresh that finds none keeps nothing: whoever has missed and joined it is told that there is no
value, and the next one to ask may start a load. -/

namespace Stockroom.Cache
set_option autoImplicit false

variable {V : Type}

/-! ### Whoever is told has waited for it -/

namespace Moment

variable {m : Moment V} {caller slot : Nat} {name : String} {token : Option String} {call : Call}
  {outcome : Outcome V}

/-- A caller that is gone gets no result any more. -/
theorem Sound.gone_step (h : m.Sound) (hlt : caller < m.world.callers)
    (hgone : caller ∉ m.world.people) (move : Move V) :
    caller < (m.step move).world.callers ∧ caller ∉ (m.step move).world.people := by
  change caller < (m.next move).1.callers ∧ caller ∉ (m.next move).1.people
  cases m.turn_next move with
  | outside ho hr =>
    rcases ho.people with ⟨hcallers, l, hperm, hl⟩ | ⟨hcallers, hperm⟩
    · exact ⟨hcallers ▸ hlt, fun hmem => hgone (hl.subset (hperm.symm.subset hmem))⟩
    · refine ⟨hcallers ▸ Nat.lt_succ_of_lt hlt, fun hmem => ?_⟩
      rcases List.mem_cons.mp (hperm.subset hmem) with rfl | hmem
      · exact Nat.lt_irrefl _ hlt
      · exact hgone hmem
  | passes ht hp =>
    obtain ⟨hpeople, hcallers⟩ := (hp (ht.flying h)).people
    rw [hcallers, ht.callers]
    exact ⟨hlt, fun hmem => hgone ((hpeople.trans ht.people.symm).subset hmem)⟩

theorem Sound.gone_run (h : m.Sound) (hlt : caller < m.world.callers)
    (hgone : caller ∉ m.world.people) (moves : List (Move V)) :
    caller ∉ (m.run moves).world.people := by
  induction moves generalizing m with
  | nil => exact hgone
  | cons move moves ih =>
    obtain ⟨hlt, hgone⟩ := h.gone_step hlt hgone move
    exact ih (h.step move) hlt hgone

theorem mem_people_of_result (hresult : (caller, outcome) ∈ m.world.results) :
    caller ∈ m.world.people := List.mem_append_right _ (List.mem_map.mpr ⟨_, hresult, rfl⟩)

theorem mem_people_of_task {t : Task V} (ht : t ∈ m.world.tasks) (hcaller : t.caller? = some caller) :
    caller ∈ m.world.people :=
  List.mem_append_left _ (List.mem_filterMap.mpr ⟨t, ht, hcaller⟩)

theorem not_mem_people_dropCaller (hnone : m.running = none) (h : m.Unanswered caller) :
    caller ∉ (m.step (.outside (.dropCaller caller))).world.people := by
  have hnext : (m.step (.outside (.dropCaller caller))).world =
      m.world.effect (.dropCaller caller) := by
    change (m.next (.outside (.dropCaller caller))).1 = _
    simp only [next, hnone]
  rw [hnext]
  intro hmem
  rcases List.mem_append.mp hmem with hmem | hmem
  · obtain ⟨t, ht, hcaller⟩ := List.mem_filterMap.mp hmem
    have hkept : (t.caller? != some caller) = true := by
      rcases List.mem_append.mp ht with ht | ht <;> exact (List.mem_filter.mp ht).2
    rw [hcaller] at hkept
    simp at hkept
  · obtain ⟨⟨n, o⟩, hresult, rfl⟩ := List.mem_map.mp hmem
    exact h o hresult

/-- A caller that waits at a slot and is told something is told what the slot answers. -/
theorem Sound.told (h : m.Sound) (hwaits : .waiter caller name slot token ∈ m.world.tasks)
    (later : List (Move V)) (hresult : (caller, outcome) ∈ (m.run later).world.results) :
    ∃ before after, later = before ++ after ∧
      ((m.run before).world.cache.flights.progress slot).answer name
        ((m.run before).world.isFired token) = some outcome := by
  have hunanswered : m.Unanswered caller := h.unanswered hwaits rfl
  induction later generalizing m with
  | nil => exact absurd hresult (hunanswered outcome)
  | cons move later ih =>
    have hlater : .waiter caller name slot token ∈ (m.step move).world.tasks →
        ∃ before after, move :: later = before ++ after ∧
          ((m.run before).world.cache.flights.progress slot).answer name
            ((m.run before).world.isFired token) = some outcome := by
      intro hmem
      obtain ⟨before, after, rfl, hanswer⟩ :=
        ih (h.step move) hmem hresult ((h.step move).unanswered hmem rfl)
      exact ⟨move :: before, after, rfl, hanswer⟩
    by_cases hdrop : move = .outside (.dropCaller caller)
    · subst hdrop
      cases hrunning : m.running with
      | some r =>
        apply hlater
        change _ ∈ (m.next (.outside (.dropCaller caller))).1.tasks
        simp only [next, hrunning]
        exact hwaits
      | none =>
        have hlt : caller < (m.step (.outside (.dropCaller caller))).world.callers := by
          change caller < (m.next (.outside (.dropCaller caller))).1.callers
          simp only [next, hrunning]
          exact h.numbered caller (mem_people_of_task hwaits rfl)
        have hgone := (h.step _).gone_run hlt (not_mem_people_dropCaller hrunning hunanswered) later
        exact absurd (mem_people_of_result hresult) hgone
    · have hstep := mem_tasks_step h hwaits move fun c he hc => by
        cases hc
        exact hdrop he
      rcases hstep with hmem | ⟨i, rfl, hnone, hready⟩
      · exact hlater hmem
      · have hworld : (m.step (.run i)).world =
            World.checkSlot { m.world with ready := m.world.ready.eraseIdx i } caller name slot
              token := by
          change (m.next (.run i)).1 = _
          simp only [next, hnone, World.enterAt, hready, World.enter]
        by_cases hkept : m.world.cache.flights.progress slot = .running ∧
            m.world.isFired token = false
        · apply hlater
          rw [hworld]
          exact World.waiter_mem_checkSlot caller name hkept
        · refine ⟨[], _, rfl, ?_⟩
          unfold World.checkSlot at hworld
          split at hworld
          · rename_i o ho
            have hmem : (caller, o) ∈ (m.step (.run i)).world.results := hworld ▸ List.mem_cons_self
            have ho' := ((h.run (.run i :: later)).results_iff
              (results_run (h.step _) later hmem) outcome).mp hresult
            exact ho' ▸ ho
          · rename_i ho
            exact absurd (Progress.answer_eq_none_iff.mp ho) hkept

theorem published_of_answer {p : Progress V} {cancelled : Bool}
    (h : p.answer name cancelled = some (.ok none)) : p = .published (.ok none) := by
  cases p with
  | running => cases cancelled <;> cases h
  | published o => exact congrArg _ (Option.some.inj h)
  | abandoned => cases h

/-- Whoever waits for a live execution and is told that there is no value is told so by it. -/
theorem Sound.ended_of_told (h : m.Sound) (hlive : call ∈ m.live)
    (hwaits : .waiter caller name call.slot token ∈ m.world.tasks) (later : List (Move V))
    (hresult : (caller, .ok none) ∈ (m.run later).world.results) :
    (call, .published (.ok none)) ∈ (m.run later).ended := by
  obtain ⟨before, after, rfl, hanswer⟩ := h.told hwaits later hresult
  have hpublished := published_of_answer hanswer
  have hended := h.ended_of_settled hlive before (by rw [hpublished]; intro he; cases he)
  rw [hpublished] at hended
  exact run_append m before after ▸ ended_run after hended

/-- A caller that misses and is told that there is no value is told so by the execution that is in
flight for the name then. -/
theorem Sound.ended_of_missed (h : m.Sound) {i : Nat} {loader : Loader V} (hnone : m.running = none)
    (hready : m.world.ready[i]? = some (.request caller name loader token))
    (hmiss : (m.world.cache.lookup m.world.now name).1 = none)
    (hlive : call ∈ (m.step (.run i)).live) (hkey : call.key = name) (later : List (Move V))
    (hresult : (caller, .ok none) ∈ (m.run (.run i :: later)).world.results) :
    (call, .published (.ok none)) ∈ (m.run (.run i :: later)).ended := by
  obtain ⟨slot, w', hworld, hslot, -, -⟩ := exists_checkSlot_of_miss hnone hready hmiss
  have h₁ := h.step (.run i)
  have hcache : (m.step (.run i)).world.cache = w'.cache := by
    rw [hworld]
    exact (World.closes_checkSlot w' caller name slot token).cache
  obtain rfl : call.slot = slot := by
    have hget := h₁.tracks.get?_key hlive
    rw [hkey, hcache, hslot] at hget
    exact (Option.some.inj hget).symm
  have hrun : w'.cache.flights.progress call.slot = .running := hcache ▸ h₁.running_of_live hlive
  by_cases hkept : w'.cache.flights.progress call.slot = .running ∧ w'.isFired token = false
  · have hwaits := World.waiter_mem_checkSlot caller name hkept
    rw [← hworld] at hwaits
    exact h₁.ended_of_told hlive hwaits later hresult
  · obtain ⟨outcome, hmem, hanswer⟩ := World.answer_mem_checkSlot caller name hkept
    rw [← hworld] at hmem
    have he := ((h.run (.run i :: later)).results_iff (results_run h₁ later hmem) _).mp hresult
    rcases hanswer with hanswer | ⟨hcancelled, -⟩
    · rw [hrun] at hanswer
      cases hanswer
    · rw [hcancelled] at he
      cases he

/-- A loader that waits at a slot and goes on without a value was told so by the execution there. -/
theorem Sound.ended_of_goesOn (h : m.Sound) (hlive : call ∈ m.live) {r : Running V}
    {rest : Script V} (later : List (Move V)) {j : Nat}
    (hnone : (m.run later).running = none)
    (hready : (m.run later).world.ready[j]? =
      some (.fetching r.call r.cause name call.slot rest))
    (hgoes : ((m.run later).step (.run j)).running =
      some { r with script := rest, last := none }) :
    (call, .published (.ok none)) ∈ (m.run later).ended := by
  have hanswer : ((m.run later).world.cache.flights.progress call.slot).answer name false =
      some (.ok none) := by
    change ((m.run later).next (.run j)).2 = _ at hgoes
    simp only [next, hnone, World.enterAt, hready, World.enter, World.checkFetch] at hgoes
    split at hgoes
    · rename_i value hanswer
      cases hgoes
      exact hanswer
    · cases hgoes
    · cases hgoes
  have hpublished := published_of_answer hanswer
  have hended := h.ended_of_settled hlive later (by rw [hpublished]; intro he; cases he)
  rwa [hpublished] at hended

end Moment

/-! ### Whoever asks for what is kept hits it -/

namespace World

variable {w : World V} {name : String}

theorem loads_considerRefresh (w : World V) (name : String) (found : Snapshot V)
    (loader : Loader V) :
    (w.considerRefresh name found loader).cache.counters.loads = w.cache.counters.loads := by
  unfold considerRefresh
  split
  · rfl
  · split
    · split <;> rfl
    · rfl

end World

namespace Moment

variable {m : Moment V} {name : String} {call : Call} {move : Move V}

theorem dampened_of_live {e : Entry V}
    (he : m.world.cache.live? m.world.now name = some e) (hvalue : e.value = none) :
    m.Dampened name := by
  have hfound := lookup_of_live he
  have hvalue : (e.snapshot m.world.now).value = none := hvalue
  refine ⟨⟨_, hfound, hvalue⟩, ?_, ?_⟩
  · intro i caller loader token hnone hready
    have hnext := next_run_of_hit hnone hready hfound
    rw [hvalue] at hnext
    rw [show (m.step (.run i)).world = _ from congrArg Prod.fst hnext]
    exact ⟨List.mem_cons_self, (World.loads_considerRefresh _ _ _ _).trans (loads_lookup _ _ _)⟩
  · intro r tag loader rest hr hscript
    have hnext := next_goOn_of_hit hr hscript hfound
    rw [hvalue] at hnext
    refine ⟨congrArg Prod.snd hnext, ?_⟩
    rw [show (m.step .goOn).world = _ from congrArg Prod.fst hnext]
    exact (World.loads_considerRefresh _ _ _ _).trans (loads_lookup _ _ _)

/-! ### A load that finds no value -/

/-- What is stored in a move is an entry of that moment. -/
theorem exists_entry_of_stored? {y : Yield V} (hy : m.stored? move = some y) :
    ∃ e weight, Entry.at? m.world.now y.value y.ttl weight = some e ∧
      (m.step move).world.cache.store = (m.world.cache.add y.call.key e).store := by
  obtain ⟨hyield, e, hentry, hfits⟩ := entry_of_stored? hy
  obtain ⟨-, hop, hoffer, -⟩ := turn?_of_yield? hyield
  have hdeed : m.deed? move = some (.write y.call.key e) := by
    rw [deed?_of_turn hop hoffer, hyield]
    exact (World.writing?_of_ok hentry).trans (congrArg some (if_pos hfits))
  have hstore := store_step m move
  rw [hdeed] at hstore
  obtain ⟨weight, he⟩ := entry_eq_ok hentry
  exact ⟨e, weight, he, hstore⟩

/-- A result without a value comes from a loader, and is to be kept for its own time. -/
theorem ttl_of_arises {w : World V} {running : Option (Running V)} {y : Yield V}
    (h : y.Arises w running) (hvalue : y.value = none) : y.ttl = w.cache.config.emptyTtl := by
  cases h with
  | restored call v hnone hfound => cases hvalue
  | loaded r product hr hproduct =>
    change product.value = none at hvalue
    change product.lifetime _ _ = _
    rw [Loaded.lifetime, hvalue]

/-- A load that publishes that there is no value keeps that for the time set aside for it. -/
theorem Sound.dampenedFor (h : m.Sound) (hunbounded : m.world.cache.Unbounded)
    (hload : (call, .miss) ∈ m.execs)
    (hended : (call, .published (.ok none)) ∈ (m.step move).ended) :
    (m.step move).DampenedFor call.key m.world.cache.config.emptyTtl := by
  obtain ⟨y, hy, rfl, hvalue⟩ := h.stored?_of_published hload hended
  obtain ⟨e, weight, hat, hstore⟩ := exists_entry_of_stored? hy
  have harises := (turn?_of_yield? (Option.filter_eq_some_iff.mp hy).1).2.2.2
  rw [hvalue, ttl_of_arises harises hvalue] at hat
  have hnow : (m.step move).world.now = m.world.now := by
    refine h.now_step fun d he => ?_
    subst he
    cases hy
  have hpeek : (m.step move).world.cache.peek? y.call.key = some e := by
    change (m.step move).world.cache.store.peek? y.call.key = some e
    rw [hstore]
    exact (peek?_add hunbounded _ _ e).trans (if_pos rfl)
  intro later hundisturbed htime
  have hlive : e.expired ((m.step move).run later).world.now = false := by
    rw [Bool.eq_false_iff, ne_eq, Entry.expired_at?_iff hat]
    rw [hnow] at htime
    omega
  have hlater := (h.step move).peek?_run (unbounded_run hunbounded [move]) hpeek hundisturbed hlive
  refine dampened_of_live (live?_of_peek? hlater hlive) ?_
  obtain ⟨deadline, -, rfl⟩ := Option.map_eq_some_iff.mp hat
  rfl

theorem Sound.empties (h : m.Sound) (hunbounded : m.world.cache.Unbounded)
    (hload : (call, .miss) ∈ m.execs) (moves : List (Move V))
    (hended : (call, .published (.ok none)) ∈ (m.run moves).ended) :
    m.Empties call moves m.world.cache.config.emptyTtl := by
  obtain ⟨first, move, last, rfl, hlive, hend⟩ := h.exists_end (mem_live_of_exec hload) moves hended
  have hdampened := (h.run first).dampenedFor (unbounded_run hunbounded first)
    (h.execs_run hload first hlive) hend
  rw [config_run] at hdampened
  exact ⟨first, move, last, rfl, hlive, hend, hdampened⟩

/-- Whoever missed and was told by a load that there is no value: that is kept as long as the empty
TTL says, so whoever asks again hits it. -/
theorem empty_load_dampens {config : Config V} (hcapacity : config.capacity = 0)
    (before : List (Move V)) :
    let m := (new config).run before
    (∀ i caller name loader token call after, m.running = none →
      m.world.ready[i]? = some (.request caller name loader token) →
      (m.world.cache.lookup m.world.now name).1 = none →
      (call, .miss) ∈ (m.step (.run i)).execs → call.key = name →
      (caller, .ok none) ∈ ((m.step (.run i)).run after).world.results →
      (m.step (.run i)).Empties call after config.emptyTtl) ∧
    ∀ (r : Running V) name tag loader rest call after j, m.running = some r →
      r.script = .fetch name tag loader rest →
      (m.world.cache.lookup m.world.now name).1 = none →
      (call, .miss) ∈ (m.step .goOn).execs → call.key = name →
      ((m.step .goOn).run after).running = none →
      ((m.step .goOn).run after).world.ready[j]? =
        some (.fetching r.call r.cause name call.slot rest) →
      (((m.step .goOn).run after).step (.run j)).running =
        some { r with script := rest, last := none } →
      (m.step .goOn).Empties call after config.emptyTtl := by
  intro m
  have h : m.Sound := (sound_new config).run before
  have hunbounded : m.world.cache.Unbounded := unbounded_run (unbounded_new hcapacity) before
  have hconfig (move : Move V) : (m.step move).world.cache.config = config :=
    (config_run m [move]).trans (config_run (new config) before)
  constructor
  · intro i caller name loader token call after hnone hready hmiss hload hkey hresult
    have hended := h.ended_of_missed hnone hready hmiss (mem_live_of_exec hload) hkey after hresult
    have hempties := (h.step (.run i)).empties (unbounded_run hunbounded [.run i]) hload after hended
    rwa [hconfig] at hempties
  · intro r name tag loader rest call after j hr hscript hmiss hload hkey hnone hready hgoes
    have hended := (h.step .goOn).ended_of_goesOn (mem_live_of_exec hload) after hnone hready hgoes
    have hempties := (h.step .goOn).empties (unbounded_run hunbounded [.goOn]) hload after hended
    rwa [hconfig] at hempties

/-- A caller misses, and the loader for it finds no value. -/
def findingNothing : List (Move Nat) := [.run 0, .goOn, .run 0]

theorem empty_load_dampens_first_caller :
    let m := (new { weigh := fun _ _ => .ok 1 }).run
      [.outside (.request "a" ⟨none, .done .empty⟩ none)]
    (0, .ok none) ∈ ((m.step (.run 0)).run findingNothing).world.results ∧
      (m.step (.run 0)).Empties ⟨"a", 0⟩ findingNothing (.ofSeconds 30) :=
  ⟨List.mem_cons_self, (empty_load_dampens rfl _).1 0 0 "a" _ none ⟨"a", 0⟩ findingNothing rfl rfl rfl
    List.mem_cons_self rfl List.mem_cons_self⟩

/-- Values live for ten seconds, and are loaded again in the last two of them. -/
def shortLived : Config Nat where
  defaultTtl := .ofSeconds 10
  nearExpiry remaining ttl := 5 * remaining.nanos < ttl.nanos
  weigh _ _ := .ok 1

/-- A value is hit near its end, so that a refresh starts, and expires. Then a caller comes. -/
def expiring : List (Move Nat) :=
  [.outside (.perform (.set "a" 1)), .outside (.advance (.ofSeconds 9)),
    .outside (.request "a" ⟨none, .done .empty⟩ none), .run 0, .outside (.advance (.ofSeconds 2)),
    .outside (.request "a" ⟨none, .done (.ofValue 2)⟩ none)]

/-- A refresh that finds no value dampens nothing for a caller that has missed and joined it. -/
theorem not_empty_refresh_dampens :
    ¬ ∀ (config : Config Nat) before, config.capacity = 0 → config.persists = false →
      0 < config.emptyTtl.nanos →
      let m := (new config).run before
      ∀ i caller name loader token call after, m.running = none →
        m.world.ready[i]? = some (.request caller name loader token) →
        (m.world.cache.lookup m.world.now name).1 = none →
        call ∈ (m.step (.run i)).live → call.key = name →
        (caller, .ok none) ∈ ((m.step (.run i)).run after).world.results →
        (m.step (.run i)).Empties call after config.emptyTtl := by
  intro h
  obtain ⟨first, move, last, hsplit, hlive, hended, hdampened⟩ :=
    h shortLived expiring rfl rfl (by decide) 1 1 "a" _ none ⟨"a", 0⟩ findingNothing rfl rfl rfl
      List.mem_cons_self rfl List.mem_cons_self
  obtain _ | ⟨_, _ | ⟨_, _ | ⟨_, first⟩⟩⟩ := first
  · cases hsplit
    exact absurd hended List.not_mem_nil
  · cases hsplit
    obtain ⟨found, hfound, -⟩ := (hdampened [] trivial (Nat.le_add_right _ _)).kept
    cases hfound
  · cases hsplit
    exact absurd hlive List.not_mem_nil
  · simp [findingNothing] at hsplit

end Moment

end Stockroom.Cache
