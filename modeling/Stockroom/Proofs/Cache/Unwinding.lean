import Stockroom.Cache.Unwinding
import Stockroom.Proofs.Cache.Awaited
import Stockroom.Proofs.Cache.Publishing
import Stockroom.Proofs.Cache.Saving

/-! A write that crashes leaves nothing behind. If it was to store the result of an execution, this
ends without an outcome: whoever waits for it is told so, and the next one to miss the name starts a
load of it. -/

namespace Stockroom.Cache
set_option autoImplicit false

variable {V : Type} {now : Instant} {name : String} {value : Option V} {ttl : Duration}
  {crash : Crash}

theorem entry_eq_error_iff {c : Cache V} :
    c.entry now name value ttl = .error crash ↔ c.Unwritable now name value ttl crash := by
  unfold entry
  constructor
  · intro h
    cases hweight : c.config.weightOf name value with
    | error weigher =>
      rw [hweight] at h
      cases h
      exact .weigher _ hweight
    | ok weight =>
      rw [hweight] at h
      cases hdeadline : now.after? ttl with
      | none =>
        simp only [Entry.at?, hdeadline, Option.map_none] at h
        cases h
        exact .deadline weight hweight hdeadline
      | some deadline =>
        simp only [Entry.at?, hdeadline, Option.map_some] at h
        cases h
  · intro h
    cases h with
    | weigher crash hweight => simp only [hweight]
    | deadline weight hweight hdeadline =>
      simp only [hweight, Entry.at?, hdeadline, Option.map_none]

namespace World

variable {w : World V}

theorem write_of_unwritable (h : w.cache.Unwritable w.now name value ttl crash)
    (keep inRuntime : Bool) : w.write name value ttl keep inRuntime = (some crash, w) := by
  have hentry := entry_eq_error_iff.mpr h
  rcases w.write_cases name value ttl keep inRuntime with
    ⟨other, he, hw⟩ | ⟨e, he, -, -⟩ | ⟨e, he, -, -⟩
  · rw [hw, Except.error.inj (he.symm.trans hentry)]
  · cases he.symm.trans hentry
  · cases he.symm.trans hentry

theorem perform_set_of_unwritable {v : V} {time : Option Duration}
    (h : w.cache.Unwritable w.now name (some v) (time.getD w.cache.config.defaultTtl) crash)
    (inRuntime : Bool) : w.perform inRuntime (.set name v time) = (.error crash, w) := by
  rw [perform_set, write_of_unwritable h]

theorem perform_set_eq_error_iff (inRuntime : Bool) (v : V) (time : Option Duration) :
    (w.perform inRuntime (.set name v time)).1 = .error crash ↔
      w.cache.Unwritable w.now name (some v) (time.getD w.cache.config.defaultTtl) crash ∨
      crash = .weightOverflow ∧ w.cache.Outgrown w.now name (some v)
        (time.getD w.cache.config.defaultTtl) := by
  rw [perform_set, ← entry_eq_error_iff]
  rcases w.write_cases name (some v) (time.getD w.cache.config.defaultTtl) true inRuntime with
    ⟨other, he, hw⟩ | ⟨e, he, hfits, hw⟩ | ⟨e, he, hfits, hw⟩
  · simp [hw, he, Outgrown]
  · simp [hw, he, hfits, Outgrown, eq_comm]
  · simp [hw, he, hfits, Outgrown]

theorem storeAndPublish_of_unwritable {call : Call}
    (h : w.cache.Unwritable w.now call.key value ttl crash) (keep : Bool) :
    w.storeAndPublish call value ttl keep = w.abandon call := by
  rw [storeAndPublish_eq, write_of_unwritable h]
  rfl

/-! ### Turns with a result -/

theorem carryOut_of_yield? {r : Running V} {y : Yield V} (h : r.yield? w = some y) :
    w.carryOut r = (w.storeAndPublish y.call y.value y.ttl y.keep, none) := by
  obtain ⟨product, hproduct, -⟩ := Option.bind_eq_some_iff.mp h
  have hconclude := conclude_eq w hproduct
  simp only [h] at hconclude
  rw [← hconclude]
  obtain ⟨call, cause, script, last⟩ := r
  cases script <;> cases hproduct <;> rfl

theorem enter_of_yield? {t : Task V} {y : Yield V} (h : t.yield? w = some y) :
    t.exec? = some (y.call, .miss) ∧
      w.enter t = ((w.log (.restore y.call.key true)).storeAndPublish y.call y.value y.ttl y.keep,
        none) := by
  cases t with
  | start call cause loader =>
    cases cause with
    | refresh => cases h
    | miss =>
      simp only [Task.yield?] at h
      split at h
      · rename_i hasks
        obtain ⟨hpersists, hholds⟩ := Bool.and_eq_true_iff.mp hasks
        obtain ⟨rfl, hrestore⟩ := restore_of_restored? h loader
        refine ⟨rfl, ?_⟩
        rw [← hrestore]
        simp only [enter, begin, hpersists, if_true]
        rw [if_neg (by simpa using hholds)]
      · cases h
  | restoring call loader =>
    obtain ⟨rfl, hrestore⟩ := restore_of_restored? h loader
    exact ⟨rfl, hrestore⟩
  | _ => cases h

end World

namespace Moment

variable {m : Moment V} {move : Move V} {call : Call} {y : Yield V}

/-! ### Executions that end without an outcome -/

theorem Sound.retires_of_next (h : m.Sound) (ready : List (Task V)) (events : List (Event V))
    (hnext : m.next move = (World.abandon { m.world with ready, events } call, none))
    (hlive : m.live.Perm (call :: World.calls { m.world with ready, events }))
    (haloof : m.world.Aloof { m.world with ready, events }) : m.Retires move call := by
  have hworld : (m.step move).world = World.abandon { m.world with ready, events } call :=
    congrArg Prod.fst hnext
  have hrunning : (m.step move).running = none := congrArg Prod.snd hnext
  have hout := haloof.trans (World.aloof_settleCall _ call .abandoned)
  have hcalls : m.live.Perm (call :: (m.step move).live) := by
    have hstep : (m.step move).live = (m.step move).world.calls := by
      rw [live, World.live, hrunning]
      rfl
    rw [hstep, hworld]
    exact hlive.trans (((World.tasks_settleCall _ call _).filterMap Task.call?).symm.cons call)
  have hprogress : (m.step move).world.cache.flights.progress call.slot = .abandoned := by
    have hlt := h.tracks.slot_lt (hcalls.symm.subset List.mem_cons_self)
    rw [hworld]
    change (m.world.cache.flights.settle call .abandoned).progress call.slot = _
    rw [Registry.progress_settle_eq, if_pos ⟨rfl, hlt⟩]
  refine ⟨?_, ?_, ?_, ?_, ?_, ?_, ?_, hrunning, hcalls, ?_, ?_⟩
  · rw [hworld]
    rfl
  · rw [hworld]
    exact hout.books.saves
  · rw [hworld]
    exact hout.outstanding
  · rw [hworld]
    exact hout.savesEnded
  · rw [hworld]
    rfl
  · rw [hworld]
    rfl
  · rw [hworld]
    rfl
  · change m.ended ++ (m.live.filter fun c => c ∉ (m.step move).live).map _ = _
    rw [World.Change.filter_eq_singleton h.tracks.nodup hcalls, List.map_singleton]
    exact congrArg (fun p => m.ended ++ [(call, p)]) hprogress
  · intro t ht
    refine Bool.eq_false_iff.mpr fun hslot => ?_
    have hrun := (h.step move).awake t ht call.slot hslot
    rw [hprogress] at hrun
    cases hrun

theorem Sound.retires_of_goOn (h : m.Sound) {r : Running V} (hr : m.running = some r)
    (hturn : m.world.carryOut r = (m.world.abandon r.call, none)) : m.Retires .goOn r.call := by
  refine h.retires_of_next m.world.ready m.world.events ?_ ?_ (.refl _)
  · simp only [next, hr]
    exact hturn
  · rw [live, World.live, hr]
    exact .refl _

theorem Sound.retires_of_run (h : m.Sound) {i : Nat} {t : Task V} {cause : Cause} {e : Event V}
    (hnone : m.running = none) (ht : m.world.ready[i]? = some t)
    (hexec : t.exec? = some (call, cause)) (he : e.ofSave = false)
    (hturn : World.enter { m.world with ready := m.world.ready.eraseIdx i } t =
      (World.abandon (World.log { m.world with ready := m.world.ready.eraseIdx i } e) call, none)) :
    m.Retires (.run i) call := by
  have htasks := World.tasks_of_ready ht
  refine h.retires_of_next (m.world.ready.eraseIdx i) (e :: m.world.events) ?_ ?_ ?_
  · simp only [next, hnone, World.enterAt, ht]
    exact hturn
  · have hperm := World.filterMap_cons_perm Task.call? htasks
    rw [(Task.call?_of_exec? hexec).1] at hperm
    rw [live, World.live, hnone]
    exact hperm
  · have hout : World.Aloof { m.world with ready := m.world.ready.eraseIdx i } m.world :=
      .of_cons rfl rfl htasks (Task.isSave_of_exec? hexec)
    exact hout.symm.trans (.log _ he)

theorem Sound.retires_of_unwinds (h : m.Sound) (hu : m.Unwinds move y) :
    m.Retires move y.call := by
  obtain ⟨hyield, crash, hcrash⟩ := hu
  cases move with
  | goOn =>
    obtain ⟨r, hr, hy⟩ := Option.bind_eq_some_iff.mp hyield
    have hcall : y.call = r.call := (arises_of_yield? hy hr).1
    rw [hcall]
    refine h.retires_of_goOn hr ?_
    rw [World.carryOut_of_yield? hy, World.storeAndPublish_of_unwritable hcrash, hcall]
  | run i =>
    simp only [yield?] at hyield
    split at hyield
    · rename_i hnone
      have hnone := Option.isNone_iff_eq_none.mp hnone
      obtain ⟨t, ht, hy⟩ := Option.bind_eq_some_iff.mp hyield
      obtain ⟨hexec, henter⟩ :=
        World.enter_of_yield? (w := { m.world with ready := m.world.ready.eraseIdx i }) hy
      have hstore := World.storeAndPublish_of_unwritable (w := World.log
        { m.world with ready := m.world.ready.eraseIdx i } (.restore y.call.key true))
        hcrash y.keep
      exact h.retires_of_run hnone ht hexec rfl (henter.trans (congrArg (·, none) hstore))
    · cases hyield
  | _ => cases hyield

theorem Retires.isLoading (h : m.Retires move call) :
    (m.step move).world.cache.isLoading call.key = false := by
  rw [h.cache]
  exact Registry.contains_settle _ _ _

theorem Retires.mem_ended (h : m.Retires move call) :
    (call, .abandoned) ∈ (m.step move).ended := by
  rw [h.ended]
  exact List.mem_append_right _ List.mem_cons_self

/-! ### The next load of the name -/

/-- Only somebody who asks for the name can have it loaded. -/
theorem Sound.isLoading_step (h : m.Sound) (hidle : m.world.cache.isLoading name = false)
    (hstarts : ∀ loader, m.offer? move = some (name, loader) →
      (m.step move).world.started = m.world.started) :
    (m.step move).world.cache.isLoading name = false := by
  rw [← Bool.not_eq_true]
  intro hloading
  obtain ⟨call, hlive, rfl⟩ := ((h.step move).tracks.contains_iff name).mp hloading
  have hnot : call ∉ m.live := fun hcall => by
    have hbefore := (h.tracks.contains_iff call.key).mpr ⟨call, hcall, rfl⟩
    exact Bool.false_ne_true (hidle.symm.trans hbefore)
  obtain ⟨cause, loader, hoffer, -⟩ := h.followed_of_started move hnot hlive
  have hstarted := hstarts loader hoffer
  cases h.change move with
  | same hf hs hl => exact hnot (hl.subset hlive)
  | started name hnone hf hs hl => omega
  | ended other p hrun hf hs hl => exact hnot (hl.symm.subset (List.mem_cons_of_mem _ hlive))

theorem Sound.isLoading_run (h : m.Sound) (hidle : m.world.cache.isLoading name = false)
    {moves : List (Move V)} (hmoves : m.Unstarted name moves) :
    (m.run moves).world.cache.isLoading name = false := by
  induction moves generalizing m with
  | nil => exact hidle
  | cons move moves ih => exact ih (h.step move) (h.isLoading_step hidle hmoves.1) hmoves.2

theorem getOrLoad_of_idle {w : World V} (hidle : w.cache.isLoading name = false)
    (hmiss : (w.cache.lookup w.now name).1 = none) (loader : Loader V) :
    w.getOrLoad name loader = (.waiting w.cache.flights.slots.length,
      World.lead { w with cache := (w.cache.lookup w.now name).2 } name .miss loader) := by
  have hcalls : w.cache.flights.calls.get? name = none := by
    simpa [Cache.isLoading, Registry.contains, Table.contains] using hidle
  have hflights : (w.cache.lookup w.now name).2.flights = w.cache.flights := rfl
  rw [World.getOrLoad_eq]
  simp only [hmiss, World.joinLoad_eq, hflights, hcalls]

theorem Sound.loadsAfresh_of_lead (h : m.Sound) (hidle : m.world.cache.isLoading name = false)
    {loader : Loader V} {w : World V} (hflights : w.cache.flights = m.world.cache.flights)
    (hloads : w.cache.counters.loads = m.world.cache.counters.loads)
    (hgrows : (w.lead name .miss loader).Grows (m.step move).world)
    (hcache : (m.step move).world.cache = (w.lead name .miss loader).cache) :
    m.LoadsAfresh move name loader := by
  have hstart : .start (m.world.cache.flights.register name).1 .miss loader ∈
      (m.step move).world.tasks := by
    refine hgrows.tasks ?_
    rw [← hflights]
    exact (World.tasks_lead w name .miss loader).symm.subset List.mem_cons_self
  refine ⟨(m.world.cache.flights.register name).1, rfl, fun hlive => ?_, ?_, hstart, ?_⟩
  · have hloading := (h.tracks.contains_iff name).mpr ⟨_, hlive, rfl⟩
    exact Bool.false_ne_true (hidle.symm.trans hloading)
  · exact List.mem_append_right _ (List.mem_filterMap.mpr ⟨_, hstart, rfl⟩)
  · rw [hcache, ← hloads]
    rfl

theorem Sound.loadsAfresh_request (h : m.Sound) (hidle : m.world.cache.isLoading name = false)
    (hmiss : (m.world.cache.lookup m.world.now name).1 = none) (hnone : m.running = none)
    {i caller : Nat} {loader : Loader V} {token : Option String}
    (hready : m.world.ready[i]? = some (.request caller name loader token)) :
    m.LoadsAfresh (.run i) name loader := by
  let w : World V := { m.world with
    ready := m.world.ready.eraseIdx i
    cache := (m.world.cache.lookup m.world.now name).2 }
  have hworld : (m.step (.run i)).world = (w.lead name .miss loader).checkSlot caller name
      m.world.cache.flights.slots.length token := by
    have hget := getOrLoad_of_idle (w := { m.world with ready := m.world.ready.eraseIdx i })
      hidle hmiss loader
    change (m.next (.run i)).1 = _
    simp only [next, hnone, World.enterAt, hready, World.enter, hget]
    rfl
  have hcloses := World.closes_checkSlot (w.lead name .miss loader) caller name
    m.world.cache.flights.slots.length token
  rw [← hworld] at hcloses
  exact h.loadsAfresh_of_lead (w := w) hidle rfl (loads_lookup _ _ _) hcloses.grows hcloses.cache

theorem Sound.loadsAfresh_fetch (h : m.Sound) (hidle : m.world.cache.isLoading name = false)
    (hmiss : (m.world.cache.lookup m.world.now name).1 = none) {call : Call} {cause : Cause}
    {tag : Option String} {script rest : Script V} {last : Option V}
    (hr : m.running = some ⟨call, cause, .fetch name tag script rest, last⟩) :
    m.LoadsAfresh .goOn name ⟨tag, script⟩ := by
  let w : World V := { m.world with cache := (m.world.cache.lookup m.world.now name).2 }
  have hworld : (m.step .goOn).world = (w.lead name .miss ⟨tag, script⟩).park
      (.fetching call cause name m.world.cache.flights.slots.length rest) := by
    have hget := getOrLoad_of_idle (w := m.world) hidle hmiss ⟨tag, script⟩
    change (m.next .goOn).1 = _
    simp only [next, hr, World.carryOut, hget]
    rfl
  refine h.loadsAfresh_of_lead (w := w) hidle rfl (loads_lookup _ _ _) ⟨?_, ?_⟩ ?_
  · rw [hworld]
    exact fun _ ht => (World.tasks_park _ _).symm.subset (List.mem_cons_of_mem _ ht)
  · rw [hworld]
    exact List.Subset.refl _
  · rw [hworld]
    rfl

/-- Whoever misses a name that is not being loaded starts a load of it. -/
theorem Sound.loadsAfresh (h : m.Sound) (hidle : m.world.cache.isLoading name = false)
    {loader : Loader V} (hoffer : m.offer? move = some (name, loader))
    (hmiss : (m.world.cache.lookup m.world.now name).1 = none) :
    m.LoadsAfresh move name loader := by
  cases move with
  | run i =>
    simp only [offer?] at hoffer
    split at hoffer
    · rename_i hnone hready
      cases hoffer
      exact h.loadsAfresh_request hidle hmiss hnone hready
    · cases hoffer
  | goOn =>
    simp only [offer?] at hoffer
    split at hoffer
    · rename_i hr
      cases hoffer
      exact h.loadsAfresh_fetch hidle hmiss hr
    · cases hoffer
  | _ => cases hoffer

/-! ### Whoever waits -/

theorem step_perform_of_unwritable {v : V} {time : Option Duration}
    (h : m.world.cache.Unwritable m.world.now name (some v)
      (time.getD m.world.cache.config.defaultTtl) crash) (inRuntime : Bool) :
    m.step (.outside (.perform (.set name v time) inRuntime)) = m := by
  have hnext : m.next (.outside (.perform (.set name v time) inRuntime)) =
      (m.world, m.running) := by
    cases hr : m.running with
    | some r => simp only [next, hr]
    | none =>
      simp only [next, hr]
      rw [World.effect_perform, World.perform_set_of_unwritable h]
  have hgone : (m.live.filter fun call => call ∉ m.world.live m.running) = [] :=
    List.filter_eq_nil_iff.mpr fun call (hcall : call ∈ m.world.live m.running) => by
      simpa using hcall
  unfold step
  rw [hnext]
  dsimp only
  rw [hgone, List.map_nil, List.append_nil]

theorem Paired.key_eq (h : m.Paired) {t : Task V} {slot : Nat} (ht : t ∈ m.world.tasks)
    (hawaits : t.awaits? = some (name, slot)) (hlive : call ∈ m.live) (hslot : call.slot = slot) :
    name = call.key := by
  have hmem : (name, slot) ∈ m.world.awaited := List.mem_filterMap.mpr ⟨t, ht, hawaits⟩
  exact ((h _ hmem).2 call hlive hslot).symm

theorem Retires.eq_abandoned (h : m.Sound) (hr : m.Retires move call) {later : List (Move V)}
    {p : Progress V} (hp : (call, p) ∈ (m.run (move :: later)).ended) : p = .abandoned :=
  (h.run (move :: later)).ended_inj hp (ended_run later hr.mem_ended)

theorem Retires.not_live_run (h : m.Sound) (hr : m.Retires move call) (later : List (Move V)) :
    call ∉ (m.run (move :: later)).live :=
  (h.run (move :: later)).not_live_of_ended (ended_run later hr.mem_ended)

/-- A caller that waits for the execution is told that it was abandoned. -/
theorem Retires.waiter_receives (h : m.Sound) (hr : m.Retires move call) {caller : Nat}
    {token : Option String} (hwaits : .waiter caller name call.slot token ∈ m.world.tasks)
    {later : List (Move V)} (hdrop : .outside (.dropCaller caller) ∉ move :: later)
    (hrest : (m.run (move :: later)).AtRest) :
    ∃ outcome, (∀ o, (caller, o) ∈ (m.run (move :: later)).world.results ↔ o = outcome) ∧
      (outcome = .error (.loadAbandoned name) ∨
        outcome = .error (.cancelled name) ∧ ∃ before after, move :: later = before ++ after ∧
          (m.run before).world.isFired token = true ∧ (m.run before).Unanswered caller) := by
  have hlive : call ∈ m.live := hr.live.symm.subset List.mem_cons_self
  obtain ⟨p, outcome, hp, hresult, hanswer⟩ :=
    h.waiter_receives hlive hwaits (move :: later) hdrop hrest (hr.not_live_run h later)
  refine ⟨outcome, (h.run (move :: later)).results_iff hresult, hanswer.imp_left fun he => ?_⟩
  rw [hr.eq_abandoned h hp] at he
  exact (Option.some.inj he).symm

/-- A loader that waits for the execution goes on with the news that it was abandoned. -/
theorem Retires.fetcher_receives (h : m.Sound) (hr : m.Retires move call) {r : Running V}
    {rest : Script V} (hwaits : .fetching r.call r.cause name call.slot rest ∈ m.world.tasks)
    {later : List (Move V)} (hrest : (m.run (move :: later)).AtRest) :
    ∃ before i after, move :: later = before ++ .run i :: after ∧
      ((m.run before).step (.run i)).GoesOnWith r rest (.error (.loadAbandoned name)) := by
  have hlive : call ∈ m.live := hr.live.symm.subset List.mem_cons_self
  obtain ⟨p, outcome, before, i, after, hsplit, hp, hanswer, hgoes⟩ :=
    h.fetcher_receives hlive hwaits (move :: later) hrest (hr.not_live_run h later)
  have hlast : (call, p) ∈ (m.run (move :: later)).ended := by
    rw [hsplit, run_append]
    exact ended_run (.run i :: after) hp
  rw [hr.eq_abandoned h hlast] at hanswer
  obtain rfl := Option.some.inj hanswer
  exact ⟨before, i, after, hsplit, hgoes⟩

/-- A write whose weigher or deadline crashes changes no entry, and a load that crashes in it only
ends: whoever waits is told that, and the next miss loads afresh. -/
theorem crashed_write_leaves_no_trace (config : Config V) (moves : List (Move V)) :
    let m := (new config).run moves
    (∀ inRuntime name v time crash,
      (m.world.perform inRuntime (.set name v time)).1 = .error crash ↔
        m.world.cache.Unwritable m.world.now name (some v)
          (time.getD m.world.cache.config.defaultTtl) crash ∨
        crash = .weightOverflow ∧ m.world.cache.Outgrown m.world.now name (some v)
          (time.getD m.world.cache.config.defaultTtl)) ∧
    (∀ inRuntime name v time crash,
      m.world.cache.Unwritable m.world.now name (some v)
          (time.getD m.world.cache.config.defaultTtl) crash →
        m.world.perform inRuntime (.set name v time) = (.error crash, m.world) ∧
        m.step (.outside (.perform (.set name v time) inRuntime)) = m) ∧
    (∀ (r : Running V) name v time rest crash, m.running = some r →
      r.script = .act (.set name v time) rest →
      m.world.cache.Unwritable m.world.now name (some v)
          (time.getD m.world.cache.config.defaultTtl) crash → m.Retires .goOn r.call) ∧
    ∀ move y, m.Unwinds move y →
      m.Retires move y.call ∧
      (m.step move).world.cache.isLoading y.call.key = false ∧
      (∀ caller name token, .waiter caller name y.call.slot token ∈ m.world.tasks →
        name = y.call.key ∧
        ∀ later, .outside (.dropCaller caller) ∉ later → (m.run (move :: later)).AtRest →
          ∃ outcome,
            (∀ o, (caller, o) ∈ (m.run (move :: later)).world.results ↔ o = outcome) ∧
            (outcome = .error (.loadAbandoned y.call.key) ∨
              outcome = .error (.cancelled y.call.key) ∧ ∃ before after,
                move :: later = before ++ after ∧ (m.run before).world.isFired token = true ∧
                (m.run before).Unanswered caller)) ∧
      (∀ (r : Running V) name rest,
        .fetching r.call r.cause name y.call.slot rest ∈ m.world.tasks →
        name = y.call.key ∧
        ∀ later, (m.run (move :: later)).AtRest →
          ∃ before i after, move :: later = before ++ .run i :: after ∧
            ((m.run before).step (.run i)).GoesOnWith r rest
              (.error (.loadAbandoned y.call.key))) ∧
      ∀ later, (m.step move).Unstarted y.call.key later →
        (m.run (move :: later)).world.cache.isLoading y.call.key = false ∧
        ∀ next loader, (m.run (move :: later)).offer? next = some (y.call.key, loader) →
          ((m.run (move :: later)).world.cache.lookup (m.run (move :: later)).world.now
            y.call.key).1 = none →
          (m.run (move :: later)).LoadsAfresh next y.call.key loader := by
  intro m
  have h : m.Sound := (sound_new config).run moves
  have hpaired : m.Paired := paired_run config moves
  refine ⟨fun _ _ _ _ _ => World.perform_set_eq_error_iff _ _ _, ?_, ?_, ?_⟩
  · intro inRuntime name v time crash hcrash
    exact ⟨World.perform_set_of_unwritable hcrash inRuntime,
      step_perform_of_unwritable hcrash inRuntime⟩
  · intro r name v time rest crash hr hscript hcrash
    refine h.retires_of_goOn hr ?_
    obtain ⟨call, cause, script, last⟩ := r
    subst hscript
    rw [World.carryOut_act, World.perform_set_of_unwritable hcrash]
  · intro move y hu
    have hr := h.retires_of_unwinds hu
    have hlive : y.call ∈ m.live := hr.live.symm.subset List.mem_cons_self
    refine ⟨hr, hr.isLoading, ?_, ?_, ?_⟩
    · intro caller name token hwaits
      obtain rfl := hpaired.key_eq hwaits rfl hlive rfl
      refine ⟨rfl, fun later hdrop hrest => hr.waiter_receives h hwaits ?_ hrest⟩
      refine List.not_mem_cons_of_ne_of_not_mem ?_ hdrop
      rintro rfl
      cases hu.1
    · intro r name rest hwaits
      obtain rfl := hpaired.key_eq hwaits rfl hlive rfl
      exact ⟨rfl, fun later hrest => hr.fetcher_receives h hwaits hrest⟩
    · intro later hunstarted
      have hidle := (h.step move).isLoading_run hr.isLoading hunstarted
      refine ⟨hidle, fun next loader hoffer hmiss => ?_⟩
      exact (h.run (move :: later)).loadsAfresh hidle hoffer hmiss

/-- Thirteen cannot be weighed. -/
def superstitious : Config Nat where
  weigh _ v := if v = 13 then .error ⟨"bad luck"⟩ else .ok 1

/-- A caller misses and waits, and the loader for it is about to end with thirteen. -/
def loadingThirteen : List (Move Nat) :=
  [.outside (.request "a" ⟨none, .done (.ofValue 13)⟩ none), .run 0, .run 0]

theorem crashed_write_leaves_no_trace_thirteen :
    (new superstitious).step (.outside (.perform (.set "a" 13 none))) = new superstitious ∧
      ((new superstitious).run loadingThirteen).Retires .goOn ⟨"a", 0⟩ ∧
      (∀ o, (0, o) ∈ (((new superstitious).run loadingThirteen).run [.goOn, .run 0]).world.results ↔
        o = .error (.loadAbandoned "a")) ∧
      (((new superstitious).run loadingThirteen).run [.goOn, .run 0,
        .outside (.request "a" ⟨none, .done (.ofValue 7)⟩ none)]).LoadsAfresh (.run 0) "a"
          ⟨none, .done (.ofValue 7)⟩ := by
  obtain ⟨-, hset, -⟩ := crashed_write_leaves_no_trace superstitious []
  obtain ⟨-, -, -, hexecution⟩ := crashed_write_leaves_no_trace superstitious loadingThirteen
  have hunwinds : ((new superstitious).run loadingThirteen).Unwinds .goOn
      ⟨⟨"a", 0⟩, some 13, .ofSeconds 300, true⟩ := ⟨rfl, ⟨"bad luck"⟩, .weigher _ rfl⟩
  obtain ⟨hretires, -, hwaiter, -, hnext⟩ := hexecution .goOn _ hunwinds
  refine ⟨(hset true "a" 13 none ⟨"bad luck"⟩ (.weigher _ rfl)).2, hretires, ?_, ?_⟩
  · obtain ⟨-, htold⟩ := hwaiter 0 "a" none List.mem_cons_self
    obtain ⟨outcome, hresult, -⟩ := htold [.run 0] nofun ⟨rfl, rfl⟩
    obtain rfl : .error (.loadAbandoned "a") = outcome := (hresult _).mp List.mem_cons_self
    exact hresult
  · obtain ⟨-, hfresh⟩ := hnext [.run 0, .outside (.request "a" ⟨none, .done (.ofValue 7)⟩ none)]
      ⟨nofun, nofun, trivial⟩
    exact hfresh (.run 0) _ rfl rfl

end Moment

end Stockroom.Cache
