import Stockroom.Proofs.Cache.Conservation
import Stockroom.Proofs.Cache.Executions

/-! A load stores what it publishes, in the move in which it publishes it, and stores nothing if it
fails. -/

namespace Stockroom.Cache
set_option autoImplicit false

variable {V : Type}

/-- Where a result comes from, and how long it is to live. -/
inductive Yield.Arises (w : World V) (running : Option (Running V)) : Yield V → Prop where
  | restored (call : Call) (v : V) : running = none → w.archive.data[call.key]? = some v →
      Arises w running ⟨call, some v, w.cache.config.defaultTtl, false⟩
  | loaded (r : Running V) (product : Loaded V) : running = some r →
      r.product? = some product →
      Arises w running ⟨r.call, product.value,
        product.lifetime w.cache.config.defaultTtl w.cache.config.emptyTtl, true⟩

namespace Moment

variable {m : Moment V} {move : Move V} {x : Call × Cause} {y : Yield V} {call : Call}
  {p : Progress V}

/-- The move inserts a result and then publishes it. Afterwards the entry is there, with its value,
lifetime and deadline, unless it was evicted at once; one write is counted. -/
structure Stores (m : Moment V) (move : Move V) (y : Yield V) : Prop where
  arises : y.Arises m.world m.running
  turn : ∃ cause, m.turn? move = some (y.call, cause)
  inserted : ∃ e : Entry V, e.value = y.value ∧ e.ttl = y.ttl ∧
    m.world.now.after? y.ttl = some e.expiresAt ∧
    ((m.step move).world.cache.peek? y.call.key = some e ∨
      (m.step move).world.cache.peek? y.call.key = none ∧
        m.world.cache.counters.evictions < (m.step move).world.cache.counters.evictions)
  counted : (m.step move).world.cache.counters.inserts + (m.step move).world.cache.counters.updates =
    m.world.cache.counters.inserts + m.world.cache.counters.updates + 1
  publishes : ∃ w w' : World V, w.cache = m.world.cache ∧ w.now = m.world.now ∧
    w.write y.call.key y.value y.ttl y.keep true = (none, w') ∧
    (m.step move).world = w'.complete y.call (.ok y.value)

/-! ### Turns -/

theorem mem_execs_of_turn? (hx : m.turn? move = some x) : x ∈ m.execs := by
  cases move with
  | goOn =>
    refine List.mem_append_left _ (Option.mem_toList.mpr ?_)
    exact hx
  | run i =>
    obtain ⟨t, -, ht, hexec⟩ := exists_task_of_turn? hx
    exact List.mem_append_right _ (List.mem_filterMap.mpr ⟨t, mem_tasks_of_ready ht, hexec⟩)
  | _ => cases hx

theorem arises_restored? {w : World V} (h : w.restored? call = some y)
    {running : Option (Running V)} (hnone : running = none) :
    y.call = call ∧ y.Arises w running := by
  unfold World.restored? at h
  split at h
  · cases h
  · obtain ⟨v, hv, rfl⟩ := Option.map_eq_some_iff.mp h
    exact ⟨rfl, .restored call v hnone hv⟩

theorem exec?_of_yield? {w : World V} {t : Task V} (h : t.yield? w = some y)
    {running : Option (Running V)} (hnone : running = none) :
    t.exec? = some (y.call, .miss) ∧ y.Arises w running := by
  cases t with
  | start call cause loader =>
    cases cause with
    | refresh => cases h
    | miss =>
      simp only [Task.yield?] at h
      split at h
      · obtain ⟨rfl, harises⟩ := arises_restored? h hnone
        exact ⟨rfl, harises⟩
      · cases h
  | restoring call loader =>
    obtain ⟨rfl, harises⟩ := arises_restored? h hnone
    exact ⟨rfl, harises⟩
  | _ => cases h

theorem arises_of_yield? {w : World V} {r : Running V} (h : r.yield? w = some y)
    {running : Option (Running V)} (hr : running = some r) :
    y.call = r.call ∧ y.Arises w running ∧ r.op? = none ∧ r.offer? = none := by
  obtain ⟨product, hproduct, h⟩ := Option.bind_eq_some_iff.mp h
  split at h
  · cases h
  · cases h
    refine ⟨rfl, .loaded r product hr hproduct, ?_⟩
    obtain ⟨c, cause, script, last⟩ := r
    cases script <;> first | exact ⟨rfl, rfl⟩ | cases hproduct

theorem turn?_of_yield? (h : m.yield? move = some y) :
    (∃ cause, m.turn? move = some (y.call, cause)) ∧ m.op? move = none ∧
      m.offer? move = none ∧ y.Arises m.world m.running := by
  obtain ⟨w, running, ended⟩ := m
  cases move with
  | goOn =>
    obtain ⟨r, rfl, hy⟩ := Option.bind_eq_some_iff.mp h
    obtain ⟨hcall, harises, hop, hoffer⟩ := arises_of_yield? hy rfl
    refine ⟨⟨r.cause, ?_⟩, hop, (offer?_goOn rfl).trans hoffer, harises⟩
    rw [hcall]
    rfl
  | run i =>
    cases running with
    | some r => cases h
    | none =>
      obtain ⟨t, ht, hy⟩ := Option.bind_eq_some_iff.mp h
      obtain ⟨hexec, harises⟩ := exec?_of_yield? hy rfl
      refine ⟨⟨.miss, ?_⟩, rfl, ?_, harises⟩
      · exact (congrArg (Option.bind · Task.exec?) ht).trans hexec
      · rw [offer?_run rfl ht]
        cases t <;> first | rfl | cases hexec
  | _ => cases h

theorem deed?_of_turn (hop : m.op? move = none) (hoffer : m.offer? move = none) :
    m.deed? move = (m.yield? move).bind (Yield.deed? m.world) := by
  rw [deed?, hop, hoffer]
  cases m.yield? move <;> rfl

/-- The result that is stored is an entry that fits. -/
theorem entry_of_stored? (hy : m.stored? move = some y) :
    m.yield? move = some y ∧
      ∃ e, m.world.cache.entry m.world.now y.call.key y.value y.ttl = .ok e ∧
        m.world.cache.Fits y.call.key e := by
  obtain ⟨hyield, hdeed⟩ := Option.filter_eq_some_iff.mp hy
  refine ⟨hyield, ?_⟩
  unfold Yield.deed? at hdeed
  cases he : m.world.cache.entry m.world.now y.call.key y.value y.ttl with
  | error crash =>
    rw [World.writing?_of_error he] at hdeed
    cases hdeed
  | ok e =>
    rw [World.writing?_of_ok he] at hdeed
    by_cases hfits : m.world.cache.Fits y.call.key e
    · exact ⟨e, rfl, hfits⟩
    · rw [if_neg hfits] at hdeed
      cases hdeed

/-- A turn in which nothing is stored leaves the entries alone, or its result does not fit. -/
theorem quiet_or_spoils (hpos : 0 < m.world.cache.shards.size) (hx : m.turn? move = some x)
    (hop : m.op? move = none) (hoffer : m.offer? move = none) (hstored : m.stored? move = none) :
    m.world.Quiet (m.step move).world ∨ m.Spoils move x.1.key := by
  obtain ⟨w, hcache, -, hsaves, hturned⟩ := turned_of_turn? hx hop hoffer
  rw [hstored] at hturned
  have hunsaving := hturned.unsaving.of_cache hcache hsaves
  have hdeed := deed?_of_turn hop hoffer
  cases hyield : m.yield? move with
  | none =>
    rw [hyield] at hdeed
    exact .inl (quiet_of_deed? hunsaving hdeed)
  | some y =>
    obtain ⟨⟨cause, hturn⟩, -, -, -⟩ := turn?_of_yield? hyield
    obtain rfl := Option.some.inj (hturn.symm.trans hx)
    rw [hyield] at hdeed
    change m.deed? move = m.world.writing? y.call.key y.value y.ttl at hdeed
    cases he : m.world.cache.entry m.world.now y.call.key y.value y.ttl with
    | error crash =>
      rw [World.writing?_of_error he] at hdeed
      exact .inl (quiet_of_deed? hunsaving hdeed)
    | ok e =>
      rw [World.writing?_of_ok he] at hdeed
      split at hdeed
      · rename_i hfits
        have hlanding : m.stored? move = some y := by
          rw [stored?, hyield]
          refine Option.filter_some_pos ?_
          unfold Yield.deed?
          rw [World.writing?_of_ok he, if_pos hfits]
          rfl
        rw [hlanding] at hstored
        cases hstored
      · exact .inr (.of_deed? hpos hunsaving hdeed)

theorem Sound.ended_of_settle (h : m.Sound) (hlive : call ∈ m.live) (hrun : p ≠ .running)
    (hflights : (m.step move).world.cache.flights = m.world.cache.flights.settle call p) :
    (call, p) ∈ (m.step move).ended := by
  have hprogress : (m.step move).world.cache.flights.progress call.slot = p := by
    rw [hflights, Registry.progress_settle_eq, if_pos ⟨rfl, h.tracks.slot_lt hlive⟩]
  have hended := h.ended_of_settled hlive [move] (by rw [← hprogress] at hrun; exact hrun)
  rw [← hprogress]
  exact hended

/-- The move that stores a result writes it and completes its call. -/
theorem exists_write_of_stored? (hy : m.stored? move = some y) :
    ∃ w w' : World V, w.cache = m.world.cache ∧ w.now = m.world.now ∧
      w.write y.call.key y.value y.ttl y.keep true = (none, w') ∧
      (m.step move).world = w'.complete y.call (.ok y.value) := by
  obtain ⟨⟨cause, hturn⟩, hop, hoffer, -⟩ := turn?_of_yield? (entry_of_stored? hy).1
  obtain ⟨w, hcache, hnow, -, hturned⟩ := turned_of_turn? hturn hop hoffer
  rw [hy] at hturned
  obtain ⟨events, w', hworld, hwrite⟩ := hturned.exists_write
  exact ⟨{ w with events }, w', hcache, hnow, hwrite, hworld⟩

theorem stores_of_stored? (hpos : 0 < m.world.cache.shards.size) (hy : m.stored? move = some y) :
    m.Stores move y := by
  obtain ⟨hyield, e, he, hfits⟩ := entry_of_stored? hy
  obtain ⟨hturn, hop, hoffer, harises⟩ := turn?_of_yield? hyield
  have hdeed : m.deed? move = some (.write y.call.key e) := by
    rw [deed?_of_turn hop hoffer, hyield]
    exact (World.writing?_of_ok he).trans (congrArg some (if_pos hfits))
  have hstore := store_step m move
  rw [hdeed] at hstore
  have hpeek : (m.step move).world.cache.peek? y.call.key =
      (m.world.cache.add y.call.key e).peek? y.call.key :=
    congrArg (fun c => c.peek? y.call.key) hstore
  have hevictions : (m.step move).world.cache.counters.evictions =
      (m.world.cache.add y.call.key e).counters.evictions :=
    congrArg (fun c => c.counters.evictions) hstore
  have hwrites := writes_carry m.world.cache m.world.now (some (.write y.call.key e))
  obtain ⟨hvalue, httl, hdeadline⟩ := entry_fields he
  refine ⟨harises, hturn, ⟨e, hvalue, httl, hdeadline, ?_⟩, ?_, exists_write_of_stored? hy⟩
  · rw [hpeek, hevictions]
    exact peek?_add_self hpos y.call.key e
  · exact (congrArg (fun c => c.counters.inserts + c.counters.updates) hstore).trans hwrites

/-- An execution whose result is stored ends with it, in the same move. -/
theorem Sound.ended_of_stored? (h : m.Sound) (hy : m.stored? move = some y) :
    y.call ∈ m.live ∧ (y.call, .published (.ok y.value)) ∈ (m.step move).ended := by
  obtain ⟨⟨cause, hturn⟩, -, -, -⟩ := turn?_of_yield? (entry_of_stored? hy).1
  have hlive := mem_live_of_exec (mem_execs_of_turn? hturn)
  obtain ⟨w, w', hcache, -, hwrite, hworld⟩ := exists_write_of_stored? hy
  have hc := World.calm_write w y.call.key y.value y.ttl y.keep true
  rw [hwrite] at hc
  refine ⟨hlive, h.ended_of_settle hlive nofun ?_⟩
  rw [hworld, ← hcache]
  exact congrArg (fun f : Registry V => f.settle y.call (.published (.ok y.value))) hc.flights

theorem Sound.ended_inj (h : m.Sound) {q : Progress V} (hp : (call, p) ∈ m.ended)
    (hq : (call, q) ∈ m.ended) : p = q := (h.ended _ hp).2.2.symm.trans (h.ended _ hq).2.2

/-- Only a refresh publishes a value that it has not stored. -/
theorem Sound.stored?_of_published (h : m.Sound) (hload : (call, .miss) ∈ m.execs) {v : Option V}
    (hended : (call, .published (.ok v)) ∈ (m.step move).ended) :
    ∃ y, m.stored? move = some y ∧ y.call = call ∧ y.value = v := by
  have h' := h.step move
  rcases h.course hload move with hstays | ⟨p, hrun, hflights, hok⟩
  · exact absurd (mem_live_of_exec hstays) (h'.not_live_of_ended hended)
  · have hp := h.ended_of_settle (mem_live_of_exec hload) hrun hflights
    exact (hok v (h'.ended_inj hp hended)).resolve_left nofun

/-! ### Runs -/

/-- A load stays one for as long as it lives. -/
theorem Sound.execs_run (h : m.Sound) (hx : x ∈ m.execs) (moves : List (Move V))
    (hlive : x.1 ∈ (m.run moves).live) : x ∈ (m.run moves).execs := by
  induction moves generalizing m with
  | nil => exact hx
  | cons move moves ih =>
    rcases h.course hx move with hstays | ⟨p, hrun, hflights, -⟩
    · exact ih (h.step move) hstays hlive
    · have hended := h.ended_of_settle (mem_live_of_exec hx) hrun hflights
      exact absurd hlive ((h.run (move :: moves)).not_live_of_ended (ended_run moves hended))

theorem insertions_append (call : Call) (m : Moment V) (before after : List (Move V)) :
    m.insertions call (before ++ after) =
      m.insertions call before ++ (m.run before).insertions call after := by
  induction before generalizing m with
  | nil => rfl
  | cons move before ih =>
    simp only [List.cons_append, insertions, ih, List.append_assoc]
    rfl

/-- An execution that is over stores nothing, and one that is alive has stored nothing. -/
theorem Sound.insertions_eq_nil (h : m.Sound) (moves : List (Move V))
    (hover : (call, p) ∈ m.ended ∨ call ∈ (m.run moves).live) : m.insertions call moves = [] := by
  induction moves generalizing m with
  | nil => rfl
  | cons move moves ih =>
    have hhead : (m.stored? move).filter (fun y => y.call = call) = none := by
      rw [Option.filter_eq_none_iff]
      intro y hy hcall
      obtain rfl : y.call = call := by simpa using hcall
      obtain ⟨hlive, hended⟩ := h.ended_of_stored? hy
      rcases hover with he | hlater
      · exact h.not_live_of_ended he hlive
      · exact (h.run (move :: moves)).not_live_of_ended (ended_run moves hended) hlater
    simp only [insertions, hhead]
    refine ih (h.step move) (hover.imp_left fun he => ended_mono_step move he)

/-- The move in which an execution ends. -/
theorem Sound.exists_end (h : m.Sound) (hlive : call ∈ m.live) (moves : List (Move V))
    (hended : (call, p) ∈ (m.run moves).ended) :
    ∃ first move last, moves = first ++ move :: last ∧ call ∈ (m.run first).live ∧
      (call, p) ∈ ((m.run first).step move).ended := by
  induction moves generalizing m with
  | nil => exact absurd hlive (h.not_live_of_ended hended)
  | cons move moves ih =>
    rcases live_or_ended_step move hlive with hstays | ⟨q, hq⟩
    · obtain ⟨first, last_move, last, rfl, hfirst⟩ := ih (h.step move) hstays hended
      exact ⟨move :: first, last_move, last, rfl, hfirst⟩
    · obtain rfl := (h.run (move :: moves)).ended_inj (ended_run moves hq) hended
      exact ⟨[], move, moves, rfl, hlive, hq⟩

/-- What an execution has stored that is over, it has stored in the move in which it ended. -/
theorem Sound.insertions_eq (h : m.Sound) (hlive : call ∈ m.live) (moves : List (Move V))
    (hended : (call, p) ∈ (m.run moves).ended) :
    ∃ first move last, moves = first ++ move :: last ∧ call ∈ (m.run first).live ∧
      (call, p) ∈ ((m.run first).step move).ended ∧ m.insertions call moves =
        (((m.run first).stored? move).filter fun y => y.call = call).toList := by
  obtain ⟨first, move, last, rfl, hlive, hend⟩ := h.exists_end hlive moves hended
  refine ⟨first, move, last, rfl, hlive, hend, ?_⟩
  rw [insertions_append, h.insertions_eq_nil (p := p) first (Or.inr hlive)]
  change _ ++ ((m.run first).step move).insertions call last = _
  rw [((h.run first).step move).insertions_eq_nil last (Or.inl hend), List.append_nil]

/-- A caller misses, and the loader for it is about to end. -/
def loading : List (Move Nat) :=
  [.outside (.request "a" ⟨none, .done ((Loaded.ofValue 7).withTtl (.ofSeconds 5))⟩ none), .run 0,
    .run 0]

end Moment

end Stockroom.Cache
