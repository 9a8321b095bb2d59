import Stockroom.Cache.Executions
import Stockroom.Proofs.Cache.Contents
import Stockroom.Proofs.Cache.SingleFlight

/-! What an execution does in its turn, when it is not its loader that acts: it waits, or goes on, or
ends, and it writes something only as it ends with a result. -/

namespace Stockroom.Cache
set_option autoImplicit false

variable {V : Type}

/-- What a loader ends with is a result, unless it is a refresh that found no value. -/
theorem Running.yield?_of_product? (w : World V) {r : Running V} {product : Loaded V}
    (h : r.product? = some product) :
    r.yield? w = some ⟨r.call, product.value,
        product.lifetime w.cache.config.defaultTtl w.cache.config.emptyTtl, true⟩ ∨
      r.yield? w = none ∧ r.cause = .refresh := by
  unfold yield?
  rw [h, Option.bind_some]
  split
  · rename_i hrefresh
    exact Or.inr ⟨rfl, hrefresh.1⟩
  · exact Or.inl rfl

theorem Task.call?_of_exec? {t : Task V} {x : Call × Cause} (h : t.exec? = some x) :
    t.call? = some x.1 ∧ t.caller? = none := by
  cases t <;> first | (cases h; exact ⟨rfl, rfl⟩) | cases h

theorem Task.isSave_of_exec? {t : Task V} {x : Call × Cause} (h : t.exec? = some x) :
    t.isSave = false := by
  cases t <;> first | rfl | cases h

namespace World

variable {w w' : World V} {x : Call × Cause}

/-- What can come of a turn, with what it stores. The log may grow, and a failure is counted with the
outcome that tells of it. -/
inductive Turned (w : World V) (x : Call × Cause) :
    Option (Yield V) → World V → Option (Running V) → Prop where
  | waits (t : Task V) : t.exec? = some x → Turned w x none (w.park t) none
  | goesOn (events : List (Event V)) (r : Running V) : r.exec = x →
      Turned w x none { w with events } (some r)
  | stores (events : List (Event V)) (w' : World V) (y : Yield V) : y.call = x.1 →
      World.write { w with events } y.call.key y.value y.ttl y.keep true = (none, w') →
      Turned w x (some y) (w'.complete y.call (.ok y.value)) none
  | skips : x.2 = .refresh → Turned w x none (w.complete x.1 (.ok none)) none
  | fails (events : List (Event V)) (text : String) :
      Turned w x none (World.failLoad { w with events } x.1 text) none
  | crashes (events : List (Event V)) : Turned w x none (World.abandon { w with events } x.1) none
  | overflows (events : List (Event V)) :
      Turned w x none
        (World.abandon { w with events, cache := w.cache.forfeit x.1.key } x.1) none

theorem turned_storeAndPublish (w : World V) (events : List (Event V)) (y : Yield V)
    (cause : Cause) :
    w.Turned (y.call, cause) (w.landing? (some y))
      (World.storeAndPublish { w with events } y.call y.value y.ttl y.keep) none := by
  have hlanding : w.landing? (some y) =
      if (w.writing? y.call.key y.value y.ttl).any Deed.isWrite then some y else none :=
    Option.filter_some
  rw [hlanding, storeAndPublish_eq]
  rcases World.write_cases { w with events } y.call.key y.value y.ttl y.keep true with
    ⟨crash, he, hw⟩ | ⟨e, he, hfits, hw⟩ | ⟨e, he, hfits, hw⟩
  · rw [hw, writing?_of_error (w := w) he]
    exact .crashes events
  · rw [hw, writing?_of_ok (w := w) he, if_neg hfits]
    exact .overflows events
  · rw [hw, writing?_of_ok (w := w) he, if_pos hfits]
    exact .stores events _ y rfl hw

theorem turned_invoke (w : World V) (call : Call) (cause : Cause) (loader : Loader V) :
    w.Turned (call, cause) none (w.invoke call cause loader).1 (w.invoke call cause loader).2 :=
  .goesOn _ _ rfl

theorem turned_restore (w : World V) (call : Call) (loader : Loader V) :
    w.Turned (call, .miss) (w.landing? (w.restored? call)) (w.restore call loader).1
      (w.restore call loader).2 := by
  cases h : w.restored? call with
  | some y =>
    obtain ⟨rfl, hrestore⟩ := restore_of_restored? h loader
    rw [hrestore]
    exact turned_storeAndPublish w _ y .miss
  | none =>
    unfold restored? at h
    unfold restore
    dsimp only
    split
    · exact .crashes _
    · rename_i hcrash
      rw [if_neg hcrash, Option.map_eq_none_iff] at h
      rw [h]
      exact .goesOn _ _ rfl

theorem turned_begin (w : World V) (call : Call) (cause : Cause) (loader : Loader V) :
    w.Turned (call, cause) (w.landing? (Task.yield? w (.start call cause loader)))
      (w.begin call cause loader).1 (w.begin call cause loader).2 := by
  cases cause with
  | refresh => exact turned_invoke w call .refresh loader
  | miss =>
    simp only [begin, Task.yield?]
    cases w.cache.config.persists with
    | false => exact turned_invoke w call .miss loader
    | true =>
      cases w.archive.holdsRestores with
      | true => exact .waits (.restoring call loader) rfl
      | false => exact turned_restore w call loader

theorem turned_checkFetch (w : World V) (call : Call) (cause : Cause) (name : String)
    (slot : Nat) (rest : Script V) :
    w.Turned (call, cause) none (w.checkFetch call cause name slot rest).1
      (w.checkFetch call cause name slot rest).2 := by
  unfold checkFetch
  split
  · exact .goesOn w.events _ rfl
  · exact .fails w.events _
  · exact .waits _ rfl

theorem turned_enter (w : World V) {t : Task V} (h : t.exec? = some x) :
    w.Turned x (w.landing? (t.yield? w)) (w.enter t).1 (w.enter t).2 := by
  cases t with
  | start call cause loader =>
    cases h
    exact turned_begin w call cause loader
  | restoring call loader =>
    cases h
    exact turned_restore w call loader
  | paused call cause gate last rest =>
    cases h
    simp only [enter]
    split
    · exact .goesOn w.events _ rfl
    · exact .waits _ rfl
  | fetching call cause name slot rest =>
    cases h
    exact turned_checkFetch w call cause name slot rest
  | _ => cases h

theorem turned_conclude (w : World V) {r : Running V} {product : Loaded V}
    (h : r.product? = some product) :
    w.Turned r.exec (w.landing? (r.yield? w)) (w.conclude r.call r.cause product) none := by
  rw [conclude_eq w h]
  rcases Running.yield?_of_product? w h with hy | ⟨hy, hrefresh⟩
  · rw [hy]
    exact turned_storeAndPublish w w.events ⟨r.call, _, _, true⟩ r.cause
  · rw [hy]
    exact .skips hrefresh

/-- The loader itself acts only where it operates on the cache or loads another name. -/
theorem turned_carryOut (w : World V) {r : Running V} (hop : r.op? = none)
    (hoffer : r.offer? = none) :
    w.Turned r.exec (w.landing? (r.yield? w)) (w.carryOut r).1 (w.carryOut r).2 := by
  obtain ⟨call, cause, script, last⟩ := r
  cases script with
  | done product => exact turned_conclude w (r := ⟨call, cause, .done product, last⟩) rfl
  | relay => exact turned_conclude w (r := ⟨call, cause, .relay, last⟩) rfl
  | fail text => exact .fails w.events text
  | crash text => exact .crashes w.events
  | await gate rest =>
    simp only [carryOut]
    split
    · exact .goesOn w.events _ rfl
    · exact .waits _ rfl
  | act op rest => cases hop
  | fetch name tag loader rest => cases hoffer

theorem exec_mem_park (w : World V) {t : Task V} (h : t.exec? = some x) :
    x ∈ (w.park t).execs none :=
  List.mem_filterMap.mpr ⟨t, (tasks_park w t).symm.subset List.mem_cons_self, h⟩

theorem Turned.exists_write {y : Yield V} {r : Option (Running V)}
    (h : w.Turned x (some y) w' r) :
    ∃ (events : List (Event V)) (w₁ : World V), w' = w₁.complete y.call (.ok y.value) ∧
      World.write { w with events } y.call.key y.value y.ttl y.keep true = (none, w₁) := by
  cases h with
  | stores events w₁ _ hcall hwrite => exact ⟨events, w₁, rfl, hwrite⟩

/-- Whoever operates on the cache goes on, or crashes and is gone. -/
theorem carryOut_of_own (w : World V) {r : Running V} (h : r.op?.isSome ∨ r.offer?.isSome) :
    r.exec ∈ (w.carryOut r).1.execs (w.carryOut r).2 ∨
      (w.carryOut r).1.cache.flights = w.cache.flights.settle r.call .abandoned := by
  obtain ⟨call, cause, script, last⟩ := r
  cases script with
  | act op rest =>
    rw [carryOut_act]
    split
    · refine Or.inr ?_
      rw [← (calm_perform w true op).flights]
      rfl
    · exact Or.inl List.mem_cons_self
  | fetch name tag loader rest =>
    refine Or.inl ?_
    simp only [carryOut]
    split
    · exact List.mem_cons_self
    · rename_i slot w' he
      exact exec_mem_park w' (t := .fetching call cause name slot rest) rfl
  | _ => rcases h with h | h <;> cases h

/-! ### What a turn leaves alone -/

/-- No save was asked for. -/
structure Unsaving (w w' : World V) : Prop where
  permits : w'.cache.permits = w.cache.permits
  dropped : w'.cache.counters.persistDropped = w.cache.counters.persistDropped
  saves : w'.tasks.countP Task.isSave = w.tasks.countP Task.isSave

/-- No entry has changed, and no save was asked for. -/
structure Quiet (w w' : World V) : Prop extends Unsaving w w' where
  store : w'.cache.store = w.cache.store

theorem Unsaving.of_cache {w₀ : World V} (h : w₀.Unsaving w') (hcache : w₀.cache = w.cache)
    (hsaves : w₀.tasks.countP Task.isSave = w.tasks.countP Task.isSave) : w.Unsaving w' :=
  ⟨hcache ▸ h.permits, hcache ▸ h.dropped, h.saves.trans hsaves⟩

theorem Turned.unsaving {r : Option (Running V)} (h : w.Turned x none w' r) : w.Unsaving w' := by
  cases h with
  | waits t ht =>
    refine ⟨rfl, rfl, ?_⟩
    rw [(tasks_park w t).countP_eq, List.countP_cons_of_neg]
    rw [Task.isSave_of_exec? ht]
    exact Bool.false_ne_true
  | goesOn events r hr => exact ⟨rfl, rfl, rfl⟩
  | skips hrefresh => exact ⟨rfl, rfl, (tasks_settleCall _ _ _).countP_eq _⟩
  | fails events text => exact ⟨rfl, rfl, (tasks_settleCall _ _ _).countP_eq _⟩
  | crashes events => exact ⟨rfl, rfl, (tasks_settleCall _ _ _).countP_eq _⟩
  | overflows events => exact ⟨rfl, rfl, (tasks_settleCall _ _ _).countP_eq _⟩

/-- After its turn an execution is still there, or its call is settled. -/
theorem Turned.stays_or_settles {stored : Option (Yield V)} {r : Option (Running V)}
    (h : w.Turned x stored w' r) :
    x ∈ w'.execs r ∨ ∃ p, p ≠ .running ∧ w'.cache.flights = w.cache.flights.settle x.1 p ∧
      ∀ v, p = .published (.ok v) →
        x.2 = .refresh ∨ ∃ y, stored = some y ∧ y.call = x.1 ∧ y.value = v := by
  cases h with
  | waits t ht => exact Or.inl (exec_mem_park w ht)
  | goesOn events r hr =>
    subst hr
    exact Or.inl List.mem_cons_self
  | stores events w₁ y hcall hwrite =>
    have hc := calm_write { w with events } y.call.key y.value y.ttl y.keep true
    rw [hwrite] at hc
    refine Or.inr ⟨.published (.ok y.value), nofun, ?_, ?_⟩
    · rw [← hcall]
      exact congrArg (fun f : Registry V => f.settle y.call (.published (.ok y.value))) hc.flights
    · intro v hv
      cases hv
      exact Or.inr ⟨y, rfl, hcall, rfl⟩
  | skips hrefresh => exact Or.inr ⟨.published (.ok none), nofun, rfl, fun _ _ => Or.inl hrefresh⟩
  | fails events text => exact Or.inr ⟨.published (.error (.load text)), nofun, rfl, nofun⟩
  | crashes events => exact Or.inr ⟨.abandoned, nofun, rfl, nofun⟩
  | overflows events => exact Or.inr ⟨.abandoned, nofun, rfl, nofun⟩

end World

namespace Moment

variable {m : Moment V} {move : Move V} {x : Call × Cause}

theorem mem_live_of_exec (h : x ∈ m.execs) : x.1 ∈ m.live := by
  rcases List.mem_append.mp h with h | h
  · obtain ⟨r, hr, rfl⟩ := Option.map_eq_some_iff.mp (Option.mem_toList.mp h)
    refine List.mem_append_left _ ?_
    rw [hr]
    exact List.mem_cons_self
  · obtain ⟨t, ht, hx⟩ := List.mem_filterMap.mp h
    exact List.mem_append_right _ (List.mem_filterMap.mpr ⟨t, ht, (Task.call?_of_exec? hx).1⟩)

/-- An execution stays as it is until it has its turn. -/
theorem Sound.execs_step (h : m.Sound) (hx : x ∈ m.execs) (move : Move V) :
    x ∈ (m.step move).execs ∨ m.turn? move = some x := by
  rcases List.mem_append.mp hx with hx | hx
  · obtain ⟨w, running, ended⟩ := m
    obtain ⟨r, rfl, rfl⟩ := Option.map_eq_some_iff.mp (Option.mem_toList.mp hx)
    cases move with
    | goOn => exact Or.inr rfl
    | _ => exact Or.inl List.mem_cons_self
  · obtain ⟨t, ht, hx⟩ := List.mem_filterMap.mp hx
    have hstep := mem_tasks_step h ht move fun caller _ hc => by
      rw [(Task.call?_of_exec? hx).2] at hc
      cases hc
    rcases hstep with hmem | ⟨i, rfl, hnone, hready⟩
    · exact Or.inl (List.mem_append_right _ (List.mem_filterMap.mpr ⟨t, hmem, hx⟩))
    · refine Or.inr ?_
      simp only [turn?, hnone, hready, Option.isNone_none, if_true, Option.bind_some, hx]

theorem exists_task_of_turn? {i : Nat} (hx : m.turn? (.run i) = some x) :
    ∃ t, m.running = none ∧ m.world.ready[i]? = some t ∧ t.exec? = some x := by
  simp only [turn?] at hx
  split at hx
  · rename_i hnone
    obtain ⟨t, ht, hexec⟩ := Option.bind_eq_some_iff.mp hx
    exact ⟨t, Option.isNone_iff_eq_none.mp hnone, ht, hexec⟩
  · cases hx

theorem turned_of_turn? (hx : m.turn? move = some x) (hop : m.op? move = none)
    (hoffer : m.offer? move = none) :
    ∃ w : World V, w.cache = m.world.cache ∧ w.now = m.world.now ∧
      w.tasks.countP Task.isSave = m.world.tasks.countP Task.isSave ∧
      w.Turned x (m.stored? move) (m.step move).world (m.step move).running := by
  obtain ⟨w, running, ended⟩ := m
  cases move with
  | goOn =>
    obtain ⟨r, rfl, rfl⟩ := Option.map_eq_some_iff.mp hx
    rw [offer?_goOn rfl] at hoffer
    exact ⟨w, rfl, rfl, rfl, World.turned_carryOut w hop hoffer⟩
  | run i =>
    obtain ⟨t, rfl, ht, hexec⟩ := exists_task_of_turn? hx
    refine ⟨{ w with ready := w.ready.eraseIdx i }, rfl, rfl, ?_, ?_⟩
    · rw [(World.tasks_of_ready ht).countP_eq, List.countP_cons_of_neg]
      rw [Task.isSave_of_exec? hexec]
      exact Bool.false_ne_true
    · have hturned := World.turned_enter { w with ready := w.ready.eraseIdx i } hexec
      simp only [step, next, World.enterAt, stored?, yield?, ht]
      exact hturned
  | _ => cases hx

/-- Where the loader itself acts, it runs. -/
theorem exists_own (hx : m.turn? move = some x)
    (h : ¬ (m.op? move = none ∧ m.offer? move = none)) :
    ∃ r, m.running = some r ∧ move = .goOn ∧ r.exec = x ∧
      (r.op?.isSome ∨ r.offer?.isSome) := by
  cases move with
  | goOn =>
    obtain ⟨r, hr, hexec⟩ := Option.map_eq_some_iff.mp hx
    have hop : m.op? .goOn = r.op? := congrArg (Option.bind · Running.op?) hr
    refine ⟨r, hr, rfl, hexec, ?_⟩
    rw [hop, offer?_goOn hr] at h
    cases hop' : r.op? with
    | some op => exact Or.inl rfl
    | none =>
      refine Or.inr (Option.isSome_iff_ne_none.mpr fun hoffer => h ⟨hop', hoffer⟩)
  | run i =>
    refine absurd ⟨rfl, ?_⟩ h
    obtain ⟨t, hnone, ht, hexec⟩ := exists_task_of_turn? hx
    rw [offer?_run hnone ht]
    cases t <;> first | rfl | cases hexec
  | _ => cases hx

/-- The write of the move does not fit. The entry of the name is gone, and nothing else has happened
to the entries and the saves. -/
structure Spoils (m : Moment V) (move : Move V) (name : String) : Prop
    extends m.world.Unsaving (m.step move).world where
  deed : m.deed? move = some (.forfeit name)
  gone : (m.step move).world.cache.peek? name = none
  others : ∀ other, other ≠ name →
    (m.step move).world.cache.peek? other = m.world.cache.peek? other
  counters : (m.step move).world.cache.counters.ofEntries = m.world.cache.counters.ofEntries

theorem Spoils.of_deed? {name : String} (hpos : 0 < m.world.cache.shards.size)
    (h : m.world.Unsaving (m.step move).world) (hdeed : m.deed? move = some (.forfeit name)) :
    m.Spoils move name := by
  have hstore := store_step m move
  rw [hdeed] at hstore
  have hpeek (other : String) : (m.step move).world.cache.peek? other =
      if name = other then none else m.world.cache.peek? other :=
    (congrArg (fun c => c.peek? other) hstore).trans (peek?_forfeit hpos name other)
  refine ⟨h, hdeed, (hpeek name).trans (if_pos rfl), fun other hne => ?_, ?_⟩
  · exact (hpeek other).trans (if_neg hne.symm)
  · exact congrArg Cache.counters hstore

theorem quiet_of_deed? (h : m.world.Unsaving (m.step move).world) (hdeed : m.deed? move = none) :
    m.world.Quiet (m.step move).world := by
  have hstore := store_step m move
  rw [hdeed] at hstore
  exact ⟨h, hstore⟩

/-- In its turn an execution goes on, or its call is settled; only a refresh gets around storing what
it publishes. -/
theorem Sound.course (h : m.Sound) (hx : x ∈ m.execs) (move : Move V) :
    x ∈ (m.step move).execs ∨ ∃ p, p ≠ .running ∧
      (m.step move).world.cache.flights = m.world.cache.flights.settle x.1 p ∧
      ∀ v, p = .published (.ok v) →
        x.2 = .refresh ∨ ∃ y, m.stored? move = some y ∧ y.call = x.1 ∧ y.value = v := by
  rcases h.execs_step hx move with hstays | hturn
  · exact Or.inl hstays
  · by_cases hown : m.op? move = none ∧ m.offer? move = none
    · obtain ⟨w, hcache, -, -, hturned⟩ := turned_of_turn? hturn hown.1 hown.2
      have hstays := hturned.stays_or_settles
      rwa [hcache] at hstays
    · obtain ⟨r, hr, rfl, rfl, hown⟩ := exists_own hturn hown
      have hnext : m.next .goOn = m.world.carryOut r := by simp only [next, hr]
      have hown := World.carryOut_of_own m.world hown
      rw [← hnext] at hown
      refine hown.imp_right fun hflights => ⟨.abandoned, ?_, hflights, ?_⟩
      · intro he
        cases he
      · intro v hv
        cases hv

end Moment

end Stockroom.Cache
