import Stockroom.Cache.Refreshing
import Stockroom.Proofs.Cache.Lasting
import Stockroom.Proofs.Cache.Unwinding

/-! A refresh disturbs neither the hit that it was started by nor the entry that was hit, unless what
it loads outgrows a word. In its own turns it leaves the entries alone but in the one in which it
publishes a value, and what it changes there is the one insertion of that value. -/

namespace Stockroom.Cache
set_option autoImplicit false

variable {V : Type}

namespace World

variable {w w' : World V} {name : String} {loader : Loader V} {x : Call × Cause}

/-! ### What a refresh adds -/

theorem execs_of_tasks (h : w'.tasks.Perm w.tasks) (running : Option (Running V)) :
    (w'.execs running).Perm (w.execs running) := (h.filterMap Task.exec?).append_left _

theorem execs_lead (w : World V) (name : String) (cause : Cause) (loader : Loader V)
    (running : Option (Running V)) : ((w.lead name cause loader).execs running).Perm
      (((w.cache.flights.register name).1, cause) :: w.execs running) := by
  have htasks := (tasks_lead w name cause loader).filterMap Task.exec?
  exact (htasks.append_left _).trans List.perm_middle

/-! ### Failures are counted where they are told -/

/-- How an execution leaves the cache that ends with this outcome: its name is not being loaded any
more, and a failure is counted if this is one. -/
structure Leaves (w w' : World V) (call : Call) (p : Progress V) : Prop where
  flights : w'.cache.flights = w.cache.flights.settle call p
  failures : w'.cache.counters.loadFailures = w.cache.counters.loadFailures + p.failures

theorem failures_offerSave (w : World V) (name : String) (value : Option V)
    (keep inRuntime : Bool) :
    (w.offerSave name value keep inRuntime).cache.counters.loadFailures =
      w.cache.counters.loadFailures := by
  unfold offerSave requestSave Cache.requestSave
  dsimp only
  repeat' split
  all_goals rfl

theorem failures_write (w : World V) (name : String) (value : Option V) (ttl : Duration)
    (keep inRuntime : Bool) :
    (w.write name value ttl keep inRuntime).2.cache.counters.loadFailures =
      w.cache.counters.loadFailures := by
  rcases w.write_cases name value ttl keep inRuntime with
    ⟨crash, -, hw⟩ | ⟨e, -, -, hw⟩ | ⟨e, -, -, hw⟩
  · rw [hw]
  · rw [hw]
    rfl
  · rw [hw]
    exact failures_offerSave _ _ _ _ _

theorem failures_perform (w : World V) (inRuntime : Bool) (op : Op V) :
    (w.perform inRuntime op).2.cache.counters.loadFailures = w.cache.counters.loadFailures := by
  cases op with
  | set name value ttl =>
    rw [perform_set]
    exact failures_write _ _ _ _ _ _
  | get name => exact failures_lookup _ _ _
  | purgeShard index =>
    change (w.cache.purgeShard index).2.counters.loadFailures = _
    unfold purgeShard
    split <;> rfl
  | _ => rfl

theorem failures_getOrLoad (w : World V) (name : String) (loader : Loader V) :
    (w.getOrLoad name loader).2.cache.counters.loadFailures = w.cache.counters.loadFailures := by
  have hleads {w w' : World V} {offer : Option (String × Loader V)} (h : w.Leads offer w') :
      w'.cache.counters.loadFailures = w.cache.counters.loadFailures := by
    cases h with
    | none => rfl
    | start name cause loader => cases cause <;> rfl
  have hlookup := failures_lookup w.cache w.now name
  rw [getOrLoad_eq]
  cases (w.cache.lookup w.now name).1 with
  | some found => exact (hleads (leads_considerRefresh _ _ _ _)).trans hlookup
  | none => exact (hleads (leads_joinLoad _ _ _)).trans hlookup

/-- An operation that crashes does nothing to the entries, or takes out the one in whose place its
own was to come. -/
theorem deed?_of_error {inRuntime : Bool} {op : Op V} {crash : Crash}
    (h : (w.perform inRuntime op).1 = .error crash) :
    op.deed? w = none ∨ ∃ name, op.deed? w = some (.forfeit name) := by
  cases op with
  | set name value ttl =>
    rcases (perform_set_eq_error_iff inRuntime value ttl).mp h with hcrash | ⟨-, e, he, hfits⟩
    · exact Or.inl (writing?_of_error (entry_eq_error_iff.mpr hcrash))
    · exact Or.inr ⟨name, (writing?_of_ok he).trans (congrArg some (if_neg hfits))⟩
  | _ => cases h

/-- After its turn an execution is still there, and no failure was counted, or it has ended. -/
theorem Turned.leaves {stored : Option (Yield V)} {r : Option (Running V)}
    (h : w.Turned x stored w' r) :
    (x ∈ w'.execs r ∧ w'.cache.counters.loadFailures = w.cache.counters.loadFailures) ∨
      ∃ p, p ≠ .running ∧ w.Leaves w' x.1 p ∧ (stored = none → w.Quiet w' ∨ p = .abandoned) ∧
        (∀ y, stored = some y → p = .published (.ok y.value)) ∧
        ∀ v, p = .published (.ok (some v)) →
          ∃ y, stored = some y ∧ y.call = x.1 ∧ y.value = some v := by
  have hquiet (events : List (Event V)) (failures : Nat) (p : Progress V) :
      w.Quiet (World.settleCall
        { w with events, cache.counters.loadFailures := failures } x.1 p) :=
    ⟨⟨rfl, rfl, (tasks_settleCall _ _ _).countP_eq _⟩, rfl⟩
  cases h with
  | waits t ht => exact Or.inl ⟨exec_mem_park w ht, rfl⟩
  | goesOn events r hr =>
    subst hr
    exact Or.inl ⟨List.mem_cons_self, rfl⟩
  | stores events w₁ y hcall hwrite =>
    have hc := calm_write { w with events } y.call.key y.value y.ttl y.keep true
    have hfailures := failures_write { w with events } y.call.key y.value y.ttl y.keep true
    rw [hwrite] at hc hfailures
    refine Or.inr ⟨.published (.ok y.value), nofun, ⟨?_, hfailures⟩, nofun, ?_, ?_⟩
    · rw [← hcall]
      exact congrArg (fun f : Registry V => f.settle y.call (.published (.ok y.value))) hc.flights
    · rintro _ ⟨⟩
      rfl
    · intro u hu
      injection hu with hu
      injection hu with hu
      exact ⟨y, rfl, hcall, hu⟩
  | skips hrefresh =>
    exact Or.inr ⟨.published (.ok none), nofun, ⟨rfl, rfl⟩, fun _ => Or.inl (hquiet _ _ _), nofun,
      nofun⟩
  | fails events text =>
    exact Or.inr ⟨.published (.error (.load text)), nofun, ⟨rfl, rfl⟩,
      fun _ => Or.inl (hquiet _ _ _), nofun, nofun⟩
  | crashes events => exact Or.inr ⟨.abandoned, nofun, ⟨rfl, rfl⟩, fun _ => Or.inr rfl, nofun, nofun⟩
  | overflows events =>
    exact Or.inr ⟨.abandoned, nofun, ⟨rfl, rfl⟩, fun _ => Or.inr rfl, nofun, nofun⟩

/-- Whoever operates on the cache goes on, or its operation crashes and it is gone. -/
theorem leaves_carryOut_of_own (w : World V) {r : Running V}
    (h : r.op?.isSome ∨ r.offer?.isSome) :
    (r.exec ∈ (w.carryOut r).1.execs (w.carryOut r).2 ∧
        (w.carryOut r).1.cache.counters.loadFailures = w.cache.counters.loadFailures) ∨
      w.Leaves (w.carryOut r).1 r.call .abandoned ∧
        ∃ op crash, r.op? = some op ∧ (w.perform true op).1 = .error crash := by
  obtain ⟨call, cause, script, last⟩ := r
  cases script with
  | act op rest =>
    have hcalm := calm_perform w true op
    have hfailures := failures_perform w true op
    rw [carryOut_act]
    split
    · rename_i crash hcrash
      refine Or.inr ⟨⟨?_, hfailures⟩, op, crash, rfl, hcrash⟩
      exact congrArg (fun f : Registry V => f.settle call .abandoned) hcalm.flights
    · exact Or.inl ⟨List.mem_cons_self, hfailures⟩
  | fetch name tag loader rest =>
    have hfailures := failures_getOrLoad w name ⟨tag, loader⟩
    refine Or.inl ?_
    simp only [carryOut]
    split <;> rename_i he <;> rw [he] at hfailures
    · exact ⟨List.mem_cons_self, hfailures⟩
    · exact ⟨exec_mem_park _ (t := .fetching call cause name _ rest) rfl, hfailures⟩
  | _ => rcases h with h | h <;> cases h

theorem Leaves.of_cache {w₀ : World V} {call : Call} {p : Progress V} (h : w₀.Leaves w' call p)
    (hcache : w₀.cache = w.cache) : w.Leaves w' call p where
  flights := hcache ▸ h.flights
  failures := hcache ▸ h.failures

theorem Quiet.of_cache {w₀ : World V} (h : w₀.Quiet w') (hcache : w₀.cache = w.cache)
    (hsaves : w₀.tasks.countP Task.isSave = w.tasks.countP Task.isSave) : w.Quiet w' where
  toUnsaving := h.toUnsaving.of_cache hcache hsaves
  store := hcache ▸ h.store

theorem Aloof.unsaving (h : w.Aloof w') : w.Unsaving w' := ⟨h.permits, h.dropped, h.outstanding⟩

end World

namespace Moment

variable {m : Moment V} {move : Move V} {call : Call} {p : Progress V} {y : Yield V}
  {name : String} {loader : Loader V} {e : Entry V}

/-! ### Hits -/

theorem due_iff : m.Due name e ↔ m.world.refreshes name (e.snapshot m.world.now) = true := by
  have hrefreshes : m.world.refreshes name (e.snapshot m.world.now) = true ↔
      e.ttl.isZero = false ∧
        m.world.cache.config.nearExpiry (e.expiresAt.since m.world.now) e.ttl = true ∧
        m.world.cache.isLoading name = false := by
    unfold World.refreshes Entry.snapshot Entry.remaining Cache.isLoading
    cases e.ttl.isZero <;> simp
  rw [hrefreshes]
  exact ⟨fun h => ⟨h.mortal, h.near, h.idle⟩, fun ⟨hmortal, hnear, hidle⟩ => ⟨hmortal, hnear, hidle⟩⟩

/-- What a hit starts, from the world `w` in which the look-up is done. -/
theorem Sound.starts (h : m.Sound) {w : World V}
    (hcache : w.cache = (m.world.cache.lookup m.world.now name).2)
    (hexecs : (w.execs (m.step move).running).Perm m.execs)
    (htasks : (m.step move).world.tasks =
      (w.considerRefresh name (e.snapshot m.world.now) loader).tasks)
    (hafter : (m.step move).world.cache =
      (w.considerRefresh name (e.snapshot m.world.now) loader).cache) :
    m.Due name e ∧ m.StartsRefresh move name loader ∨ ¬ m.Due name e ∧ m.StartsNothing move := by
  obtain ⟨_, _, _, hcounters⟩ := exists_counters_lookup m.world.cache m.world.now name
  have hflights : w.cache.flights = m.world.cache.flights := by rw [hcache]; rfl
  have hsame : w.refreshes name (e.snapshot m.world.now) =
      m.world.refreshes name (e.snapshot m.world.now) := by
    unfold World.refreshes
    rw [hcache]
    rfl
  rw [World.considerRefresh_eq, hsame] at htasks hafter
  by_cases hdue : m.Due name e
  · rw [if_pos (due_iff.mp hdue)] at htasks hafter
    have hstarted := (World.execs_of_tasks (.of_eq htasks) (m.step move).running).trans
      (World.execs_lead w name .refresh loader _)
    rw [hflights] at hstarted
    refine Or.inl ⟨hdue, ⟨(m.world.cache.flights.register name).1, rfl, fun hlive => ?_, ?_, ?_⟩, ?_⟩
    · have hloading := (h.tracks.contains_iff name).mpr ⟨_, hlive, rfl⟩
      exact Bool.false_ne_true (hdue.idle.symm.trans hloading)
    · rw [htasks, ← hflights]
      exact (World.tasks_lead w name .refresh loader).symm.subset List.mem_cons_self
    · exact hstarted.trans (hexecs.cons _)
    · rw [hafter]
      change w.cache.counters.refreshes + 1 = _
      rw [hcache, hcounters]
  · rw [if_neg fun hrefreshes => hdue (due_iff.mpr hrefreshes)] at htasks hafter
    refine Or.inr ⟨hdue, (World.execs_of_tasks (.of_eq htasks) _).trans hexecs, ?_⟩
    rw [World.started, hafter, hcache, hcounters]
    rfl

/-- Whoever hits an entry is answered from it, and starts a refresh of it if it is due. -/
theorem Sound.serves (h : m.Sound) (hoffer : m.offer? move = some (name, loader))
    (he : m.world.cache.peek? name = some e) (hlive : e.expired m.world.now = false) :
    m.Serves e.value move ∧
      (m.Due name e ∧ m.StartsRefresh move name loader ∨
        ¬ m.Due name e ∧ m.StartsNothing move) := by
  have hfound := lookup_of_live (live?_of_peek? he hlive)
  cases move with
  | run i =>
    simp only [offer?] at hoffer
    split at hoffer
    · rename_i caller _ _ token hnone hready
      cases hoffer
      have hnext := next_run_of_hit hnone hready hfound
      have hresults : (caller, .ok e.value) ∈ (m.step (.run i)).world.results := by
        change _ ∈ (m.next (.run i)).1.results
        rw [hnext]
        exact List.mem_cons_self
      refine ⟨.caller i caller name loader token hnone hready fun later outcome => ?_, ?_⟩
      · have h' := h.step (.run i)
        exact (h'.run later).results_iff (results_run h' later hresults) outcome
      · refine h.starts rfl ?_ (congrArg (fun n => n.1.tasks) hnext)
          (congrArg (fun n => n.1.cache) hnext)
        have hrunning : (m.step (.run i)).running = none := congrArg Prod.snd hnext
        have hready := World.filterMap_cons_perm Task.exec? (World.tasks_of_ready hready)
        rw [hrunning, execs, hnone]
        exact hready.symm
    · cases hoffer
  | goOn =>
    simp only [offer?] at hoffer
    split at hoffer
    · rename_i call cause _ tag script rest last hr
      cases hoffer
      have hnext := next_goOn_of_hit hr rfl hfound
      have hrunning : (m.step .goOn).running = some ⟨call, cause, rest, e.value⟩ :=
        congrArg Prod.snd hnext
      refine ⟨.loader _ name tag script rest hr rfl hrunning, ?_⟩
      refine h.starts rfl ?_ (congrArg (fun n => n.1.tasks) hnext)
        (congrArg (fun n => n.1.cache) hnext)
      rw [hrunning, execs, hr]
      exact .refl _
    · cases hoffer
  | _ => cases hoffer

/-- To the entries a hit is a look-up, whatever it starts. -/
theorem store_of_offer? (hoffer : m.offer? move = some (name, loader)) :
    (m.step move).world.cache.store = (m.world.cache.lookup m.world.now name).2.store := by
  have hop : m.op? move = none := by
    cases move with
    | goOn =>
      simp only [offer?] at hoffer
      split at hoffer
      · rename_i hr
        simp only [op?, hr]
        rfl
      · cases hoffer
    | run i => rfl
    | _ => cases hoffer
  have hstep := store_step m move
  rw [deed?, hop, hoffer] at hstep
  exact hstep

/-! ### The course of a refresh -/

/-- What a refresh is to store is a value. -/
theorem isSome_of_yield? (hy : m.yield? move = some y)
    (hturn : m.turn? move = some (call, .refresh)) : y.value.isSome := by
  cases move with
  | goOn =>
    obtain ⟨r, hr, hy⟩ := Option.bind_eq_some_iff.mp hy
    have hexec := Option.map_eq_some_iff.mp hturn
    obtain ⟨r', hr', hexec⟩ := hexec
    obtain rfl := Option.some.inj (hr.symm.trans hr')
    obtain ⟨product, -, hy⟩ := Option.bind_eq_some_iff.mp hy
    split at hy
    · cases hy
    · rename_i hnot
      cases hy
      rw [← Option.not_isNone]
      exact Bool.not_eq_true' _ ▸ Bool.eq_false_iff.mpr fun hnone =>
        hnot ⟨congrArg Prod.snd hexec, hnone⟩
  | run i =>
    obtain ⟨t, hnone, ht, hexec⟩ := exists_task_of_turn? hturn
    simp only [yield?, hnone, ht, Option.isNone_none, if_true, Option.bind_some] at hy
    have hmiss := (exec?_of_yield? hy hnone).1
    rw [hexec] at hmiss
    cases hmiss
  | _ => cases hturn

theorem yield?_of_stored? (hy : m.stored? move = some y) : m.yield? move = some y :=
  (Option.filter_eq_some_iff.mp hy).1

/-- How the move leaves the cache that ends the execution of the call without a value: every entry
stays but the one in whose place a value was to come that does not fit. -/
structure Leaves (m : Moment V) (move : Move V) (call : Call) (p : Progress V) : Prop
    extends m.world.Leaves (m.step move).world call p where
  quiet : (∀ v, p ≠ .published (.ok (some v))) → m.world.Quiet (m.step move).world ∨
    p = .abandoned ∧ ∃ name, m.Spoils move name ∧ (m.op? move = none → name = call.key)

/-- A loader whose operation crashes leaves the entries alone, or the operation was a write that does
not fit. -/
theorem quiet_or_spoils_of_error (hpos : 0 < m.world.cache.shards.size) {r : Running V} {op : Op V}
    {crash : Crash} (hr : m.running = some r) (hop : r.op? = some op)
    (herror : (m.world.perform true op).1 = .error crash) :
    m.world.Quiet (m.step .goOn).world ∨ ∃ name, m.Spoils .goOn name := by
  have hop? : m.op? .goOn = some op := (congrArg (Option.bind · Running.op?) hr).trans hop
  have hdeed : m.deed? .goOn = op.deed? m.world := by rw [deed?, hop?]; rfl
  have hfresh : m.world.fresh? r.op? r.offer? (r.yield? m.world) = none := by
    rw [hop]
    unfold World.fresh?
    split
    · rfl
    · change (op.deed? m.world).bind Deed.value? = none
      rcases World.deed?_of_error herror with hnone | ⟨name, hforfeit⟩
      · rw [hnone, Option.bind_none]
      · rw [hforfeit]
        rfl
  have haloof := World.aloof_carryOut m.world r
  rw [hfresh] at haloof
  have hstep : (m.step .goOn).world = (m.world.carryOut r).1 := by
    change (m.next .goOn).1 = _
    simp only [next, hr]
  have hunsaving : m.world.Unsaving (m.step .goOn).world := hstep ▸ haloof.unsaving
  rcases World.deed?_of_error herror with hnone | ⟨name, hforfeit⟩
  · exact Or.inl (quiet_of_deed? hunsaving (hdeed.trans hnone))
  · exact Or.inr ⟨name, .of_deed? hpos hunsaving (hdeed.trans hforfeit)⟩

/-- In its turn a refresh goes on, or it ends; it stores what it publishes. -/
theorem Sound.turn_refresh (h : m.Sound) (hpos : 0 < m.world.cache.shards.size)
    (hturn : m.turn? move = some (call, .refresh)) :
    ((call, .refresh) ∈ (m.step move).execs ∧
        (m.step move).world.cache.counters.loadFailures =
          m.world.cache.counters.loadFailures) ∨
      ∃ p, (call, p) ∈ (m.step move).ended ∧ m.Leaves move call p ∧
        ∀ v, p = .published (.ok (some v)) →
          ∃ y, m.stored? move = some y ∧ y.call = call ∧ y.value = some v := by
  have hlive := mem_live_of_exec (mem_execs_of_turn? hturn)
  by_cases hown : m.op? move = none ∧ m.offer? move = none
  · obtain ⟨w, hcache, -, hsaves, hturned⟩ := turned_of_turn? hturn hown.1 hown.2
    rcases hturned.leaves with ⟨hstays, hfailures⟩ |
      ⟨p, hrun, hleaves, hquiet, hpublished, hstored⟩
    · exact Or.inl ⟨hstays, hcache ▸ hfailures⟩
    refine Or.inr ?_
    have hleaves := hleaves.of_cache hcache
    refine ⟨p, h.ended_of_settle hlive hrun hleaves.flights, ⟨hleaves, fun hnot => ?_⟩, hstored⟩
    have hnone : m.stored? move = none := by
      refine Option.eq_none_iff_forall_ne_some.mpr fun y hy => ?_
      obtain ⟨v, hv⟩ :=
        Option.isSome_iff_exists.mp (isSome_of_yield? (yield?_of_stored? hy) hturn)
      exact hnot v (hv ▸ hpublished y hy)
    rcases hquiet hnone with hquiet | rfl
    · exact Or.inl (hquiet.of_cache hcache hsaves)
    · refine (quiet_or_spoils hpos hturn hown.1 hown.2 hnone).imp_right fun hspoils => ?_
      exact ⟨rfl, call.key, hspoils, fun _ => rfl⟩
  · obtain ⟨r, hr, rfl, hexec, hown⟩ := exists_own hturn hown
    have hcall : r.call = call := congrArg Prod.fst hexec
    have hrun : (Progress.abandoned : Progress V) ≠ .running := nofun
    have hpublished : ∀ v, (Progress.abandoned : Progress V) ≠ .published (.ok (some v)) := nofun
    have hnext : m.next .goOn = m.world.carryOut r := by simp only [next, hr]
    have hleaves := World.leaves_carryOut_of_own m.world hown
    rw [hexec, hcall, ← hnext] at hleaves
    rcases hleaves with hstays | ⟨hleaves, op, crash, hop, herror⟩
    · exact Or.inl hstays
    refine Or.inr ?_
    have hop? : m.op? .goOn = some op := (congrArg (Option.bind · Running.op?) hr).trans hop
    refine ⟨.abandoned, h.ended_of_settle hlive hrun hleaves.flights, ⟨hleaves, fun _ => ?_⟩,
      fun v hp => absurd hp (hpublished v)⟩
    rcases quiet_or_spoils_of_error hpos hr hop herror with hquiet | ⟨name, hspoils⟩
    · exact Or.inl hquiet
    · exact Or.inr ⟨rfl, name, hspoils, fun hnone =>
        absurd (hop?.symm.trans hnone) (Option.some_ne_none op)⟩

/-- A refresh ends in a turn of its own. -/
theorem Sound.leaves_of_ended (h : m.Sound) (hpos : 0 < m.world.cache.shards.size)
    (hx : (call, .refresh) ∈ m.execs) (hended : (call, p) ∈ (m.step move).ended) :
    m.turn? move = some (call, .refresh) ∧ m.Leaves move call p ∧
      ∀ v, p = .published (.ok (some v)) →
        ∃ y, m.stored? move = some y ∧ y.call = call ∧ y.value = some v := by
  have hgone : (call, .refresh) ∉ (m.step move).execs := fun hstays =>
    (h.step move).not_live_of_ended hended (mem_live_of_exec hstays)
  have hturn := (h.execs_step hx move).resolve_left hgone
  obtain ⟨q, hq, hleaves, hstored⟩ :=
    (h.turn_refresh hpos hturn).resolve_left fun hstays => hgone hstays.1
  obtain rfl := (h.step move).ended_inj hq hended
  exact ⟨hturn, hleaves, hstored⟩

/-- A refresh that is over has stored the value that it published, or nothing. -/
theorem Sound.insertions_of_refreshed (h : m.Sound) (hpos : 0 < m.world.cache.shards.size)
    (hx : (call, .refresh) ∈ m.execs)
    (moves : List (Move V)) (hended : (call, p) ∈ (m.run moves).ended) :
    (∀ v, p = .published (.ok (some v)) → ∃ first move last y, moves = first ++ move :: last ∧
      m.insertions call moves = [y] ∧ y.call = call ∧ y.value = some v ∧
      (m.run first).Stores move y ∧ (call, p) ∈ ((m.run first).step move).ended) ∧
    ((∀ v, p ≠ .published (.ok (some v))) → m.insertions call moves = []) := by
  obtain ⟨first, move, last, rfl, hlive, hend, hall⟩ :=
    h.insertions_eq (mem_live_of_exec hx) moves hended
  have hfirst := h.run first
  have hpos : 0 < (m.run first).world.cache.shards.size := by rwa [size_shards_run]
  obtain ⟨hturn, -, hstored⟩ := hfirst.leaves_of_ended hpos (h.execs_run hx first hlive) hend
  constructor
  · rintro v rfl
    obtain ⟨y, hy, hcall, hvalue⟩ := hstored v rfl
    refine ⟨first, move, last, y, rfl, ?_, hcall, hvalue, stores_of_stored? hpos hy, hend⟩
    rw [hall, hy, Option.filter_some_pos (by simpa using hcall)]
    rfl
  · intro hnot
    rw [hall, Option.toList_eq_nil_iff, Option.filter_eq_none_iff]
    intro y hy hcall
    obtain rfl : y.call = call := by simpa using hcall
    obtain ⟨v, hv⟩ :=
      Option.isSome_iff_exists.mp (isSome_of_yield? (yield?_of_stored? hy) hturn)
    refine hnot v (((hfirst.step move).ended_inj hend (hfirst.ended_of_stored? hy).2).trans ?_)
    rw [hv]

/-- What a refresh does by itself in its turn is nothing to the entries, or the insertion of what it
publishes, unless that does not fit. -/
theorem quiet_or_stores (hpos : 0 < m.world.cache.shards.size)
    (hturn : m.turn? move = some (call, .refresh)) (hop : m.op? move = none)
    (hoffer : m.offer? move = none) :
    m.world.Quiet (m.step move).world ∨ m.Spoils move call.key ∨
      ∃ y, y.call = call ∧ y.value.isSome ∧ m.Stores move y := by
  cases hy : m.stored? move with
  | none => exact (quiet_or_spoils hpos hturn hop hoffer hy).imp_right Or.inl
  | some y =>
    have hstores := stores_of_stored? hpos hy
    obtain ⟨cause, hcall⟩ := hstores.turn
    refine Or.inr (Or.inr ⟨y, ?_, isSome_of_yield? (yield?_of_stored? hy) hturn, hstores⟩)
    exact congrArg Prod.fst (Option.some.inj (hcall.symm.trans hturn))

/-- A refresh disturbs neither the hit nor, unless what it loads does not fit, the stale entry: by
itself it changes the entries only where it inserts a value and then publishes it. -/
theorem refresh_disturbs_nothing (config : Config V) (before : List (Move V)) :
    let m := (new config).run before
    (∀ move name loader e, m.offer? move = some (name, loader) →
      m.world.cache.peek? name = some e → e.expired m.world.now = false →
      m.Serves e.value move ∧
      (m.step move).world.cache.store = (m.world.cache.lookup m.world.now name).2.store ∧
      (m.Due name e ∧ m.StartsRefresh move name loader ∨
        ¬ m.Due name e ∧ m.StartsNothing move)) ∧
    ∀ call, (call, .refresh) ∈ m.execs →
      (∀ move, m.turn? move = some (call, .refresh) →
        (m.op? move = none → m.offer? move = none → m.world.Quiet (m.step move).world ∨
          m.Spoils move call.key ∨ ∃ y, y.call = call ∧ y.value.isSome ∧ m.Stores move y) ∧
        ((call, .refresh) ∈ (m.step move).execs →
          (m.step move).world.cache.counters.loadFailures =
            m.world.cache.counters.loadFailures)) ∧
      (∀ move p, (call, p) ∈ (m.step move).ended →
        m.Leaves move call p ∧ (m.step move).world.cache.isLoading call.key = false) ∧
      ∀ after,
        (call ∈ (m.run after).live → (new config).insertions call (before ++ after) = []) ∧
        ∀ p, (call, p) ∈ (m.run after).ended →
          (∀ v, p = .published (.ok (some v)) → ∃ first move last y,
            after = first ++ move :: last ∧
            (new config).insertions call (before ++ after) = [y] ∧ y.call = call ∧
            y.value = some v ∧ (m.run first).Stores move y ∧
            (call, p) ∈ ((m.run first).step move).ended) ∧
          ((∀ v, p ≠ .published (.ok (some v))) →
            (new config).insertions call (before ++ after) = []) := by
  intro m
  have h : m.Sound := (sound_new config).run before
  have hpos : 0 < m.world.cache.shards.size := shards_pos config before
  refine ⟨fun move name loader e hoffer he hlive => ?_, fun call hx => ⟨fun move hturn => ?_, ?_, ?_⟩⟩
  · obtain ⟨hserves, hstarts⟩ := h.serves hoffer he hlive
    exact ⟨hserves, store_of_offer? hoffer, hstarts⟩
  · refine ⟨quiet_or_stores hpos hturn, fun hstays => ?_⟩
    rcases h.turn_refresh hpos hturn with ⟨-, hfailures⟩ | ⟨p, hended, -⟩
    · exact hfailures
    · exact absurd (mem_live_of_exec hstays) ((h.step move).not_live_of_ended hended)
  · intro move p hended
    obtain ⟨-, hleaves, -⟩ := h.leaves_of_ended hpos hx hended
    refine ⟨hleaves, ?_⟩
    rw [Cache.isLoading, hleaves.flights]
    exact Registry.contains_settle _ _ _
  · intro after
    have hnone : (new config).insertions call before = [] :=
      (sound_new config).insertions_eq_nil (p := .running) before (Or.inr (mem_live_of_exec hx))
    rw [insertions_append, hnone, List.nil_append]
    exact ⟨fun hlive => h.insertions_eq_nil (p := .running) after (Or.inr hlive),
      fun p hended => h.insertions_of_refreshed hpos hx after hended⟩

/-- Values live for ten seconds, and are loaded again in the last two of them. -/
def aging : Config Nat where
  defaultTtl := .ofSeconds 10
  nearExpiry remaining ttl := 5 * remaining.nanos < ttl.nanos
  weigh _ _ := .ok 1

/-- A value is close to its end when a caller asks for it. -/
def asking (script : Script Nat) : List (Move Nat) :=
  [.outside (.perform (.set "a" 1)), .outside (.advance (.ofSeconds 9)),
    .outside (.request "a" ⟨none, script⟩ none)]

/-- The refresh has begun, and is about to fail. -/
def failing : Moment Nat := (new aging).run (asking (.fail "no") ++ [.run 0, .run 0])

theorem refresh_disturbs_nothing_near_end :
    ((new aging).run (asking (.fail "no"))).Serves (some 1) (.run 0) ∧
      ((new aging).run (asking (.fail "no"))).StartsRefresh (.run 0) "a" ⟨none, .fail "no"⟩ ∧
      failing.Leaves .goOn ⟨"a", 0⟩ (.published (.error (.load "no"))) ∧
      (failing.step .goOn).world.cache.isLoading "a" = false ∧
      ∃ y, (new aging).insertions ⟨"a", 0⟩
        ((asking (.done (.ofValue 2)) ++ [.run 0]) ++ [.run 0, .goOn]) = [y] ∧
          y.value = some 2 := by
  obtain ⟨hhit, -⟩ := refresh_disturbs_nothing aging (asking (.fail "no"))
  obtain ⟨hserves, -, hstarts⟩ := hhit (.run 0) "a" ⟨none, .fail "no"⟩
    ⟨some 1, .ofSeconds 10, ⟨10000000000⟩, 1⟩ rfl rfl rfl
  obtain ⟨-, hends, -⟩ := (refresh_disturbs_nothing aging
    (asking (.fail "no") ++ [.run 0, .run 0])).2 ⟨"a", 0⟩ List.mem_cons_self
  obtain ⟨hleaves, hidle⟩ := hends .goOn _ List.mem_cons_self
  refine ⟨hserves, ?_, hleaves, hidle, ?_⟩
  · exact (hstarts.resolve_right fun h => h.1 ⟨rfl, rfl, rfl⟩).2
  · obtain ⟨-, -, hstored⟩ := (refresh_disturbs_nothing aging
      (asking (.done (.ofValue 2)) ++ [.run 0])).2 ⟨"a", 0⟩ List.mem_cons_self
    obtain ⟨hvalue, -⟩ := (hstored [.run 0, .goOn]).2 (.published (.ok (some 2))) List.mem_cons_self
    obtain ⟨-, -, -, y, -, hy, -, hvalue, -⟩ := hvalue 2 rfl
    exact ⟨y, hy, hvalue⟩

/-- A refresh has loaded a value that is too heavy beside another name's, and is about to write it. -/
def outweighed : Moment Nat :=
  (new { aging with shards := some 1, weigh := fun _ v => .ok v.toUInt64 }).run
    (.outside (.perform (.set "b" 5)) :: asking (.done (.ofValue 18446744073709551615)) ++
      [.run 0, .run 0])

set_option maxRecDepth 10000 in
/-- It takes the stale entry with it and stores nothing. -/
theorem refresh_disturbs_outweighed :
    outweighed.turn? .goOn = some (⟨"a", 0⟩, .refresh) ∧ outweighed.op? .goOn = none ∧
      outweighed.offer? .goOn = none ∧
      (outweighed.world.cache.peek? "a").isSome ∧
      (outweighed.step .goOn).world.cache.peek? "a" = none ∧
      (outweighed.step .goOn).ended = [(⟨"a", 0⟩, .abandoned)] ∧
      outweighed.stored? .goOn = none :=
  ⟨rfl, rfl, rfl, rfl, rfl, rfl, rfl⟩

end Moment

end Stockroom.Cache
