import Stockroom.Proofs.Cache.Mirrors
import Stockroom.Proofs.Cache.Steps

/-! Turns of tasks and steps of loaders, in a world and in its image under one name. -/

namespace Stockroom.Cache
set_option autoImplicit false

variable {V : Type} {name other : String} {slots callers : Numbering} {s s' : Nat}
  {caller caller' : Nat} {w w' : World V}

/-- A world with the loader that runs in it, beside what it is to the name. -/
def Reflects (name : String) (callers : Numbering) (a a' : World V × Option (Running V)) : Prop :=
  ∃ slots, a.1.Mirrors name slots callers a'.1 ∧ Running.Beside name slots a.2 a'.2

namespace World.Mirrors

theorem still (h : w.Mirrors name slots callers w') :
    Reflects name callers (w, none) (w', none) := ⟨slots, h, .none⟩

theorem goesOn (h : w.Mirrors name slots callers w') (hs : slots.Pairs s s') {cause : Cause}
    {script : Script V} (last : Option V) (hk : script.KeepsTo name) :
    Reflects name callers (w, some ⟨⟨name, s⟩, cause, script, last⟩)
      (w', some ⟨⟨name, s'⟩, cause, script, last⟩) := ⟨slots, h, .own cause script last hs hk⟩

theorem goesOn_aside (h : w.Mirrors name slots callers w') {r : Running V}
    (hkey : r.call.key ≠ name) (hs : slots.Foreign r.call.slot)
    (hk : r.script.KeepsTo r.call.key) : Reflects name callers (w, some r) (w', none) :=
  ⟨slots, h, .aside r hkey hs hk⟩

/-! ### Loaders -/

/-- What a loader does that ends with a product is to write it. -/
theorem deed?_of_product? {r : Running V} {product : Loaded V} (h : r.product? = some product)
    (hnot : ¬ (r.cause = .refresh ∧ product.value.isNone)) :
    w.deed? r.op? r.offer? (r.yield? w) = w.writing? r.call.key product.value
      (product.lifetime w.cache.config.defaultTtl w.cache.config.emptyTtl) := by
  have hyield : r.yield? w = some ⟨r.call, product.value,
      product.lifetime w.cache.config.defaultTtl w.cache.config.emptyTtl, true⟩ := by
    rw [Running.yield?, h]
    exact if_neg hnot
  rw [hyield]
  obtain ⟨call, cause, script, last⟩ := r
  cases script <;> first | rfl | cases h

theorem carryOut (h : w.Mirrors name slots callers w') (hs : slots.Pairs s s') (cause : Cause)
    {script : Script V} (last : Option V) (hk : script.KeepsTo name)
    (hroom : let r : Running V := ⟨⟨name, s⟩, cause, script, last⟩
      w.deed? r.op? r.offer? (r.yield? w) ≠ some (.forfeit name)) :
    Reflects name callers (w.carryOut ⟨⟨name, s⟩, cause, script, last⟩)
      (w'.carryOut ⟨⟨name, s'⟩, cause, script, last⟩) := by
  cases script with
  | done product =>
    refine (h.conclude hs cause product fun hnot => ?_).still
    rwa [← deed?_of_product? (r := ⟨⟨name, s⟩, cause, .done product, last⟩) rfl hnot]
  | relay =>
    refine (h.conclude hs cause _ fun hnot => ?_).still
    rwa [← deed?_of_product? (r := ⟨⟨name, s⟩, cause, .relay, last⟩) rfl hnot]
  | fail text => exact (h.failLoad hs text).still
  | crash text => exact (h.settleCall hs _).still
  | await gate rest =>
    simp only [World.carryOut, h.opened]
    split
    · exact h.goesOn hs last hk
    · exact (h.park (.paused cause gate last rest hs hk)).still
  | act op rest =>
    obtain ⟨hop, hrest⟩ := hk
    have hall : op.name?.all (· == name) = true := by rw [hop]; simp
    obtain ⟨hanswer, hperform⟩ := h.perform true hall hroom
    rw [carryOut_act, carryOut_act, hanswer hop]
    split
    · exact (hperform.settleCall hs _).still
    · exact hperform.goesOn hs last hrest
  | fetch n tag loader rest =>
    obtain ⟨rfl, hloader, hrest⟩ := hk
    have hloader : (Loader.mk tag loader).script.KeepsTo n := hloader
    obtain ⟨slots', hle, hstarted, hload⟩ := h.getOrLoad hloader
    rw [carryOut_fetch, carryOut_fetch]
    dsimp only
    generalize (w.getOrLoad n ⟨tag, loader⟩).1 = started,
      (w'.getOrLoad n ⟨tag, loader⟩).1 = started' at hstarted ⊢
    cases hstarted with
    | hit value => exact hload.goesOn (hle.pairs s s' hs) value hrest
    | waiting ha => exact (hload.park (.fetching cause rest (hle.pairs s s' hs) ha hrest)).still

theorem carryOut_aside (h : w.Mirrors name slots callers w') {r : Running V}
    (hkey : r.call.key ≠ name) (hs : slots.Foreign r.call.slot)
    (hk : r.script.KeepsTo r.call.key) : Reflects name callers (w.carryOut r) (w', none) := by
  obtain ⟨call, cause, script, last⟩ := r
  cases script with
  | done product => exact (h.conclude_aside hkey hs cause product).still
  | relay => exact (h.conclude_aside hkey hs cause _).still
  | fail text => exact (h.failLoad_aside hkey hs text).still
  | crash text => exact (h.settleCall_aside hkey hs _).still
  | await gate rest =>
    simp only [World.carryOut]
    split
    · exact h.goesOn_aside hkey hs hk
    · exact (h.park_aside (.paused call cause gate last rest hkey hs hk)).still
  | act op rest =>
    obtain ⟨hop, hrest⟩ := hk
    have hperform := h.perform_aside true hop hkey
    rw [carryOut_act]
    split
    · exact (hperform.settleCall_aside hkey hs _).still
    · exact hperform.goesOn_aside hkey hs hrest
  | fetch n tag loader rest =>
    obtain ⟨hn, hloader, hrest⟩ := hk
    obtain rfl : n = call.key := hn
    have hloader : (Loader.mk tag loader).script.KeepsTo call.key := hloader
    obtain ⟨slots', hle, hwait, hload⟩ := h.getOrLoad_aside hkey hloader
    rw [carryOut_fetch]
    dsimp only
    split
    · exact hload.goesOn_aside hkey (hle.foreign _ hs) hrest
    · rename_i slot hslot
      exact (hload.park_aside
        (.fetching call cause slot rest hkey (hle.foreign _ hs) (hwait slot hslot) hrest)).still

/-! ### Tasks -/

theorem begin (h : w.Mirrors name slots callers w') (hs : slots.Pairs s s') (cause : Cause)
    {loader : Loader V} (hk : loader.script.KeepsTo name) :
    Reflects name callers (w.begin ⟨name, s⟩ cause loader) (w'.begin ⟨name, s'⟩ cause loader) := by
  have hinvoke (cause : Cause) : Reflects name callers (w.invoke ⟨name, s⟩ cause loader)
      (w'.invoke ⟨name, s'⟩ cause loader) :=
    (h.log (e := .invoked name loader.tag cause) rfl).goesOn hs none hk
  have hpersists' : w'.cache.config.persists = false := by
    rw [h.cache.config]
    exact h.persists
  cases cause with
  | refresh => exact hinvoke .refresh
  | miss =>
    simp only [World.begin, h.persists, hpersists']
    exact hinvoke .miss

theorem begin_aside (h : w.Mirrors name slots callers w') {call : Call} (hkey : call.key ≠ name)
    (hs : slots.Foreign call.slot) (cause : Cause) {loader : Loader V}
    (hk : loader.script.KeepsTo call.key) :
    Reflects name callers (w.begin call cause loader) (w', none) := by
  have hinvoke := (h.log_aside (e := .invoked call.key loader.tag cause) hkey).goesOn_aside
    (r := ⟨call, cause, loader.script, none⟩) hkey hs hk
  cases cause with
  | refresh => exact hinvoke
  | miss =>
    simp only [World.begin, h.persists]
    exact hinvoke

theorem checkFetch (h : w.Mirrors name slots callers w') {a a' : Nat} (hs : slots.Pairs s s')
    (ha : slots.Pairs a a') (cause : Cause) {rest : Script V} (hk : rest.KeepsTo name) :
    Reflects name callers (w.checkFetch ⟨name, s⟩ cause name a rest)
      (w'.checkFetch ⟨name, s'⟩ cause name a' rest) := by
  unfold World.checkFetch
  rw [h.flights.progress a a' ha]
  split
  · exact h.goesOn hs _ hk
  · exact (h.failLoad hs _).still
  · exact (h.park (.fetching cause rest hs ha hk)).still

theorem checkFetch_aside (h : w.Mirrors name slots callers w') {call : Call} {a : Nat}
    (hkey : call.key ≠ name) (hs : slots.Foreign call.slot) (ha : slots.Foreign a) (cause : Cause)
    {rest : Script V} (hk : rest.KeepsTo call.key) :
    Reflects name callers (w.checkFetch call cause call.key a rest) (w', none) := by
  unfold World.checkFetch
  split
  · exact h.goesOn_aside hkey hs hk
  · exact (h.failLoad_aside hkey hs _).still
  · exact (h.park_aside (.fetching call cause a rest hkey hs ha hk)).still

theorem enter (h : w.Mirrors name slots callers w') {t t' : Task V}
    (ht : t.Same name slots callers t') : Reflects name callers (w.enter t) (w'.enter t') := by
  cases ht with
  | request loader token hc hk =>
    obtain ⟨slots', hle, hstarted, hload⟩ := h.getOrLoad hk
    rw [enter_request, enter_request]
    dsimp only
    generalize (w.getOrLoad name loader).1 = started, (w'.getOrLoad name loader).1 = started'
      at hstarted ⊢
    cases hstarted with
    | hit value => exact (hload.finish hc _).still
    | waiting hs => exact (hload.checkSlot hc hs token).still
  | waiter token hc hs => exact (h.checkSlot hc hs token).still
  | start cause loader hs hk => exact h.begin hs cause hk
  | paused cause gate last rest hs hk =>
    simp only [World.enter, h.opened]
    split
    · exact h.goesOn hs last hk
    · exact (h.park (.paused cause gate last rest hs hk)).still
  | fetching cause rest hs ha hk => exact h.checkFetch hs ha cause hk

theorem enter_aside (h : w.Mirrors name slots callers w') {t : Task V}
    (ht : t.Aside name slots callers) : Reflects name callers (w.enter t) (w', none) := by
  cases ht with
  | request c n loader token hne hc hk =>
    obtain ⟨slots', hle, hwait, hload⟩ := h.getOrLoad_aside hne hk
    rw [enter_request]
    dsimp only
    split
    · exact (hload.finish_aside hc _).still
    · rename_i slot hslot
      exact (hload.checkSlot_aside hne hc (hwait slot hslot) token).still
  | waiter c n a token hne hc ha => exact (h.checkSlot_aside hne hc ha token).still
  | start call cause loader hne hs hk => exact h.begin_aside hne hs cause hk
  | paused call cause gate last rest hne hs hk =>
    simp only [World.enter]
    split
    · exact h.goesOn_aside hne hs hk
    · exact (h.park_aside (.paused call cause gate last rest hne hs hk)).still
  | fetching call cause a rest hne hs ha hk => exact h.checkFetch_aside hne hs ha cause hk

/-- A parked task becomes ready: one of the name in both worlds, another in the first only. -/
theorem wakeAt (h : w.Mirrors name slots callers w') (i : Nat) :
    (w.wakeAt i).Mirrors name slots callers
      (match placeOf? name w.parked i with
        | some k => w'.wakeAt k
        | none => w') := by
  unfold World.wakeAt placeOf?
  cases ht : w.parked[i]? with
  | none => exact h
  | some t =>
    rcases h.parked.getElem? (fun _ _ hs => hs.isOf) (fun _ ha => ha.isOf) ht with
      ⟨hof, t', hsame, ht', herase⟩ | ⟨hof, haside, herase⟩
    · rw [Option.any_some, if_pos hof]
      dsimp only
      rw [ht']
      exact { h with ready := h.ready.concat_own hsame, parked := herase }
    · rw [Option.any_some, if_neg (Bool.eq_false_iff.mp hof)]
      exact { h with ready := h.ready.concat_aside haside, parked := herase }

/-- A ready task has its turn. -/
theorem enterAt (h : w.Mirrors name slots callers w') (i : Nat) :
    Reflects name callers (w.enterAt i)
      (match placeOf? name w.ready i with
        | some k => w'.enterAt k
        | none => (w', none)) := by
  unfold World.enterAt placeOf?
  cases ht : w.ready[i]? with
  | none => exact h.still
  | some t =>
    rcases h.ready.getElem? (fun _ _ hs => hs.isOf) (fun _ ha => ha.isOf) ht with
      ⟨hof, t', hsame, ht', herase⟩ | ⟨hof, haside, herase⟩
    · rw [Option.any_some, if_pos hof]
      dsimp only
      rw [ht']
      have herased : Mirrors name slots callers { w with ready := w.ready.eraseIdx i }
          { w' with ready := w'.ready.eraseIdx ((w.ready.take i).countP (Task.isOf name)) } :=
        { h with ready := herase }
      exact herased.enter hsame
    · rw [Option.any_some, if_neg (Bool.eq_false_iff.mp hof)]
      have herased : Mirrors name slots callers { w with ready := w.ready.eraseIdx i } w' :=
        { h with ready := herase }
      exact herased.enter_aside haside

/-! ### Commands -/

theorem request (h : w.Mirrors name slots callers w') {loader : Loader V} (token : Option String)
    (hk : loader.script.KeepsTo name) :
    (w.effect (.request name loader token)).Mirrors name slots callers.add
      (w'.effect (.request name loader token)) := by
  have hbound : callers.add.bound = w.callers + 1 := congrArg (· + 1) h.bound
  have hlength : callers.add.own.length = w'.callers + 1 := by
    rw [← h.length]
    exact List.length_append
  refine (h.setCallers callers.le_add hbound hlength).spawn (.request loader token ?_ hk)
  rw [← h.bound, ← h.length]
  exact callers.pairs_add

theorem request_aside (h : w.Mirrors name slots callers w') (hne : other ≠ name)
    {loader : Loader V} (token : Option String) (hk : loader.script.KeepsTo other) :
    (w.effect (.request other loader token)).Mirrors name slots callers.skip w' := by
  have hbound : callers.skip.bound = w.callers + 1 := congrArg (· + 1) h.bound
  refine (h.setCallers callers.le_skip hbound h.length).spawn_aside
    (.request w.callers other loader token hne ?_ hk)
  rw [← h.bound]
  exact callers.foreign_skip

theorem dropCaller (h : w.Mirrors name slots callers w') (hc : callers.Pairs caller caller') :
    (w.effect (.dropCaller caller)).Mirrors name slots callers (w'.effect (.dropCaller caller')) :=
  { h with
    ready := h.ready.filter fun _ _ ht => ht.caller?_ne hc
    parked := h.parked.filter fun _ _ ht => ht.caller?_ne hc }

theorem dropCaller_aside (h : w.Mirrors name slots callers w') (hc : caller ∉ callers.own) :
    (w.effect (.dropCaller caller)).Mirrors name slots callers w' :=
  { h with
    ready := h.ready.filter_aside fun _ _ ht => ht.caller?_ne_of_not_mem hc
    parked := h.parked.filter_aside fun _ _ ht => ht.caller?_ne_of_not_mem hc }

theorem cancel (h : w.Mirrors name slots callers w') (token : String) :
    (w.effect (.cancel token)).Mirrors name slots callers (w'.effect (.cancel token)) := by
  have hfired : Mirrors name slots callers { w with fired := w.fired ++ [token] }
      { w' with fired := w'.fired ++ [token] } := { h with fired := by rw [h.fired] }
  exact hfired.wake fun _ _ ht => ht.awaitsToken token

end World.Mirrors

/-! ### What starts -/

/-- What a caller for the name sets off now: a refresh, a load or nothing. -/
def World.sets (w : World V) (name : String) : List Cause :=
  match (w.cache.lookup w.now name).1 with
  | some found => if w.refreshes name found then [.refresh] else []
  | none =>
    match w.cache.flights.calls.get? name with
    | some _ => []
    | none => [.miss]

namespace World

theorem counters_getOrLoad (w : World V) (name : String) (loader : Loader V) :
    (w.getOrLoad name loader).2.cache.counters.loads =
        w.cache.counters.loads + (w.sets name).count .miss ∧
      (w.getOrLoad name loader).2.cache.counters.refreshes =
        w.cache.counters.refreshes + (w.sets name).count .refresh := by
  obtain ⟨hloads, hrefreshes⟩ :
      (w.cache.lookup w.now name).2.counters.loads = w.cache.counters.loads ∧
        (w.cache.lookup w.now name).2.counters.refreshes = w.cache.counters.refreshes := by
    obtain ⟨_, _, _, hcounters⟩ := exists_counters_lookup w.cache w.now name
    rw [hcounters]
    exact ⟨rfl, rfl⟩
  rw [getOrLoad_eq, sets]
  cases (w.cache.lookup w.now name).1 with
  | some found =>
    have hsame : { w with cache := (w.cache.lookup w.now name).2 }.refreshes name found =
        w.refreshes name found := rfl
    simp only [considerRefresh_eq, hsame]
    split
    · exact ⟨hloads, congrArg (· + 1) hrefreshes⟩
    · exact ⟨hloads, hrefreshes⟩
  | none =>
    have hflights : (w.cache.lookup w.now name).2.flights = w.cache.flights := rfl
    simp only [joinLoad_eq, hflights]
    cases w.cache.flights.calls.get? name with
    | some slot => exact ⟨hloads, hrefreshes⟩
    | none => exact ⟨congrArg (· + 1) hloads, hrefreshes⟩

theorem counters_checkSlot (w : World V) (caller : Nat) (name : String) (slot : Nat)
    (token : Option String) :
    (w.checkSlot caller name slot token).cache.counters = w.cache.counters := by
  unfold checkSlot
  split <;> rfl

theorem Mirrors.sets (h : w.Mirrors name slots callers w') : w'.sets name = w.sets name := by
  rw [World.sets, World.sets, h.now, h.cache.lookup_fst]
  cases (w.cache.lookup w.now name).1 with
  | some found => simp only [h.refreshes]
  | none => rcases h.flights.loading_cases with ⟨hr, hr'⟩ | ⟨_, _, -, hr, hr'⟩ <;> simp only [hr, hr']

end World

namespace Moment

variable {m m' : Moment V}

/-- The counters move when a loader is handed to the cache, by what that sets off. -/
theorem counters_of_offer {move : Move V} {loader : Loader V}
    (h : m.offer? move = some (name, loader)) :
    (m.step move).world.cache.counters.loads =
        m.world.cache.counters.loads + (m.world.sets name).count .miss ∧
      (m.step move).world.cache.counters.refreshes =
        m.world.cache.counters.refreshes + (m.world.sets name).count .refresh := by
  change (m.next move).1.cache.counters.loads = _ ∧ (m.next move).1.cache.counters.refreshes = _
  obtain ⟨w, running, ended⟩ := m
  cases running with
  | some r =>
    cases move with
    | goOn =>
      obtain ⟨call, cause, script, last⟩ := r
      rw [offer?_goOn rfl] at h
      cases script with
      | fetch n tag rest rest' =>
        cases h
        simp only [next, World.carryOut_fetch]
        split <;> exact w.counters_getOrLoad name ⟨tag, rest⟩
      | _ => cases h
    | _ => cases h
  | none =>
    cases move with
    | run i =>
      cases ht : w.ready[i]? with
      | none => simp [offer?, ht] at h
      | some t =>
        rw [offer?_run rfl ht] at h
        cases t with
        | request c n rest token =>
          cases h
          have hcounters := World.counters_getOrLoad { w with ready := w.ready.eraseIdx i } name loader
          simp only [next, World.enterAt, ht, World.enter_request]
          split
          · exact hcounters
          · rw [World.counters_checkSlot]
            exact hcounters
        | _ => cases h
    | _ => cases h

theorem begun_eq (name : String) (m : Moment V) (move : Move V) :
    m.begun name move =
      if (m.offer? move).map Prod.fst = some name then (m.world.sets name).map .began else [] := by
  unfold begun
  split
  · rename_i hoffer
    obtain ⟨⟨n, loader⟩, hoffered, rfl⟩ := Option.map_eq_some_iff.mp hoffer
    obtain ⟨hloads, hrefreshes⟩ := counters_of_offer hoffered
    dsimp only
    rw [hloads, hrefreshes]
    unfold World.sets
    split
    · split <;> simp
    · split <;> simp
  · rfl

end Moment

end Stockroom.Cache
