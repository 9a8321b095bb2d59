import Stockroom.Proofs.Cache.Awaiting

/-! A cache loads each name once at a time, and everybody who misses it meanwhile is told what came
of that. -/

namespace Stockroom.Cache
set_option autoImplicit false

variable {V : Type}

namespace World

variable {w w' : World V}

theorem isFired_congr (h : w'.fired = w.fired) (token : Option String) :
    w'.isFired token = w.isFired token := by
  unfold isFired
  rw [h]

theorem Leads.fired {offer : Option (String × Loader V)} (h : w.Leads offer w') :
    w'.fired = w.fired := by cases h <;> rfl

theorem getOrLoad_of_miss {name : String} (hmiss : (w.cache.lookup w.now name).1 = none)
    (loader : Loader V) : ∃ slot w', w.getOrLoad name loader = (.waiting slot, w') := by
  unfold getOrLoad
  split <;> rename_i he
  · rw [he] at hmiss
    cases hmiss
  · exact ⟨_, _, rfl⟩

theorem waiter_mem_checkSlot (caller : Nat) (name : String) {slot : Nat} {token : Option String}
    (h : w.cache.flights.progress slot = .running ∧ w.isFired token = false) :
    .waiter caller name slot token ∈ (w.checkSlot caller name slot token).tasks := by
  unfold checkSlot
  rw [h.1, h.2]
  exact List.mem_append_right _ (List.mem_append_right _ List.mem_cons_self)

theorem answer_mem_checkSlot (caller : Nat) (name : String) {slot : Nat} {token : Option String}
    (h : ¬ (w.cache.flights.progress slot = .running ∧ w.isFired token = false)) :
    ∃ outcome, (caller, outcome) ∈ (w.checkSlot caller name slot token).results ∧
      ((w.cache.flights.progress slot).answer name false = some outcome ∨
        outcome = .error (.cancelled name) ∧ w.isFired token = true) := by
  unfold checkSlot
  split
  · rename_i outcome he
    refine ⟨outcome, List.mem_cons_self, ?_⟩
    cases hfired : w.isFired token with
    | false => exact Or.inl (hfired ▸ he)
    | true =>
      rw [hfired] at he
      cases hp : w.cache.flights.progress slot with
      | running =>
        rw [hp] at he
        exact Or.inr ⟨(Option.some.inj he).symm, rfl⟩
      | published o =>
        rw [hp] at he
        exact Or.inl he
      | abandoned =>
        rw [hp] at he
        exact Or.inl he
  · rename_i he
    exact absurd (Progress.answer_eq_none_iff.mp he) h

end World

namespace Moment

variable {m : Moment V}

theorem Sound.running_of_live (h : m.Sound) {call : Call} (hcall : call ∈ m.live) :
    m.world.cache.flights.progress call.slot = .running :=
  (h.tracks.running_iff call.slot).mpr ⟨call, hcall, rfl⟩

theorem Sound.results_iff (h : m.Sound) {caller : Nat} {outcome : Outcome V}
    (hresult : (caller, outcome) ∈ m.world.results) (o : Outcome V) :
    (caller, o) ∈ m.world.results ↔ o = outcome := by
  constructor
  · intro ho
    have hnodup := (List.nodup_append.mp h.people).2.1
    exact congrArg Prod.snd (List.inj_on_of_nodup_map hnodup ho hresult rfl)
  · rintro rfl
    exact hresult

theorem Sound.live_of_get? (h : m.Sound) {name : String} {slot : Nat}
    (hslot : m.world.cache.flights.calls.get? name = some slot) : ⟨name, slot⟩ ∈ m.live :=
  (h.tracks.get?_iff name slot).mp hslot

theorem Sound.eq_of_slot (h : m.Sound) {name : String} {slot : Nat}
    (hslot : ∀ s, m.world.cache.flights.calls.get? name = some s → s = slot) :
    ∀ other ∈ m.live, other.key = name → other = ⟨name, slot⟩ := by
  rintro ⟨key, s⟩ hother rfl
  rw [hslot s (h.tracks.get?_key hother)]

/-- A call whose slot was settled since it was alive is taken down with what it left. -/
theorem Sound.ended_of_settled (h : m.Sound) {call : Call} (hcall : call ∈ m.live)
    (later : List (Move V))
    (hrun : (m.run later).world.cache.flights.progress call.slot ≠ .running) :
    (call, (m.run later).world.cache.flights.progress call.slot) ∈ (m.run later).ended := by
  obtain ⟨p, hp⟩ := (live_or_ended_run later hcall).resolve_left fun hlive =>
    hrun ((h.run later).running_of_live hlive)
  rwa [((h.run later).ended _ hp).2.2]

theorem Sound.settled_of_gone (h : m.Sound) {call : Call} (hcall : call ∈ m.live)
    (later : List (Move V)) (hgone : call ∉ (m.run later).live) :
    (m.run later).world.cache.flights.progress call.slot ≠ .running := by
  obtain ⟨p, hp⟩ := (live_or_ended_run later hcall).resolve_left hgone
  obtain ⟨-, hrun, he⟩ := (h.run later).ended _ hp
  exact he ▸ hrun

/-- The caller has no result yet. -/
def Unanswered (m : Moment V) (caller : Nat) : Prop :=
  ∀ outcome, (caller, outcome) ∉ m.world.results

theorem Sound.unanswered (h : m.Sound) {t : Task V} (ht : t ∈ m.world.tasks) {caller : Nat}
    (hcaller : t.caller? = some caller) : m.Unanswered caller := by
  intro outcome hresult
  refine (List.nodup_append.mp h.people).2.2 caller ?_ caller ?_ rfl
  · exact List.mem_filterMap.mpr ⟨t, ht, hcaller⟩
  · exact List.mem_map.mpr ⟨_, hresult, rfl⟩

theorem mem_tasks_of_ready {i : Nat} {t : Task V} (h : m.world.ready[i]? = some t) :
    t ∈ m.world.tasks := List.mem_append_left _ (List.mem_of_getElem? h)

/-- A caller that waits at a slot gets the outcome of the call that is alive there, unless its token
fires first. -/
theorem Sound.waiter_receives (h : m.Sound) {call : Call} (hlive : call ∈ m.live) {caller : Nat}
    {name : String} {token : Option String}
    (hwaits : .waiter caller name call.slot token ∈ m.world.tasks) (later : List (Move V))
    (hdrop : .outside (.dropCaller caller) ∉ later) (hrest : (m.run later).AtRest)
    (hgone : call ∉ (m.run later).live) :
    ∃ p outcome, (call, p) ∈ (m.run later).ended ∧
      (caller, outcome) ∈ (m.run later).world.results ∧
      (p.answer name false = some outcome ∨ outcome = .error (.cancelled name) ∧
        ∃ before after, later = before ++ after ∧ (m.run before).world.isFired token = true ∧
          (m.run before).Unanswered caller) := by
  obtain ⟨p, hp⟩ := (live_or_ended_run later hlive).resolve_left hgone
  obtain ⟨before, j, after, rfl, hnone, hready, hturn⟩ :=
    turn_of_settled h hwaits (beq_self_eq_true call.slot)
      (fun w => w.cache.flights.progress call.slot = .running ∧ w.isFired token = false) later
      (fun c hc => by cases hc; exact hdrop)
      (fun w ready hw => World.waiter_mem_checkSlot (w := { w with ready }) caller name hw) hrest
      (h.settled_of_gone hlive later hgone)
  have hbefore := h.run before
  obtain ⟨outcome, hresult, hanswer⟩ := World.answer_mem_checkSlot
    (w := { (m.run before).world with ready := (m.run before).world.ready.eraseIdx j })
    caller name hturn
  have hstep : (caller, outcome) ∈ ((m.run before).step (.run j)).world.results := by
    change _ ∈ ((m.run before).next (.run j)).1.results
    simp only [next, hnone, World.enterAt, hready]
    exact hresult
  rw [run_append] at hp ⊢
  have hfinal := results_run (hbefore.step (.run j)) after hstep
  rcases hanswer with hanswer | ⟨hcancelled, hfired⟩
  · have hsettled : (m.run before).world.cache.flights.progress call.slot ≠ .running := by
      intro he
      change ((m.run before).world.cache.flights.progress call.slot).answer name false = _
        at hanswer
      rw [he] at hanswer
      cases hanswer
    have hended := h.ended_of_settled hlive before hsettled
    exact ⟨_, outcome, ended_run (.run j :: after) hended, hfinal, Or.inl hanswer⟩
  · exact ⟨p, outcome, hp, hfinal, Or.inr ⟨hcancelled, before, _, rfl, hfired,
      hbefore.unanswered (mem_tasks_of_ready hready) rfl⟩⟩

/-- A caller that misses leads the execution for its name, or follows the one in flight. -/
theorem exists_checkSlot_of_miss {i caller : Nat} {name : String} {loader : Loader V}
    {token : Option String} (hnone : m.running = none)
    (hready : m.world.ready[i]? = some (.request caller name loader token))
    (hmiss : (m.world.cache.lookup m.world.now name).1 = none) :
    ∃ (slot : Nat) (w' : World V),
      (m.step (.run i)).world = w'.checkSlot caller name slot token ∧
      w'.cache.flights.calls.get? name = some slot ∧
      (∀ s, m.world.cache.flights.calls.get? name = some s → s = slot) ∧
      w'.fired = m.world.fired := by
  obtain ⟨slot, w', he⟩ := World.getOrLoad_of_miss
    (w := { m.world with ready := m.world.ready.eraseIdx i }) hmiss loader
  obtain ⟨⟨w₁, hc, hl⟩, hslot⟩ := World.getOrLoad_waiting he
  refine ⟨slot, w', ?_, hslot, fun s hs => World.getOrLoad_slot he hs, ?_⟩
  · change (m.next (.run i)).1 = _
    simp only [next, hnone, World.enterAt, hready, World.enter, he]
  · exact hl.fired.trans hc.fired

/-- A caller that misses gets the outcome of the execution that is in flight then, unless its token
fires first. -/
theorem Sound.caller_receives (h : m.Sound) {i caller : Nat} {name : String} {loader : Loader V}
    {token : Option String} (hnone : m.running = none)
    (hready : m.world.ready[i]? = some (.request caller name loader token))
    (hmiss : (m.world.cache.lookup m.world.now name).1 = none) :
    ∃ call ∈ (m.step (.run i)).live, call.key = name ∧
      (∀ other ∈ m.live, other.key = name → other = call) ∧
      ∀ later, .outside (.dropCaller caller) ∉ later → (m.run (.run i :: later)).AtRest →
        call ∉ (m.run (.run i :: later)).live →
        ∃ p outcome, (call, p) ∈ (m.run (.run i :: later)).ended ∧
          (∀ o, (caller, o) ∈ (m.run (.run i :: later)).world.results ↔ o = outcome) ∧
          (p.answer name false = some outcome ∨ outcome = .error (.cancelled name) ∧
            ∃ before after, .run i :: later = before ++ after ∧
              (m.run before).world.isFired token = true ∧ (m.run before).Unanswered caller) := by
  obtain ⟨slot, w', hworld, hslot, hsame, hfired⟩ := exists_checkSlot_of_miss hnone hready hmiss
  have h₁ := h.step (.run i)
  have hcache : (m.step (.run i)).world.cache = w'.cache := by
    rw [hworld]
    exact (World.closes_checkSlot w' caller name slot token).cache
  have hlive : ⟨name, slot⟩ ∈ (m.step (.run i)).live := h₁.live_of_get? (hcache ▸ hslot)
  have hrun : w'.cache.flights.progress slot = .running := hcache ▸ h₁.running_of_live hlive
  refine ⟨⟨name, slot⟩, hlive, rfl, h.eq_of_slot hsame, ?_⟩
  intro later hdrop hrest hgone
  have hlast := h.run (.run i :: later)
  by_cases hkept : w'.cache.flights.progress slot = .running ∧ w'.isFired token = false
  · have hwaits := World.waiter_mem_checkSlot caller name hkept
    rw [← hworld] at hwaits
    obtain ⟨p, outcome, hp, hresult, hanswer⟩ :=
      h₁.waiter_receives hlive hwaits later hdrop hrest hgone
    refine ⟨p, outcome, hp, hlast.results_iff hresult, hanswer.imp_right ?_⟩
    rintro ⟨hcancelled, before, after, rfl, hf, hunanswered⟩
    exact ⟨hcancelled, .run i :: before, after, rfl, hf, hunanswered⟩
  · obtain ⟨p, hp⟩ := (live_or_ended_run later hlive).resolve_left hgone
    obtain ⟨outcome, hresult, hanswer⟩ := World.answer_mem_checkSlot caller name hkept
    obtain ⟨hcancelled, hf⟩ := hanswer.resolve_left fun he => by
      rw [hrun] at he
      cases he
    have hfinal : (caller, outcome) ∈ (m.run (.run i :: later)).world.results :=
      results_run h₁ later (hworld ▸ hresult)
    refine ⟨p, outcome, hp, hlast.results_iff hfinal, Or.inr ⟨hcancelled, [], _, rfl, ?_, ?_⟩⟩
    · exact (World.isFired_congr hfired token) ▸ hf
    · exact h.unanswered (mem_tasks_of_ready hready) rfl

/-- The loader of an execution has gone on with an outcome that it waited for: with the value, or to
its end if there is none. -/
def GoesOnWith (m : Moment V) (r : Running V) (rest : Script V) : Outcome V → Prop
  | .ok value => m.running = some { r with script := rest, last := value }
  | .error failure => (r.call, .published (.error (.load failure.message))) ∈ m.ended

theorem Sound.goesOnWith (h : m.Sound) {r : Running V} {i slot : Nat} {name : String}
    {rest : Script V} (hnone : m.running = none)
    (hready : m.world.ready[i]? = some (.fetching r.call r.cause name slot rest))
    (hrun : m.world.cache.flights.progress slot ≠ .running) :
    ∃ outcome, (m.world.cache.flights.progress slot).answer name false = some outcome ∧
      (m.step (.run i)).GoesOnWith r rest outcome := by
  have hnext : m.next (.run i) =
      { m.world with ready := m.world.ready.eraseIdx i }.checkFetch r.call r.cause name slot
        rest := by
    simp only [next, hnone, World.enterAt, hready, World.enter]
  cases hanswer : (m.world.cache.flights.progress slot).answer name false with
  | none => exact absurd (Progress.answer_eq_none_iff.mp hanswer).1 hrun
  | some outcome =>
    refine ⟨outcome, rfl, ?_⟩
    unfold World.checkFetch at hnext
    simp only [hanswer] at hnext
    cases outcome with
    | ok value =>
      change (m.next (.run i)).2 = _
      rw [hnext]
    | error failure =>
      have hcall : r.call ∈ m.live := by
        refine List.mem_append_right _ (List.mem_filterMap.mpr ⟨_, mem_tasks_of_ready hready, ?_⟩)
        rfl
      have hprogress : (m.step (.run i)).world.cache.flights.progress r.call.slot =
          .published (.error (.load failure.message)) := by
        change (m.next (.run i)).1.cache.flights.progress _ = _
        rw [hnext]
        change (m.world.cache.flights.settle r.call _).progress r.call.slot = _
        rw [Registry.progress_settle_eq, if_pos ⟨rfl, h.tracks.slot_lt hcall⟩]
      refine mem_ended_step.mpr (Or.inr ⟨hcall, fun hlive => ?_, hprogress.symm⟩)
      rw [(h.step _).running_of_live hlive] at hprogress
      cases hprogress

/-- A loader that waits at a slot goes on with the outcome of the call that is alive there. -/
theorem Sound.fetcher_receives (h : m.Sound) {call : Call} (hlive : call ∈ m.live)
    {r : Running V} {name : String} {rest : Script V}
    (hwaits : .fetching r.call r.cause name call.slot rest ∈ m.world.tasks)
    (later : List (Move V)) (hrest : (m.run later).AtRest) (hgone : call ∉ (m.run later).live) :
    ∃ p outcome before i after, later = before ++ .run i :: after ∧
      (call, p) ∈ (m.run before).ended ∧ p.answer name false = some outcome ∧
      ((m.run before).step (.run i)).GoesOnWith r rest outcome := by
  obtain ⟨before, i, after, rfl, hnone, hready, hturn⟩ :=
    turn_of_settled h hwaits (beq_self_eq_true call.slot)
      (fun w => w.cache.flights.progress call.slot = .running) later (fun _ hc => by cases hc)
      (fun w ready hw => by
        simp only [World.enter, World.checkFetch, hw, Progress.answer]
        exact (World.tasks_park _ _).symm.subset List.mem_cons_self)
      hrest (h.settled_of_gone hlive later hgone)
  obtain ⟨outcome, hanswer, hgoes⟩ := (h.run before).goesOnWith hnone hready hturn
  exact ⟨_, outcome, before, i, after, rfl, h.ended_of_settled hlive before hturn, hanswer, hgoes⟩

/-- A loader that misses another name goes on with the outcome of the execution that is in flight
for it then. -/
theorem Sound.loader_receives (h : m.Sound) {r : Running V} {name : String}
    {tag : Option String} {loader rest : Script V} (hr : m.running = some r)
    (hscript : r.script = .fetch name tag loader rest)
    (hmiss : (m.world.cache.lookup m.world.now name).1 = none) :
    ∃ call ∈ (m.step .goOn).live, call.key = name ∧
      (∀ other ∈ m.live, other.key = name → other = call) ∧
      ∀ later, (m.run (.goOn :: later)).AtRest → call ∉ (m.run (.goOn :: later)).live →
        ∃ p outcome before i after, .goOn :: later = before ++ .run i :: after ∧
          (call, p) ∈ (m.run before).ended ∧ p.answer name false = some outcome ∧
          ((m.run before).step (.run i)).GoesOnWith r rest outcome := by
  have hw : ∃ (slot : Nat) (w' : World V), (m.step .goOn).world =
      w'.park (.fetching r.call r.cause name slot rest) ∧
      w'.cache.flights.calls.get? name = some slot ∧
      ∀ s, m.world.cache.flights.calls.get? name = some s → s = slot := by
    obtain ⟨slot, w', he⟩ := World.getOrLoad_of_miss hmiss ⟨tag, loader⟩
    refine ⟨slot, w', ?_, (World.getOrLoad_waiting he).2, fun s hs => World.getOrLoad_slot he hs⟩
    change (m.next .goOn).1 = _
    simp only [next, hr, World.carryOut, hscript, he]
  obtain ⟨slot, w', hworld, hslot, hsame⟩ := hw
  have h₁ := h.step .goOn
  have hlive : ⟨name, slot⟩ ∈ (m.step .goOn).live := by
    apply h₁.live_of_get?
    rw [hworld]
    exact hslot
  refine ⟨⟨name, slot⟩, hlive, rfl, h.eq_of_slot hsame, ?_⟩
  intro later hrest hgone
  have hwaits : .fetching r.call r.cause name slot rest ∈ (m.step .goOn).world.tasks := by
    rw [hworld]
    exact (World.tasks_park _ _).symm.subset List.mem_cons_self
  obtain ⟨p, outcome, before, i, after, rfl, hended, hanswer, hgoes⟩ :=
    h₁.fetcher_receives hlive hwaits later hrest hgone
  exact ⟨p, outcome, .goOn :: before, i, after, rfl, hended, hanswer, hgoes⟩

/-- At any moment each name has at most one load or refresh in progress, and whoever waits for it is
told how that one ends. -/
theorem single_flight (config : Config V) (moves : List (Move V)) :
    let m := (new config).run moves
    (m.live.map Call.key).Nodup ∧
    (∀ name, m.world.cache.isLoading name = true ↔ ∃ call ∈ m.live, call.key = name) ∧
    m.world.cache.counters.loads + m.world.cache.counters.refreshes =
      m.ended.length + m.world.cache.flights.calls.size ∧
    (∀ move call, call ∉ m.live → call ∈ (m.step move).live →
      ∃ cause loader, m.offer? move = some (call.key, loader) ∧
        ∀ later last, call ∈ (m.run (move :: later)).live →
          let m' := (m.run (move :: later)).step last
          let invocations := (m'.world.eventsSince m.world).filter (Event.invokes call.key)
          invocations = [] ∨ invocations = [.invoked call.key loader.tag cause]) ∧
    (∀ i caller name loader token, m.running = none →
      m.world.ready[i]? = some (.request caller name loader token) →
      (m.world.cache.lookup m.world.now name).1 = none →
      ∃ call ∈ (m.step (.run i)).live, call.key = name ∧
        (∀ other ∈ m.live, other.key = name → other = call) ∧
        ∀ later, .outside (.dropCaller caller) ∉ later → (m.run (.run i :: later)).AtRest →
          call ∉ (m.run (.run i :: later)).live →
          ∃ p outcome, (call, p) ∈ (m.run (.run i :: later)).ended ∧
            (∀ o, (caller, o) ∈ (m.run (.run i :: later)).world.results ↔ o = outcome) ∧
            (p.answer name false = some outcome ∨ outcome = .error (.cancelled name) ∧
              ∃ before after, .run i :: later = before ++ after ∧
                (m.run before).world.isFired token = true ∧
                (m.run before).Unanswered caller)) ∧
    (∀ (r : Running V) name tag loader rest, m.running = some r →
      r.script = .fetch name tag loader rest →
      (m.world.cache.lookup m.world.now name).1 = none →
      ∃ call ∈ (m.step .goOn).live, call.key = name ∧
        (∀ other ∈ m.live, other.key = name → other = call) ∧
        ∀ later, (m.run (.goOn :: later)).AtRest → call ∉ (m.run (.goOn :: later)).live →
          ∃ p outcome before i after, .goOn :: later = before ++ .run i :: after ∧
            (call, p) ∈ (m.run before).ended ∧ p.answer name false = some outcome ∧
            ((m.run before).step (.run i)).GoesOnWith r rest outcome) := by
  intro m
  have h : m.Sound := (sound_new config).run moves
  refine ⟨h.tracks.keys_nodup, h.tracks.contains_iff, ?_, ?_, ?_, ?_⟩
  · rw [h.tracks.calls_size]
    exact h.started
  · intro move call hnot hlive
    obtain ⟨cause, loader, hoffer, hfollowed⟩ := h.followed_of_started move hnot hlive
    refine ⟨cause, loader, hoffer, fun later last hlater => ?_⟩
    obtain ⟨new, hevents, hnew⟩ := (hfollowed.run (h.step move) later).invocations
      (h.run (move :: later)) hlater last
    have hsince : _ = (new.filter (Event.invokes call.key)).reverse :=
      World.filter_eventsSince hevents _
    rcases hnew with hnew | hnew
    · refine Or.inl (hsince.trans ?_)
      rw [hnew]
      rfl
    · refine Or.inr (hsince.trans ?_)
      rw [hnew]
      rfl
  · exact fun i caller name loader token hnone hready hmiss =>
      h.caller_receives hnone hready hmiss
  · exact fun r name tag loader rest hr hscript hmiss => h.loader_receives hr hscript hmiss

/-- A caller and a second one for the same name. The first has gone on to wait at a gate. -/
def meetingAtGate : List (Move Nat) :=
  [.outside (.request "a" ⟨none, .await "gate" (.done (.ofValue 7))⟩ none), .run 0, .run 0, .goOn,
    .outside (.request "a" ⟨none, .done (.ofValue 8)⟩ none)]

/-- The second caller misses. Then the gate opens, the loader ends, and both look at their slot. -/
def leavingGate : List (Move Nat) :=
  [.outside (.openGate "gate"), .wake 1, .run 0, .goOn, .run 0, .run 0]

theorem single_flight_second_caller :
    ∃ call p, (call, p) ∈ (((new { weigh := fun _ _ => .ok 1 }).run meetingAtGate).run
        (.run 0 :: leavingGate)).ended ∧
      call.key = "a" ∧ ∀ o, (1, o) ∈ (((new { weigh := fun _ _ => .ok 1 }).run meetingAtGate).run
        (.run 0 :: leavingGate)).world.results ↔ o = .ok (some 7) := by
  obtain ⟨-, -, -, -, hcaller, -⟩ := single_flight { weigh := fun _ _ => .ok 1 } meetingAtGate
  obtain ⟨call, -, hkey, -, hlater⟩ := hcaller 0 1 "a" _ none rfl rfl rfl
  obtain ⟨p, outcome, hended, hresult, -⟩ :=
    hlater leavingGate nofun ⟨rfl, rfl⟩ (List.not_mem_nil (a := call))
  obtain rfl : .ok (some 7) = outcome := (hresult _).mp List.mem_cons_self
  exact ⟨call, p, hended, hkey, hresult⟩

end Moment

end Stockroom.Cache
