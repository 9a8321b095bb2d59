import Stockroom.Cache.Tallies
import Stockroom.Proofs.Cache.Conservation
import Stockroom.Proofs.Cache.Deferring
import Stockroom.Proofs.Cache.Refreshing

/-! The counts of loads, refreshes and failures over any run. An execution that was counted has
invoked its loader, or has not come to it yet, or has ended at the archive. -/

namespace Stockroom.Cache
set_option autoImplicit false

variable {V : Type}

/-- How many executions for the cause are in the hand whose loader has not been invoked. -/
def Hand.pendingFor (h : Hand V) (cause : Cause) : Nat :=
  h.pending.toList.countP fun x => x.2.1 == cause

theorem Hand.pendingFor_of_none {h : Hand V} (hnone : h.pending = none) (cause : Cause) :
    h.pendingFor cause = 0 := by
  rw [pendingFor, hnone]
  rfl

theorem Task.pendingFor_eq_any (t : Task V) (cause : Cause) :
    t.pendingFor cause = t.pending?.any fun x => x.2.1 == cause := by
  cases t <;> rfl

theorem Task.fails_fetching (w : World V) (call : Call) (c : Cause) (name : String) (slot : Nat)
    (rest : Script V) : Task.fails w (.fetching call c name slot rest) =
      ((w.cache.flights.progress slot).answer name false).any fun outcome => !outcome.isOk := by
  unfold fails
  dsimp only
  cases (w.cache.flights.progress slot).answer name false with
  | none => rfl
  | some outcome => cases outcome <;> rfl

theorem Task.exists_of_fails {w : World V} {t : Task V} (h : t.fails w = true) :
    ∃ call cause name slot rest failure, t = .fetching call cause name slot rest ∧
      (w.cache.flights.progress slot).answer name false = some (.error failure) := by
  unfold fails at h
  split at h
  · split at h
    · rename_i failure hanswer
      exact ⟨_, _, _, _, _, failure, rfl, hanswer⟩
    · cases h
  · cases h

namespace World

variable {w w' : World V} {cause : Cause}

theorem Silent.countP_eq_zero {l : List (Event V)} (h : Silent l) (cause : Cause) :
    l.countP (Event.invokesFor cause) = 0 := by
  rw [List.countP_eq_zero]
  intro e he hinvokes
  cases e with
  | invoked name tag c =>
    have := h _ he name
    simp [Event.invokes] at this
  | _ => cases hinvokes

theorem pendingFor_eq (w : World V) (cause : Cause) :
    w.pendingFor cause = w.pendings.countP fun x => x.2.1 == cause := by
  rw [pendings, List.countP_filterMap]
  apply List.countP_congr
  intro t _
  rw [Task.pendingFor_eq_any]
  cases t.pending? <;> rfl

/-! ### Executions that are not accounted for -/

/-- The executions that were started for the cause, as the counters have it. -/
def counted (w : World V) : Cause → Nat
  | .miss => w.cache.counters.loads
  | .refresh => w.cache.counters.refreshes

/-- The executions that were counted, less those that have invoked their loaders and those that have
not come to it yet. -/
def gap (w : World V) (cause : Cause) : Int :=
  w.counted cause - w.invocations cause - w.pendingFor cause

/-- What starts no execution and invokes no loader leaves no gap. -/
theorem gap_of_silent (hloads : w'.cache.counters.loads = w.cache.counters.loads)
    (hrefreshes : w'.cache.counters.refreshes = w.cache.counters.refreshes)
    (hevents : ∃ new, w'.events = new ++ w.events ∧ Silent new)
    (hpendings : w'.pendings.Perm w.pendings) (cause : Cause) : w'.gap cause = w.gap cause := by
  obtain ⟨new, he, hsilent⟩ := hevents
  have hcounted : w'.counted cause = w.counted cause := by
    cases cause with
    | miss => exact hloads
    | refresh => exact hrefreshes
  have hinvocations : w'.invocations cause = w.invocations cause := by
    rw [invocations, he, List.countP_append, hsilent.countP_eq_zero, Nat.zero_add]
    rfl
  rw [gap, hcounted, hinvocations, pendingFor_eq, hpendings.countP_eq, ← pendingFor_eq]
  rfl

theorem Calm.gap (h : w.Calm w') (cause : Cause) : w'.gap cause = w.gap cause :=
  gap_of_silent h.loads h.refreshes h.events h.pendings cause

theorem Outside.gap (h : w.Outside w') (cause : Cause) : w'.gap cause = w.gap cause :=
  gap_of_silent h.loads h.refreshes h.events h.pendings cause

theorem gap_settleCall (w : World V) (call : Call) (p : Progress V) (cause : Cause) :
    (w.settleCall call p).gap cause = w.gap cause := by
  apply gap_of_silent
  · rfl
  · rfl
  · exact ⟨[], rfl, .nil⟩
  · exact (tasks_settleCall w call p).filterMap _

/-- An execution is counted as it comes to be pending. -/
theorem Leads.gap {offer : Option (String × Loader V)} (h : w.Leads offer w') (cause : Cause) :
    w'.gap cause = w.gap cause := by
  cases h with
  | none => rfl
  | start name c loader hoffer hnone =>
    have hcounted : (w.lead name c loader).counted cause =
        w.counted cause + if c == cause then 1 else 0 := by
      cases c <;> cases cause <;> rfl
    have hinvocations : (w.lead name c loader).invocations cause = w.invocations cause := rfl
    have hpending : (w.lead name c loader).pendingFor cause =
        w.pendingFor cause + if c == cause then 1 else 0 := by
      rw [pendingFor_eq, (pendings_lead w name c loader).countP_eq, List.countP_cons,
        ← pendingFor_eq]
    rw [World.gap, World.gap, hcounted, hinvocations, hpending]
    omega

/-- Where nothing is counted and no loader is invoked, the gap is smaller by what comes to be pending. -/
theorem gap_add_pendingFor (hcounters : w'.cache.counters = w.cache.counters)
    (hevents : w'.events = w.events) (cause : Cause) :
    w'.gap cause + w'.pendingFor cause = w.gap cause + w.pendingFor cause := by
  have hcounted : w'.counted cause = w.counted cause := by
    unfold counted
    rw [hcounters]
  have hinvocations : w'.invocations cause = w.invocations cause := by
    unfold invocations
    rw [hevents]
  rw [gap, gap, hcounted, hinvocations]
  omega

theorem gap_park (w : World V) (t : Task V) (cause : Cause) :
    (w.park t).gap cause = w.gap cause - t.hand.pendingFor cause := by
  have hpending : (w.park t).pendingFor cause = t.hand.pendingFor cause + w.pendingFor cause := by
    have hperm := filterMap_cons_perm Task.pending? (tasks_park w t)
    rw [pendingFor_eq, pendings, hperm.countP_eq, List.countP_append, ← pendings, ← pendingFor_eq]
    rfl
  have hgap : (w.park t).gap cause + (w.park t).pendingFor cause =
      w.gap cause + w.pendingFor cause := by
    apply gap_add_pendingFor <;> rfl
  omega

theorem gap_log_invoked (w : World V) (name : String) (tag : Option String) (c cause : Cause) :
    (w.log (.invoked name tag c)).gap cause = w.gap cause - if c == cause then 1 else 0 := by
  have hinvocations : (w.log (.invoked name tag c)).invocations cause =
      w.invocations cause + if c == cause then 1 else 0 := List.countP_cons
  have hcounted : (w.log (.invoked name tag c)).counted cause = w.counted cause := by
    cases cause <;> rfl
  have hpending : (w.log (.invoked name tag c)).pendingFor cause = w.pendingFor cause := rfl
  rw [gap, gap, hcounted, hinvocations, hpending]
  split <;> omega

theorem Closes.gap {h : Hand V} {r : Option (Running V)} (hc : w.Closes h w' r) (cause : Cause) :
    w'.gap cause = w.gap cause - h.pendingFor cause := by
  cases hc with
  | drops he => subst he; exact (Int.sub_zero _).symm
  | goesOn r he => subst he; exact (Int.sub_zero _).symm
  | begins call c loader he =>
    subst he
    rw [gap_log_invoked, Hand.pendingFor, Option.toList_some, List.countP_singleton]
    split <;> rfl
  | parks t he => subst he; exact gap_park w t cause
  | answers caller outcome he => subst he; exact (Int.sub_zero _).symm

/-- Whoever has no loader left to invoke leaves no gap. -/
theorem Passes.gap {h : Hand V} {offer : Option (String × Loader V)} {r : Option (Running V)}
    (hp : Passes h offer w w' r) (hnone : h.pending = none) (cause : Cause) :
    w'.gap cause = w.gap cause := by
  cases hp with
  | closes hc hl hclose =>
    rw [hclose.gap, hl.gap, hc.gap, Hand.pendingFor_of_none hnone]
    exact Int.sub_zero _
  | ends call p hc hcall hcaller hp => rw [gap_settleCall, hc.gap]

/-! ### Executions that begin -/

theorem gap_storeAndPublish (w : World V) (call : Call) (value : Option V) (ttl : Duration)
    (keep : Bool) (cause : Cause) :
    (w.storeAndPublish call value ttl keep).gap cause = w.gap cause := by
  have hpasses : Passes { call := some call } none w (w.storeAndPublish call value ttl keep) none :=
    passes_storeAndPublish w value ttl keep rfl rfl
  exact hpasses.gap rfl cause

theorem gap_restore (w : World V) (call : Call) (loader : Loader V) (cause : Cause) :
    (w.restore call loader).1.gap cause =
      w.gap cause - if Cause.miss == cause && !w.answers call.key then 1 else 0 := by
  have hlog : (w.log (.restore call.key w.archive.data[call.key]?.isSome)).gap cause = w.gap cause :=
    (Calm.log w fun _ => rfl).gap cause
  unfold restore answers
  dsimp only
  cases hcrash : w.archive.restoreCrashes with
  | true =>
    rw [if_pos rfl, abandon, gap_settleCall, hlog]
    simp
  | false =>
    rw [if_neg Bool.false_ne_true]
    cases hdata : w.archive.data[call.key]? with
    | some v =>
      rw [hdata] at hlog
      dsimp only
      rw [gap_storeAndPublish, hlog]
      simp
    | none =>
      rw [hdata] at hlog
      dsimp only [invoke]
      rw [gap_log_invoked, hlog]
      simp

theorem gap_begin (w : World V) (call : Call) (c : Cause) (loader : Loader V) (cause : Cause) :
    (w.begin call c loader).1.gap cause =
      w.gap cause - if c == cause && !Task.bypasses w (.start call c loader) then 1 else 0 := by
  have hinvoke : (w.invoke call c loader).1.gap cause =
      w.gap cause - if c == cause then 1 else 0 := gap_log_invoked w _ _ _ _
  cases c with
  | refresh =>
    have hbypasses : Task.bypasses w (.start call .refresh loader) = false := rfl
    rw [hbypasses, Bool.not_false, Bool.and_true]
    exact hinvoke
  | miss =>
    have hbypasses : Task.bypasses w (.start call .miss loader) =
        (w.cache.config.persists && !w.archive.holdsRestores && w.answers call.key) := rfl
    rw [hbypasses]
    by_cases hpersists : w.cache.config.persists = true
    · by_cases hholds : w.archive.holdsRestores = true
      · simp only [begin, hpersists, hholds, if_true, Bool.not_true, Bool.and_false, Bool.false_and,
          Bool.not_false, Bool.and_true]
        refine (gap_park w (.restoring call loader) cause).trans ?_
        rw [Hand.pendingFor, Task.hand, Task.pending?, Option.toList_some, List.countP_singleton]
        cases cause <;> rfl
      · rw [hpersists, Bool.eq_false_iff.mpr hholds, Bool.not_false, Bool.true_and, Bool.true_and]
        simp only [begin, hpersists, if_true, if_neg hholds]
        exact gap_restore w call loader cause
    · rw [Bool.eq_false_iff.mpr hpersists, Bool.false_and, Bool.false_and, Bool.not_false,
        Bool.and_true]
      simp only [begin, if_neg hpersists]
      exact hinvoke

theorem gap_enter (w : World V) (t : Task V) (cause : Cause) :
    (w.enter t).1.gap cause =
      w.gap cause - if t.pendingFor cause && !t.bypasses w then 1 else 0 := by
  cases t with
  | start call c loader => exact gap_begin w call c loader cause
  | restoring call loader => exact gap_restore w call loader cause
  | _ => exact ((passes_enter w _).gap rfl cause).trans (Int.sub_zero _).symm

/-- A task that is taken out of the queue and has not begun leaves a gap, until it has had its turn. -/
theorem gap_of_ready {i : Nat} {t : Task V} (ht : w.ready[i]? = some t) (cause : Cause) :
    { w with ready := w.ready.eraseIdx i }.gap cause =
      w.gap cause + if t.pendingFor cause then 1 else 0 := by
  have hpending : w.pendingFor cause = { w with ready := w.ready.eraseIdx i }.pendingFor cause +
      if t.pendingFor cause then 1 else 0 := by
    rw [pendingFor, (tasks_of_ready ht).countP_eq, List.countP_cons]
    rfl
  have hgap : { w with ready := w.ready.eraseIdx i }.gap cause +
      { w with ready := w.ready.eraseIdx i }.pendingFor cause =
        w.gap cause + w.pendingFor cause := by
    apply gap_add_pendingFor <;> rfl
  by_cases hp : t.pendingFor cause = true
  · rw [if_pos hp] at hpending ⊢
    omega
  · rw [if_neg hp] at hpending ⊢
    omega

/-- Only a load can end at the archive. -/
theorem pendingFor_of_bypasses {t : Task V} (h : t.bypasses w = true) :
    t.pendingFor cause = (cause == .miss) := by
  cases t with
  | start call c loader =>
    cases c with
    | miss => cases cause <;> rfl
    | refresh => cases h
  | restoring call loader => cases cause <;> rfl
  | _ => cases h

theorem gap_enterAt {i : Nat} {t : Task V} (ht : w.ready[i]? = some t) (cause : Cause) :
    (w.enterAt i).1.gap cause =
      w.gap cause + if cause == .miss && t.bypasses w then 1 else 0 := by
  unfold enterAt
  rw [ht]
  dsimp only
  rw [gap_enter, gap_of_ready ht]
  have hsame : Task.bypasses { w with ready := w.ready.eraseIdx i } t = t.bypasses w := by
    cases t <;> rfl
  rw [hsame]
  cases hb : t.bypasses w with
  | true =>
    rw [pendingFor_of_bypasses hb]
    simp
  | false => simp

/-! ### Failures -/

theorem failures_storeAndPublish (w : World V) (call : Call) (value : Option V) (ttl : Duration)
    (keep : Bool) : (w.storeAndPublish call value ttl keep).cache.counters.loadFailures =
      w.cache.counters.loadFailures := by
  rw [storeAndPublish_eq]
  exact failures_write w call.key value ttl keep true

theorem failures_conclude (w : World V) (call : Call) (c : Cause) (product : Loaded V) :
    (w.conclude call c product).cache.counters.loadFailures = w.cache.counters.loadFailures := by
  unfold conclude
  split
  · rfl
  · exact failures_storeAndPublish w _ _ _ _

/-- A failure is counted in the step in which the loader returns it. -/
theorem failures_carryOut (w : World V) (r : Running V) :
    (w.carryOut r).1.cache.counters.loadFailures =
      w.cache.counters.loadFailures + if r.fails then 1 else 0 := by
  obtain ⟨call, c, script, last⟩ := r
  cases script with
  | done product => exact failures_conclude w call c product
  | relay => exact failures_conclude w call c _
  | fail text => rfl
  | crash text => rfl
  | await gate rest =>
    simp only [carryOut]
    split <;> rfl
  | act op rest =>
    rw [carryOut_act]
    split <;> exact failures_perform w true op
  | fetch name tag loader rest =>
    rw [carryOut_fetch]
    dsimp only
    split <;> exact failures_getOrLoad w name ⟨tag, loader⟩

theorem failures_restore (w : World V) (call : Call) (loader : Loader V) :
    (w.restore call loader).1.cache.counters.loadFailures = w.cache.counters.loadFailures := by
  unfold restore
  dsimp only
  split
  · rfl
  · split
    · exact failures_storeAndPublish _ _ _ _ _
    · rfl

theorem failures_begin (w : World V) (call : Call) (c : Cause) (loader : Loader V) :
    (w.begin call c loader).1.cache.counters.loadFailures = w.cache.counters.loadFailures := by
  unfold begin
  split
  · rfl
  · split
    · split
      · rfl
      · exact failures_restore w call loader
    · rfl

theorem failures_checkSlot (w : World V) (caller : Nat) (name : String) (slot : Nat)
    (token : Option String) : (w.checkSlot caller name slot token).cache.counters.loadFailures =
      w.cache.counters.loadFailures := by
  unfold checkSlot
  split <;> rfl

theorem failures_endSave (w : World V) (name : String) (value : V) :
    (w.endSave name value).cache.counters.loadFailures = w.cache.counters.loadFailures := by
  unfold World.endSave
  dsimp only
  split <;> rfl

theorem failures_enter (w : World V) (t : Task V) :
    (w.enter t).1.cache.counters.loadFailures =
      w.cache.counters.loadFailures + if t.fails w then 1 else 0 := by
  cases t with
  | request caller name loader token =>
    rw [enter_request]
    dsimp only
    split
    · exact failures_getOrLoad w name loader
    · exact (failures_checkSlot _ _ _ _ _).trans (failures_getOrLoad w name loader)
  | waiter caller name slot token => exact failures_checkSlot w caller name slot token
  | start call c loader => exact failures_begin w call c loader
  | restoring call loader => exact failures_restore w call loader
  | paused call c gate last rest =>
    simp only [enter]
    split <;> rfl
  | fetching call c name slot rest =>
    rw [Task.fails_fetching]
    simp only [enter, checkFetch]
    cases (w.cache.flights.progress slot).answer name false with
    | none => rfl
    | some outcome => cases outcome <;> rfl
  | save name value =>
    simp only [enter, beginSave]
    split
    · rfl
    · exact failures_endSave _ name value
  | saving name value => exact failures_endSave w name value

theorem failures_effect (w : World V) (command : Command V) :
    (w.effect command).cache.counters.loadFailures = w.cache.counters.loadFailures := by
  cases command with
  | perform op inRuntime =>
    rw [effect_perform]
    exact failures_perform w inRuntime op
  | _ => rfl

end World

namespace Moment

variable {m : Moment V}

/-! ### Runs -/

theorem gap_step (h : m.Sound) (move : Move V) (cause : Cause) :
    (m.step move).world.gap cause =
      m.world.gap cause + if cause == .miss && m.bypasses move then 1 else 0 := by
  change (m.next move).1.gap cause = _
  have hflying := h.flying
  have hidle : m.bypasses move = false → (m.next move).1.gap cause = m.world.gap cause →
      (m.next move).1.gap cause =
        m.world.gap cause + if cause == .miss && m.bypasses move then 1 else 0 := by
    intro hnone he
    rw [hnone, he, Bool.and_false]
    exact (Int.add_zero _).symm
  obtain ⟨w, running, ended⟩ := m
  cases running with
  | some r =>
    cases move with
    | goOn => exact hidle rfl ((World.passes_carryOut hflying r).gap rfl cause)
    | _ => exact hidle rfl rfl
  | none =>
    cases move with
    | goOn => exact hidle rfl rfl
    | outside command => exact hidle rfl ((World.outside_effect w command).gap cause)
    | archive archive => exact hidle rfl (by cases cause <;> rfl)
    | wake i => exact hidle rfl ((World.outside_wakeAt w i).gap cause)
    | run i =>
      cases ht : w.ready[i]? with
      | none =>
        apply hidle
        · simp only [bypasses, ht]
          rfl
        · simp only [next, World.enterAt, ht]
      | some t =>
        have hbypasses : bypasses ⟨w, none, ended⟩ (.run i) = t.bypasses w := by
          simp only [bypasses, ht]
          rfl
        rw [hbypasses]
        exact World.gap_enterAt ht cause

/-- Whatever was counted and neither invoked its loader nor is still to do so has ended at the
archive. -/
theorem gap_run (h : m.Sound) (moves : List (Move V)) (cause : Cause) :
    (m.run moves).world.gap cause =
      m.world.gap cause + if cause == .miss then (m.count bypasses moves : Int) else 0 := by
  induction moves generalizing m with
  | nil => cases cause <;> exact (Int.add_zero _).symm
  | cons move moves ih =>
    have hstep := gap_step h move cause
    have hrest := ih (h.step move)
    change ((m.step move).run moves).world.gap cause = _
    rw [hrest, hstep, count]
    cases cause with
    | miss =>
      simp only [beq_self_eq_true, Bool.true_and, if_true, Int.natCast_add]
      split <;> omega
    | refresh => exact Int.add_zero _

theorem failures_step (m : Moment V) (move : Move V) :
    (m.step move).world.cache.counters.loadFailures =
      m.world.cache.counters.loadFailures + if m.fails move then 1 else 0 := by
  change (m.next move).1.cache.counters.loadFailures = _
  obtain ⟨w, running, ended⟩ := m
  cases running with
  | some r =>
    cases move with
    | goOn => exact World.failures_carryOut w r
    | _ => rfl
  | none =>
    cases move with
    | outside command => exact World.failures_effect w command
    | wake i =>
      simp only [next, World.wakeAt]
      split <;> rfl
    | run i =>
      cases ht : w.ready[i]? with
      | none =>
        have hfails : fails ⟨w, none, ended⟩ (.run i) = false := by
          simp only [fails, ht]
          rfl
        rw [hfails]
        simp only [next, World.enterAt, ht]
        rfl
      | some t =>
        have hfails : fails ⟨w, none, ended⟩ (.run i) = t.fails w := by
          simp only [fails, ht]
          rfl
        rw [hfails]
        simp only [next, World.enterAt, ht]
        refine (World.failures_enter _ t).trans ?_
        cases t <;> rfl
    | _ => rfl

theorem failures_run (moves : List (Move V)) :
    (m.run moves).world.cache.counters.loadFailures =
      m.world.cache.counters.loadFailures + m.count fails moves := by
  induction moves generalizing m with
  | nil => rfl
  | cons move moves ih =>
    change ((m.step move).run moves).world.cache.counters.loadFailures = _ + (_ + _)
    rw [ih, failures_step, Nat.add_assoc]

/-- Without an archive no load ends there. -/
theorem Deferred.bypasses_eq_false (hd : m.Deferred)
    (hpersists : m.world.cache.config.persists = false) (move : Move V) :
    m.bypasses move = false := by
  cases move with
  | run i =>
    simp only [bypasses]
    cases ht : m.world.ready[i]? with
    | none => exact Bool.and_false _
    | some t =>
      have hmem : t ∈ m.world.tasks := List.mem_append_left _ (List.mem_of_getElem? ht)
      have hbypasses : t.bypasses m.world = false := by
        cases t with
        | start call c loader =>
          cases c with
          | miss => simp [Task.bypasses, hpersists]
          | refresh => rfl
        | restoring call loader =>
          have htrue := hd.tasks _ hmem rfl
          rw [hpersists] at htrue
          cases htrue
        | _ => rfl
      rw [Option.any_some, hbypasses, Bool.and_false]
  | _ => rfl

theorem Deferred.count_bypasses (hd : m.Deferred) (h : m.Sound)
    (hpersists : m.world.cache.config.persists = false) (moves : List (Move V)) :
    m.count bypasses moves = 0 := by
  induction moves generalizing m with
  | nil => rfl
  | cons move moves ih =>
    have hconfig : (m.step move).world.cache.config = m.world.cache.config := config_run m [move]
    rw [count, hd.bypasses_eq_false hpersists move]
    rw [ih (hd.step h move) (h.step move) (by rw [hconfig, hpersists])]
    rfl

/-! ### What is counted -/

/-- A loader that returns an error had been invoked, and its execution is over. -/
theorem Sound.ended_of_fails (h : m.Sound) {move : Move V} (hfails : m.fails move = true) :
    ∃ call cause text, m.turn? move = some (call, cause) ∧
      (call, .published (.error (.load text))) ∈ (m.step move).ended := by
  have hover {call : Call} {cause : Cause} {text : String} {w : World V}
      (hturn : m.turn? move = some (call, cause)) (hcache : w.cache.flights = m.world.cache.flights)
      (hnext : m.next move = (w.failLoad call text, none)) :
      (call, .published (.error (.load text))) ∈ (m.step move).ended := by
    have hrun : (Progress.published (.error (.load text)) : Progress V) ≠ .running := nofun
    refine h.ended_of_settle (mem_live_of_exec (mem_execs_of_turn? hturn)) hrun ?_
    change (m.next move).1.cache.flights = _
    rw [hnext, ← hcache]
    rfl
  cases move with
  | goOn =>
    cases hr : m.running with
    | none =>
      rw [fails, hr] at hfails
      cases hfails
    | some r =>
      obtain ⟨call, cause, script, last⟩ := r
      rw [fails, hr] at hfails
      cases script with
      | fail text =>
        have hturn : m.turn? .goOn = some (call, cause) := by rw [turn?, hr]; rfl
        refine ⟨call, cause, text, hturn, hover (w := m.world) hturn rfl ?_⟩
        simp only [next, hr]
        rfl
      | _ => cases hfails
  | run i =>
    obtain ⟨hnone, hany⟩ := Bool.and_eq_true_iff.mp hfails
    have hnone := Option.isNone_iff_eq_none.mp hnone
    cases ht : m.world.ready[i]? with
    | none =>
      rw [ht] at hany
      cases hany
    | some t =>
      rw [ht, Option.any_some] at hany
      obtain ⟨call, cause, name, slot, rest, failure, rfl, hanswer⟩ := Task.exists_of_fails hany
      have hturn : m.turn? (.run i) = some (call, cause) := by
        simp only [turn?, hnone, ht]
        rfl
      refine ⟨call, cause, failure.message, hturn,
        hover (w := { m.world with ready := m.world.ready.eraseIdx i }) hturn rfl ?_⟩
      simp only [next, hnone, World.enterAt, ht, World.enter, World.checkFetch]
      rw [hanswer]
  | _ => cases hfails

/-- In every run, what the metrics say about loads, refreshes and failures is the number of loaders
that were invoked or failed, and of executions that never came to theirs. -/
theorem load_metrics (config : Config V) (moves : List (Move V)) :
    let m := (new config).run moves
    let r := m.world.cache.metrics
    r.loads = (m.world.invocations .miss + m.world.pendingFor .miss +
      (new config).count bypasses moves).toUInt64 ∧
    (config.persists = false → (new config).count bypasses moves = 0) ∧
    r.refreshes = (m.world.invocations .refresh + m.world.pendingFor .refresh).toUInt64 ∧
    r.loadFailures = ((new config).count fails moves).toUInt64 ∧
    (∀ move, m.fails move = true → ∃ call cause text, m.turn? move = some (call, cause) ∧
      (call, .published (.error (.load text))) ∈ (m.step move).ended) ∧
    (m.AtRest → (∀ t ∈ m.world.parked, t.awaitsRestore = false) →
      ∀ cause, m.world.pendingFor cause = 0) := by
  intro m r
  have hsound : m.Sound := (sound_new config).run moves
  have hdeferred : m.Deferred := (deferred_new config).run (sound_new config) moves
  have hgap (cause : Cause) : m.world.gap cause =
      if cause == .miss then ((new config).count bypasses moves : Int) else 0 := by
    have hnew : (new config).world.gap cause = 0 := by cases cause <;> rfl
    rw [gap_run (sound_new config) moves cause, hnew, Int.zero_add]
  have hloads : m.world.cache.counters.loads = m.world.invocations .miss +
      m.world.pendingFor .miss + (new config).count bypasses moves := by
    have hmiss : (m.world.cache.counters.loads : Int) - m.world.invocations .miss -
        m.world.pendingFor .miss = (new config).count bypasses moves := hgap .miss
    omega
  have hrefreshes : m.world.cache.counters.refreshes =
      m.world.invocations .refresh + m.world.pendingFor .refresh := by
    have hrefresh : (m.world.cache.counters.refreshes : Int) - m.world.invocations .refresh -
        m.world.pendingFor .refresh = 0 := hgap .refresh
    omega
  have hfailures : m.world.cache.counters.loadFailures = (new config).count fails moves :=
    (failures_run moves).trans (Nat.zero_add _)
  refine ⟨congrArg Nat.toUInt64 hloads, ?_, congrArg Nat.toUInt64 hrefreshes,
    congrArg Nat.toUInt64 hfailures, fun move => hsound.ended_of_fails, ?_⟩
  · intro hpersists
    exact (deferred_new config).count_bypasses (sound_new config) hpersists moves
  · intro hrest hnone cause
    rw [World.pendingFor_eq, hdeferred.pendings_eq_nil hrest hnone]
    rfl

/-- A cache with an archive, in which every entry that is hit is loaded again. -/
def archived : Config Nat where
  nearExpiry _ _ := true
  weigh _ _ := .ok 1
  persists := true

/-- A caller misses a name that the archive has a value for. -/
def restoring : List (Move Nat) :=
  [.outside (.deposit "a" 1), .outside (.request "a" ⟨none, .done (.ofValue 7)⟩ none), .run 0, .run 0,
    .run 0]

/-- Another name is loaded and hit, and the refresh of it is about to fail. -/
def reloading : List (Move Nat) :=
  [.outside (.request "b" ⟨none, .done (.ofValue 2)⟩ none), .run 0, .run 0, .goOn, .run 0, .run 0,
    .outside (.request "b" ⟨none, .fail "no"⟩ none), .run 0, .run 0]

theorem load_metrics_archived :
    let before := (new archived).run (restoring ++ reloading)
    let m := (new archived).run (restoring ++ reloading ++ [.goOn])
    let r := m.world.cache.metrics
    (∃ call cause text, before.turn? .goOn = some (call, cause) ∧
      (call, .published (.error (.load text))) ∈ (before.step .goOn).ended) ∧
    (new { archived with persists := false }).count bypasses reloading = 0 ∧
    m.AtRest ∧ m.world.parked.length = 0 ∧
    (m.world.invocations .miss, m.world.invocations .refresh) = (1, 1) ∧
    (r.loads, r.refreshes, r.loadFailures) = (2, 1, 1) := by
  intro before m r
  have hrest : m.AtRest :=
    ⟨Option.isNone_iff_eq_none.mp (by decide +kernel), List.isEmpty_iff.mp (by decide +kernel)⟩
  have hparked : m.world.parked.length = 0 := by decide +kernel
  obtain ⟨-, -, -, -, hended, -⟩ := load_metrics archived (restoring ++ reloading)
  obtain ⟨-, hnone, -⟩ := load_metrics { archived with persists := false } reloading
  obtain ⟨hloads, -, hrefreshes, hfailures, -, hsettled⟩ :=
    load_metrics archived (restoring ++ reloading ++ [.goOn])
  have hpending := hsettled hrest fun t ht => by
    rw [List.length_eq_zero_iff.mp hparked] at ht
    cases ht
  have hmiss : m.world.invocations .miss = 1 := by decide +kernel
  have hrefresh : m.world.invocations .refresh = 1 := by decide +kernel
  have hbypasses : (new archived).count bypasses (restoring ++ reloading ++ [.goOn]) = 1 := by
    decide +kernel
  have hfails : (new archived).count fails (restoring ++ reloading ++ [.goOn]) = 1 := by
    decide +kernel
  rw [hpending, hmiss, hbypasses] at hloads
  rw [hpending, hrefresh] at hrefreshes
  rw [hfails] at hfailures
  refine ⟨hended .goOn (by decide +kernel), hnone rfl, hrest, hparked, ?_, ?_⟩
  · rw [hmiss, hrefresh]
  · rw [hloads, hrefreshes, hfailures]
    rfl

/-- The archive answers the first caller, and a load is counted for which no loader was invoked. -/
theorem exists_load_without_invocation :
    let m := (new archived).run restoring
    m.AtRest ∧ m.world.parked.length = 0 ∧ m.world.events = [.restore "a" true] ∧
      m.world.invocations .miss = 0 ∧ m.world.cache.metrics.loads = 1 := by
  intro m
  refine ⟨⟨Option.isNone_iff_eq_none.mp ?_, List.isEmpty_iff.mp ?_⟩, ?_, ?_, ?_, ?_⟩
  all_goals decide +kernel

end Moment

end Stockroom.Cache
