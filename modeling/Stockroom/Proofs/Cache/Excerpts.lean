import Mathlib.Data.List.Induction
import Stockroom.Proofs.Cache.MirrorTurns

/-! Names do not interfere. What a run shows of a name, it shows without all that is asked under other
names. -/

namespace Stockroom.Cache
set_option autoImplicit false

variable {V : Type} {name : String} {slots callers : Numbering}

/-! ### One move -/

/-- A command reaches both worlds as far as it is about the name, or about none. -/
theorem World.Mirrors.effect {w w' : World V} (h : w.Mirrors name slots callers w')
    {command : Command V} (hk : (Move.outside command).KeepsToNames)
    (hroom : ∀ op inRuntime, command = .perform op inRuntime → op.deed? w ≠ some (.forfeit name)) :
    ∃ callers' : Numbering, callers'.own = callers.own ++ (w.comer? name command).toList ∧
      (w.effect command).Mirrors name slots callers'
        (match command.own? name callers.own with
          | some command' => w'.effect command'
          | none => w') := by
  cases command with
  | perform op inRuntime =>
    refine ⟨callers, (List.append_nil _).symm, ?_⟩
    rw [Command.own?, World.effect_perform]
    split
    · rename_i hown
      split at hown
      · rename_i hname
        cases hown
        rw [World.effect_perform]
        exact (h.perform inRuntime hname (hroom op inRuntime rfl)).2
      · cases hown
    · rename_i hown
      split at hown
      · cases hown
      · rename_i hname
        cases hop : op.name? with
        | none => simp [hop] at hname
        | some other => exact h.perform_aside inRuntime hop (by simpa [hop] using hname)
  | request other loader token =>
    by_cases hne : other = name
    · subst hne
      refine ⟨callers.add, ?_, ?_⟩
      · simp [Numbering.add, World.comer?, h.bound]
      · simp only [Command.own?, if_pos]
        exact h.request token hk
    · refine ⟨callers.skip, ?_, ?_⟩
      · simp [Numbering.skip, World.comer?, hne]
      · simp only [Command.own?, if_neg hne]
        exact h.request_aside hne token hk
  | dropCaller caller =>
    refine ⟨callers, (List.append_nil _).symm, ?_⟩
    by_cases hc : caller ∈ callers.own
    · simp only [Command.own?, if_pos hc]
      exact h.dropCaller (Numbering.pairs_idxOf hc)
    · simp only [Command.own?, if_neg hc]
      exact h.dropCaller_aside hc
  | cancel token => exact ⟨callers, (List.append_nil _).symm, h.cancel token⟩
  | openGate gate =>
    refine ⟨callers, (List.append_nil _).symm, ?_⟩
    exact { h with opened := congrArg (· ++ [gate]) h.opened }
  | advance d =>
    refine ⟨callers, (List.append_nil _).symm, ?_⟩
    exact { h with now := congrArg (Instant.advance · d) h.now }
  | setArchive gated saveMode restoreCrashes =>
    exact ⟨callers, (List.append_nil _).symm, { h with }⟩
  | release count => exact ⟨callers, (List.append_nil _).symm, h⟩
  | holdRestores held => exact ⟨callers, (List.append_nil _).symm, { h with }⟩
  | releaseRestores count => exact ⟨callers, (List.append_nil _).symm, h⟩
  | deposit n value => exact ⟨callers, (List.append_nil _).symm, { h with }⟩

namespace Moment

variable {m m' : Moment V}

/-- A moment beside what it is to the name. -/
def Mirrors (name : String) (callers : Numbering) (m m' : Moment V) : Prop :=
  Reflects name callers (m.world, m.running) (m'.world, m'.running)

/-- The second run makes the moves that are left of the first one's. -/
def follow (m' : Moment V) : Option (Move V) → Moment V
  | some move => m'.step move
  | none => m'

theorem Mirrors.step (h : m.Mirrors name callers m') {move : Move V} (hk : move.KeepsToNames)
    (hroom : m.deed? move ≠ some (.forfeit name)) :
    ∃ callers' : Numbering, callers'.own = callers.own ++ (m.comer? name move).toList ∧
      (m.step move).Mirrors name callers' (m'.follow (m.own? name callers.own move)) := by
  obtain ⟨w, running, ended⟩ := m
  obtain ⟨w', running', ended'⟩ := m'
  obtain ⟨slots, hworld, hrunning⟩ := h
  have hnobody : callers.own = callers.own ++ (none : Option Nat).toList := (List.append_nil _).symm
  cases hrunning with
  | @own s s' cause script last hs hscript =>
    refine ⟨callers, ?_, ?_⟩
    · cases move <;> exact hnobody
    · cases move with
      | goOn =>
        simp only [own?, if_pos, follow]
        rw [deed?_goOn rfl] at hroom
        exact hworld.carryOut hs cause last hscript hroom
      | _ => exact ⟨slots, hworld, .own cause script last hs hscript⟩
  | aside r hkey hs hscript =>
    refine ⟨callers, ?_, ?_⟩
    · cases move <;> exact hnobody
    · cases move with
      | goOn =>
        simp only [own?, if_neg hkey, follow]
        exact hworld.carryOut_aside hkey hs hscript
      | _ => exact ⟨slots, hworld, .aside r hkey hs hscript⟩
  | none =>
    cases move with
    | goOn => exact ⟨callers, hnobody, hworld.still⟩
    | archive archive => exact ⟨callers, hnobody, slots, { hworld with }, .none⟩
    | outside command =>
      have hcommand : ∀ op inRuntime, command = .perform op inRuntime →
          op.deed? w ≠ some (.forfeit name) := by
        rintro op inRuntime rfl
        exact hroom
      obtain ⟨callers', hown, heffect⟩ := hworld.effect hk hcommand
      refine ⟨callers', hown, slots, ?_⟩
      simp only [own?]
      cases hc : command.own? name callers.own <;> rw [hc] at heffect <;> exact ⟨heffect, .none⟩
    | wake i =>
      have hwake := hworld.wakeAt i
      refine ⟨callers, hnobody, slots, ?_⟩
      simp only [own?]
      cases hplace : placeOf? name w.parked i <;> simp only [hplace] at hwake <;>
        exact ⟨hwake, .none⟩
    | run i =>
      have henter := hworld.enterAt i
      refine ⟨callers, hnobody, ?_⟩
      simp only [own?]
      cases hplace : placeOf? name w.ready i <;> simp only [hplace] at henter <;> exact henter

/-! ### What it shows -/

/-- The loader that is handed to the cache is the same in both runs, or it is for another name. -/
theorem Mirrors.offer? (h : m.Mirrors name callers m') (move : Move V) :
    match m.own? name callers.own move with
      | some move' => m'.offer? move' = m.offer? move
      | none => ∀ offered, m.offer? move = some offered → offered.1 ≠ name := by
  obtain ⟨w, running, ended⟩ := m
  obtain ⟨w', running', ended'⟩ := m'
  obtain ⟨slots, hworld, hrunning⟩ := h
  cases hrunning with
  | @own s s' cause script last hs hscript =>
    cases move with
    | goOn =>
      simp only [own?, if_pos]
      rw [offer?_goOn rfl, offer?_goOn rfl]
      rfl
    | _ => exact fun _ hoffered => by cases hoffered
  | aside r hkey hs hscript =>
    cases move with
    | goOn =>
      simp only [own?, if_neg hkey]
      rw [offer?_goOn rfl]
      obtain ⟨call, cause, script, last⟩ := r
      cases script with
      | fetch n tag loader rest =>
        rintro _ ⟨⟩
        obtain ⟨hn, -, -⟩ := hscript
        exact ne_of_eq_of_ne hn hkey
      | _ => exact fun _ hoffered => by cases hoffered
    | _ => exact fun _ hoffered => by cases hoffered
  | none =>
    cases move with
    | outside command =>
      simp only [own?]
      cases command.own? name callers.own with
      | none => exact fun _ hoffered => by cases hoffered
      | some command' => rfl
    | wake i =>
      simp only [own?]
      cases placeOf? name w.parked i with
      | none => exact fun _ hoffered => by cases hoffered
      | some k => rfl
    | run i =>
      simp only [own?, placeOf?]
      cases ht : w.ready[i]? with
      | none => simp [Moment.offer?, ht]
      | some t =>
        rw [offer?_run rfl ht]
        rcases hworld.ready.getElem? (fun _ _ hs => hs.isOf) (fun _ ha => ha.isOf) ht with
          ⟨hof, t', hsame, ht', -⟩ | ⟨hof, haside, -⟩
        · simp only [Option.any_some, if_pos hof, Option.map_some]
          rw [offer?_run rfl ht']
          cases hsame <;> rfl
        · simp only [Option.any_some, hof, Bool.false_eq_true, if_false, Option.map_none]
          cases haside with
          | request c other loader token hne =>
            rintro _ ⟨⟩
            exact hne
          | _ => exact fun _ hoffered => by cases hoffered
    | goOn => exact fun _ hoffered => by cases hoffered
    | archive archive => rfl

/-- What the move shows in the second run, if it is made there. -/
def shown (name : String) (m' : Moment V) : Option (Move V) → List (Sign V)
  | some move => m'.sign name move
  | none => []

theorem Mirrors.begun (h : m.Mirrors name callers m') (move : Move V) :
    m.begun name move =
      match m.own? name callers.own move with
        | some move' => m'.begun name move'
        | none => [] := by
  have hoffer := h.offer? move
  obtain ⟨slots, hworld, -⟩ := h
  cases hown : m.own? name callers.own move with
  | some move' =>
    simp only [hown] at hoffer
    dsimp only
    rw [begun_eq, begun_eq, hoffer, hworld.sets]
  | none =>
    simp only [hown] at hoffer
    rw [begun_eq, if_neg]
    intro hname
    obtain ⟨offered, hoffered, rfl⟩ := Option.map_eq_some_iff.mp hname
    exact hoffer offered hoffered rfl

theorem Mirrors.answer? (h : m.Mirrors name callers m') (move : Move V)
    (hroom : m.deed? move ≠ some (.forfeit name)) :
    m.answer? name move = (m.own? name callers.own move).bind (m'.answer? name) := by
  obtain ⟨w, running, ended⟩ := m
  obtain ⟨w', running', ended'⟩ := m'
  obtain ⟨slots, hworld, hrunning⟩ := h
  cases hrunning with
  | own cause script last hs hscript =>
    cases move with
    | goOn =>
      simp only [own?, if_pos]
      rfl
    | outside command => cases command <;> rfl
    | _ => rfl
  | aside r hkey hs hscript =>
    cases move with
    | goOn =>
      simp only [own?, if_neg hkey]
      rfl
    | outside command => cases command <;> rfl
    | _ => rfl
  | none =>
    cases move with
    | goOn | archive archive => rfl
    | wake i =>
      simp only [own?]
      cases placeOf? name w.parked i <;> rfl
    | run i =>
      simp only [own?]
      cases placeOf? name w.ready i <;> rfl
    | outside command =>
      cases command with
      | perform op inRuntime =>
        by_cases hop : op.name? = some name
        · have hall : op.name?.all (· == name) = true := by rw [hop]; simp
          have hanswer := (hworld.perform inRuntime hall hroom).1 hop
          simp only [own?, Command.own?, Moment.answer?, hop, Option.all_some, beq_self_eq_true, if_true,
            Option.map_some, Option.bind_some, Option.isNone_none, Bool.and_self]
          exact congrArg (fun reply => some (Sign.answered op reply)) hanswer.symm
        · simp only [own?, Command.own?, Moment.answer?, beq_eq_false_iff_ne.mpr hop, Bool.and_false,
            Bool.false_eq_true, if_false]
          split <;> simp [Moment.answer?, hop]
      | request other loader token =>
        simp only [own?, Command.own?]
        split <;> rfl
      | dropCaller caller =>
        simp only [own?, Command.own?]
        split <;> rfl
      | _ => rfl

theorem Mirrors.sign (h : m.Mirrors name callers m') (move : Move V)
    (hroom : m.deed? move ≠ some (.forfeit name)) :
    m.sign name move = m'.shown name (m.own? name callers.own move) := by
  rw [Moment.sign, h.answer? move hroom, h.begun]
  cases m.own? name callers.own move <;> rfl

/-! ### Runs -/

theorem fitting_append (name : String) (m : Moment V) (before after : List (Move V)) :
    m.Fitting name (before ++ after) ↔
      m.Fitting name before ∧ (m.run before).Fitting name after := by
  induction before generalizing m with
  | nil => exact (and_iff_right trivial).symm
  | cons move before ih =>
    rw [List.cons_append, Fitting, Fitting, ih, and_assoc]
    rfl

theorem signs_append (name : String) (m : Moment V) (before after : List (Move V)) :
    m.signs name (before ++ after) = m.signs name before ++ (m.run before).signs name after := by
  induction before generalizing m with
  | nil => rfl
  | cons move before ih =>
    rw [List.cons_append, signs, signs, ih, List.append_assoc]
    rfl

theorem signs_option (name : String) (m : Moment V) (move : Option (Move V)) :
    m.signs name move.toList = m.shown name move := by
  cases move with
  | none => rfl
  | some move => exact List.append_nil _

theorem run_option (m : Moment V) (move : Option (Move V)) : m.run move.toList = m.follow move := by
  cases move <;> rfl

end Moment

theorem excerpt_concat (name : String) (m : Moment V) (moves : List (Move V)) (move : Move V) :
    excerpt name m (moves ++ [move]) = (excerpt name m moves).next name move := by
  rw [excerpt, List.foldl_append]
  rfl

/-- What a run is to a name is what the run comes to without the other names, and it shows the
same. -/
theorem excerpt_mirrors {config : Config V} (hcapacity : config.capacity = 0)
    (hpersists : config.persists = false) (name : String) {moves : List (Move V)}
    (hmoves : ∀ move ∈ moves, move.KeepsToNames)
    (hfitting : (Moment.new config).Fitting name moves) :
    let x := excerpt name (.new config) moves
    x.whole = (Moment.new config).run moves ∧
      (∃ callers : Numbering, callers.own = x.callers ∧
        ((Moment.new config).run moves).Mirrors name callers ((Moment.new config).run x.moves)) ∧
      (Moment.new config).signs name x.moves = (Moment.new config).signs name moves := by
  induction moves using List.reverseRecOn with
  | nil =>
    refine ⟨rfl, ⟨.empty, rfl, .empty, ?_, .none⟩, rfl⟩
    exact .new hcapacity hpersists name
  | append_singleton moves move ih =>
    obtain ⟨hbefore, hroom, -⟩ := (Moment.fitting_append name _ moves [move]).mp hfitting
    obtain ⟨hwhole, ⟨callers, hown, hmirrors⟩, hsigns⟩ := ih (fun move' hmove' =>
      hmoves move' (List.mem_append_left _ hmove')) hbefore
    obtain ⟨callers', hown', hstep⟩ := hmirrors.step (hmoves move (by simp)) hroom
    have hsign := hmirrors.sign move hroom
    simp only [excerpt_concat, Excerpt.next]
    rw [hwhole, ← hown]
    refine ⟨?_, ⟨callers', hown', ?_⟩, ?_⟩
    · rw [Moment.run_append]
      rfl
    · rw [Moment.run_append, Moment.run_append, Moment.run_option]
      exact hstep
    · rw [Moment.signs_append, Moment.signs_append, hsigns, Moment.signs_option, ← hsign]
      exact congrArg _ (List.append_nil _).symm

theorem Moment.Mirrors.atRest {m m' : Moment V} (h : m.Mirrors name callers m') (hrest : m.AtRest) :
    m'.AtRest := by
  obtain ⟨w, running, ended⟩ := m
  obtain ⟨w', running', ended'⟩ := m'
  obtain ⟨slots, hworld, hrunning⟩ := h
  obtain ⟨rfl, hready⟩ := hrest
  cases hrunning
  exact ⟨rfl, Interleaved.eq_nil (hready ▸ hworld.ready)⟩

/-! ### What is left of a run -/

theorem prefix_excerpt (name : String) (m : Moment V) {before moves : List (Move V)}
    (h : before <+: moves) : (excerpt name m before).moves <+: (excerpt name m moves).moves := by
  obtain ⟨after, rfl⟩ := h
  induction after using List.reverseRecOn with
  | nil => simp
  | append_singleton after move ih =>
    rw [← List.append_assoc, excerpt_concat]
    exact ih.trans (List.prefix_append _ _)

/-- Who is first in the queue is first among those of its name. -/
theorem run_own? {m : Moment V} {callers : List Nat} {move : Move V} {k : Nat}
    (hmove : ∀ i, move = .run i → i = 0) (h : m.own? name callers move = some (.run k)) : k = 0 := by
  obtain ⟨w, running, ended⟩ := m
  cases running with
  | some r =>
    cases move with
    | goOn =>
      simp only [Moment.own?] at h
      split at h <;> cases h
    | _ => cases h
  | none =>
    cases move with
    | run i =>
      obtain rfl := hmove i rfl
      simp only [Moment.own?, placeOf?] at h
      split at h
      · cases h
        rfl
      · cases h
    | outside command =>
      simp only [Moment.own?] at h
      obtain ⟨_, -, hcommand⟩ := Option.map_eq_some_iff.mp h
      cases hcommand
    | wake i =>
      simp only [Moment.own?] at h
      obtain ⟨_, -, hwake⟩ := Option.map_eq_some_iff.mp h
      cases hwake
    | _ => cases h

theorem run_excerpt {m : Moment V} {moves : List (Move V)} (hmoves : ∀ i, .run i ∈ moves → i = 0)
    {k : Nat} (h : .run k ∈ (excerpt name m moves).moves) : k = 0 := by
  induction moves using List.reverseRecOn with
  | nil => cases h
  | append_singleton moves move ih =>
    rw [excerpt_concat] at h
    rcases List.mem_append.mp h with h | h
    · exact ih (fun i hi => hmoves i (List.mem_append_left _ hi)) h
    · refine run_own? (fun i hi => hmoves i ?_) (Option.mem_toList.mp h)
      rw [hi]
      exact List.mem_append_right _ List.mem_cons_self

namespace Moment

/-- What a run shows of a name, as long as what is written under it fits, does not depend on anything
that is asked under other names. What is left of the run is a run itself. -/
theorem names_do_not_interfere {config : Config V} (hcapacity : config.capacity = 0)
    (hpersists : config.persists = false) (name : String) {moves : List (Move V)}
    (hmoves : ∀ move ∈ moves, move.KeepsToNames)
    (hfitting : (new config).Fitting name moves) :
    let x := excerpt name (.new config) moves
    let m := (new config).run moves
    let m' := (new config).run x.moves
    (new config).signs name x.moves = (new config).signs name moves ∧
      m'.world.cache.isLoading name = m.world.cache.isLoading name ∧
      (∀ (inRuntime : Bool) (op : Op V), op.name? = some name →
        op.deed? m.world ≠ some (.forfeit name) →
        (m'.world.perform inRuntime op).1 = (m.world.perform inRuntime op).1) ∧
      m'.world.events = m.world.events.filter (fun e => e.name == name) ∧
      m'.world.results =
        (m.world.results.filter fun r => x.callers.contains r.1).map
          (fun r => (x.callers.idxOf r.1, r.2)) ∧
      (m.AtRest → m'.AtRest) ∧
      (∀ before, before <+: moves → (excerpt name (.new config) before).moves <+: x.moves) ∧
      ((∀ i, .run i ∈ moves → i = 0) → ∀ k, .run k ∈ x.moves → k = 0) := by
  intro x m m'
  obtain ⟨-, ⟨callers, hown, slots, hworld, hrunning⟩, hsigns⟩ :=
    excerpt_mirrors hcapacity hpersists name hmoves hfitting
  refine ⟨hsigns, hworld.flights.contains, fun inRuntime op hop hroom => ?_, ?_, ?_, fun hrest => ?_,
    fun before hbefore => prefix_excerpt name _ hbefore, fun hfirst k hk => run_excerpt hfirst hk⟩
  · exact (hworld.perform inRuntime (by rw [hop]; simp) hroom).1 hop
  · have hevents := hworld.events.eq_map_filter (p := fun e => e.name == name) (f := id)
      (fun e e' he => ⟨beq_iff_eq.mpr he.1, he.2⟩) fun e he => beq_eq_false_iff_ne.mpr he
    rwa [List.map_id] at hevents
  · refine hworld.results.eq_map_filter (fun r r' hr => ⟨?_, ?_⟩) fun r hr => ?_
    · rw [← hown]
      exact List.contains_iff_mem.mpr hr.1.mem
    · rw [← hown, hr.1.idxOf_eq, hr.2]
    · rw [← hown]
      exact Bool.eq_false_iff.mpr fun hr' => hr.2 (List.contains_iff_mem.mp hr')
  · exact Mirrors.atRest ⟨slots, hworld, hrunning⟩ hrest

/-- Loaders of two other names are at work while "a" is loaded: one waits at a gate that nobody opens,
and one crashes. -/
def crowded : List (Move UInt64) :=
  [.outside (.request "b" ⟨none, .await "gate" (.done (.ofValue 7))⟩),
    .outside (.request "c" ⟨none, .crash "no"⟩),
    .outside (.request "a" ⟨none, .act (.get "a") (.done (.ofValue 1))⟩),
    .run 0, .run 0, .run 0, .run 0, .goOn, .outside (.perform (.isLoading "a")),
    .outside (.perform (.set "b" 8)), .run 0, .goOn, .run 0, .goOn, .goOn, .run 0, .run 0,
    .outside (.perform (.delete "b")), .outside (.perform (.get "a"))]

set_option maxRecDepth 10000 in
theorem names_do_not_interfere_crowded :
    let x := excerpt "a" (.new .weighed) crowded
    let m' := (Moment.new .weighed).run x.moves
    (Moment.new .weighed).signs "a" x.moves =
        [.began .miss, .answered (.isLoading "a") (.ok (.told true)),
          .answered (.get "a") (.ok (.found (some (some 1))))] ∧
      m'.world.events = [.invoked "a" none .miss] ∧
      m'.world.results = [(0, .ok (some 1))] ∧ m'.AtRest ∧ ∀ k, .run k ∈ x.moves → k = 0 := by
  intro x m'
  have hmoves : ∀ move ∈ crowded, move.KeepsToNames := by
    simp [crowded, Move.KeepsToNames, Script.KeepsTo, Op.name?]
  have hcapacity : (Config.weighed : Config UInt64).capacity = 0 := rfl
  have hfitting : (Moment.new .weighed).Fitting "a" crowded := by decide +kernel
  obtain ⟨hsigns, -, -, hevents, hresults, hrest, -, hfirst⟩ :=
    names_do_not_interfere hcapacity rfl "a" hmoves hfitting
  refine ⟨hsigns.trans rfl, hevents.trans rfl, hresults.trans rfl, hrest ⟨rfl, rfl⟩, hfirst ?_⟩
  simp [crowded]

/-- A value is written while another name holds one that fills the word. -/
def weighedDown : List (Move UInt64) :=
  [.outside (.perform (.set "b" 18446744073709551615)), .outside (.perform (.set "a" 1))]

set_option maxRecDepth 10000 in
/-- Without the other name the write is done, beside it the write crashes. -/
theorem interfere_weighedDown :
    let m : Moment UInt64 := new { shards := some 1, weigh := fun _ v => .ok v }
    (∀ move ∈ weighedDown, move.KeepsToNames) ∧
      m.signs "a" (excerpt "a" m weighedDown).moves = [.answered (.set "a" 1) (.ok .done)] ∧
      m.signs "a" weighedDown = [.answered (.set "a" 1) (.error .weightOverflow)] :=
  ⟨by simp [weighedDown, Move.KeepsToNames], rfl, rfl⟩

end Moment

end Stockroom.Cache
