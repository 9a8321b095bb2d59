import Stockroom.Proofs.Cache.Dampening
import Stockroom.Proofs.Cache.Without

/-! A caller that stops waiting, dropped or cancelled, makes no difference to anybody else: the load
that it waits for goes on, whoever started it, and everything comes out the way it would have. -/

namespace Stockroom.Cache
set_option autoImplicit false

variable {V : Type} {l : Leavers}

/-! ### The tokens of leavers -/

theorem Leavers.owns_of_caller? {t : Task V} (h : t.caller? = none) : l.Owns t := by
  cases t <;> trivial

/-- Where leavers apart the same tasks stand, each that stays has its place. -/
theorem Leavers.exists_same (l : Leavers) {tasks tasks' : List (Task V)}
    (h : tasks.filter l.keeps = tasks'.filter l.keeps) (i : Nat) :
    (∀ t, tasks[i]? = some t → l.keeps t = false) ∨ ∃ j, l.Same tasks i tasks' j := by
  cases hi : tasks[i]? with
  | none => exact Or.inl nofun
  | some t =>
    cases hkept : l.keeps t with
    | false =>
      refine Or.inl ?_
      rintro _ ⟨⟩
      exact hkept
    | true =>
      have hfiltered := getElem?_filter hi hkept
      rw [h] at hfiltered
      obtain ⟨j, hj, hcount⟩ := exists_getElem?_of_filter hfiltered
      exact Or.inr ⟨j, t, hi, hj, hkept, hcount.symm⟩

namespace World

variable {w w' : World V}

/-- Nobody but leavers has tokens of theirs. -/
def Owned (l : Leavers) (w : World V) : Prop := ∀ t ∈ w.tasks, l.Owns t

theorem Owned.of_subset (hw : w.Owned l) (h : w'.tasks ⊆ w.tasks) : w'.Owned l :=
  fun t ht => hw t (h ht)

theorem Owned.of_perm {t : Task V} (hw : w.Owned l) (h : w'.tasks.Perm (t :: w.tasks))
    (ht : l.Owns t) : w'.Owned l := by
  intro t' ht'
  rcases List.mem_cons.mp (h.subset ht') with rfl | ht'
  · exact ht
  · exact hw t' ht'

theorem Calm.owned (h : w.Calm w') (hw : w.Owned l) : w'.Owned l := by
  obtain ⟨saves, hperm, hsaves⟩ := h.tasks
  intro t ht
  rcases List.mem_append.mp (hperm.subset ht) with ht | ht
  · exact Leavers.owns_of_caller? (congrArg Hand.caller (hsaves t ht))
  · exact hw t ht

theorem Leads.owned {offer : Option (String × Loader V)} (h : w.Leads offer w')
    (hw : w.Owned l) : w'.Owned l := by
  cases h with
  | none => exact hw
  | start name cause loader => exact hw.of_perm (tasks_lead w name cause loader) trivial

theorem Closes.owned {h : Hand V} {r : Option (Running V)} (hc : w.Closes h w' r)
    (hcaller : h.caller = none) (hw : w.Owned l) : w'.Owned l := by
  cases hc with
  | drops he => exact hw
  | goesOn r he => exact hw
  | begins call cause loader he => exact hw
  | parks t he =>
    subst he
    exact hw.of_perm (tasks_park w t) (Leavers.owns_of_caller? hcaller)
  | answers caller outcome he => exact hw

theorem Passes.owned {h : Hand V} {offer : Option (String × Loader V)}
    {r : Option (Running V)} (hp : Passes h offer w w' r) (hcaller : h.caller = none)
    (hw : w.Owned l) : w'.Owned l := by
  cases hp with
  | closes hc hl hclose => exact hclose.owned hcaller (hl.owned (hc.owned hw))
  | ends call p hc => exact (hc.owned hw).of_subset (tasks_settleCall _ call p).subset

theorem owned_checkSlot (hw : w.Owned l) {caller : Nat} {name : String} {slot : Nat}
    {token : Option String} (h : l.Owns (.waiter (V := V) caller name slot token)) :
    (w.checkSlot caller name slot token).Owned l := by
  unfold checkSlot
  split
  · exact hw
  · exact hw.of_perm (tasks_park w _) h

theorem owned_enter (hw : w.Owned l) {t : Task V} (ht : l.Owns t) : (w.enter t).1.Owned l := by
  cases t with
  | request caller name loader token =>
    simp only [enter]
    split <;> rename_i he
    · obtain ⟨w₁, hc, hl⟩ := getOrLoad_hit he
      exact hl.owned (hc.owned hw)
    · obtain ⟨⟨w₁, hc, hl⟩, -⟩ := getOrLoad_waiting he
      exact owned_checkSlot (hl.owned (hc.owned hw)) ht
  | waiter caller name slot token => exact owned_checkSlot hw ht
  | start call cause loader => exact (passes_begin w call cause loader).owned rfl hw
  | restoring call loader => exact (passes_restore w call loader).owned rfl hw
  | paused call cause gate last rest =>
    exact (passes_enter w (.paused call cause gate last rest)).owned rfl hw
  | fetching call cause name slot rest =>
    exact (passes_checkFetch w call cause name slot rest).owned rfl hw
  | save name value => exact (calm_beginSave w name value).owned hw
  | saving name value => exact (calm_endSave w name value).owned hw

theorem owned_effect (hw : w.Owned l) {command : Command V}
    (h : l.Admits w.callers command) : (w.effect command).Owned l := by
  cases command with
  | perform op inRuntime =>
    rw [effect_perform]
    exact (calm_perform w inRuntime op).owned hw
  | request name loader token =>
    refine Owned.of_perm (w := w) hw (tasks_spawn { w with callers := w.callers + 1 } _) ?_
    cases token with
    | none => intro _ he; cases he
    | some s =>
      rintro _ ⟨⟩
      exact h
  | cancel token => exact Owned.of_subset hw (tasks_wake _ _).subset
  | dropCaller caller =>
    refine hw.of_subset fun t ht => ?_
    rcases List.mem_append.mp ht with ht | ht
    · exact List.mem_append_left _ (List.mem_of_mem_filter ht)
    · exact List.mem_append_right _ (List.mem_of_mem_filter ht)
  | _ => exact hw

/-! ### Nothing but results and tokens tells leavers -/

theorem calls_without (w : World V) : (w.without l).calls = w.calls := by
  have hfilter (tasks : List (Task V)) :
      (tasks.filter l.keeps).filterMap Task.call? = tasks.filterMap Task.call? := by
    rw [List.filterMap_filter]
    apply List.filterMap_congr
    intro t _
    split
    · rfl
    · rename_i h
      cases t <;> first | rfl | exact absurd rfl h
  rw [calls, calls, tasks, tasks, List.filterMap_append, List.filterMap_append]
  exact congrArg₂ _ (hfilter _) (hfilter _)

theorem live_without (w : World V) (r : Option (Running V)) :
    (w.without l).live r = w.live r := congrArg _ (calls_without w)

theorem live_congr (h : w.without l = w'.without l) (r : Option (Running V)) :
    w.live r = w'.live r := by rw [← live_without w, h, live_without]

theorem progress_congr (h : w.without l = w'.without l) (slot : Nat) :
    w.cache.flights.progress slot = w'.cache.flights.progress slot :=
  congrArg (fun x => x.cache.flights.progress slot) h

/-! ### Leavers go -/

theorem dropCaller_of_neg {caller : Nat}
    (h : ∀ t ∈ w.tasks, t.caller? = some caller → l.keeps t = false) :
    (w.effect (.dropCaller caller)).without l = w.without l := by
  have hfilter {tasks : List (Task V)} (hsub : tasks ⊆ w.tasks) :
      (tasks.filter fun t => t.caller? != some caller).filter l.keeps = tasks.filter l.keeps := by
    rw [List.filter_filter]
    apply List.filter_congr
    intro t ht
    cases hkept : l.keeps t with
    | false => rfl
    | true =>
      simp only [Bool.true_and, bne_iff_ne, ne_eq]
      intro hcaller
      rw [h t (hsub ht) hcaller] at hkept
      cases hkept
  simp only [effect, act, without, hfilter (List.subset_append_left _ _),
    hfilter (List.subset_append_right _ _)]

theorem cancel_of_mem {token : String} (howned : w.Owned l) (h : token ∈ l.tokens) :
    (w.effect (.cancel token)).without l = w.without l := by
  have hwoken := without_wake_of_neg (l := l) { w with fired := w.fired ++ [token] }
    (p := Task.awaitsToken token) ?_
  · refine hwoken.trans ?_
    simp [without, h]
  · intro t ht hawaits
    have howns := howned t (List.mem_append_right _ ht)
    cases t with
    | waiter caller name slot s =>
      have hcaller : caller ∈ l.callers := howns token (beq_iff_eq.mp hawaits) h
      simpa [Leavers.keeps] using hcaller
    | _ => cases hawaits

/-! ### Tasks side by side -/

theorem eraseIdx_congr {i j : Nat} {t : Task V} (h : w.without l = w'.without l)
    (hi : w.ready[i]? = some t) (hj : w'.ready[j]? = some t) (hkept : l.keeps t = true)
    (hcount : (w.ready.take i).countP l.keeps = (w'.ready.take j).countP l.keeps) :
    { w with ready := w.ready.eraseIdx i }.without l =
      { w' with ready := w'.ready.eraseIdx j }.without l := by
  have hready : w.ready.filter l.keeps = w'.ready.filter l.keeps := congrArg World.ready h
  have herased : (w.ready.eraseIdx i).filter l.keeps = (w'.ready.eraseIdx j).filter l.keeps := by
    rw [filter_eraseIdx hi hkept, filter_eraseIdx hj hkept, hready, hcount]
  exact congrArg₂ (fun x ready => { x with ready }) h herased

theorem wakeAt_congr {i j : Nat} (h : w.without l = w'.without l)
    (hsame : l.Same w.parked i w'.parked j) :
    (w.wakeAt i).without l = (w'.wakeAt j).without l := by
  obtain ⟨t, hi, hj, hkept, hcount⟩ := hsame
  have hready : w.ready.filter l.keeps = w'.ready.filter l.keeps := congrArg World.ready h
  have hparked : w.parked.filter l.keeps = w'.parked.filter l.keeps := congrArg World.parked h
  have hwoken : (w.ready ++ [t]).filter l.keeps = (w'.ready ++ [t]).filter l.keeps := by
    rw [List.filter_append, List.filter_append, hready]
  have herased : (w.parked.eraseIdx i).filter l.keeps = (w'.parked.eraseIdx j).filter l.keeps := by
    rw [filter_eraseIdx hi hkept, filter_eraseIdx hj hkept, hparked, hcount]
  simp only [wakeAt, hi, hj]
  have hboth := congrArg₂ (fun ready parked => (ready, parked)) hwoken herased
  exact congrArg₂ (fun x (y : List (Task V) × List (Task V)) =>
    { x with ready := y.1, parked := y.2 }) h hboth

theorem wakeAt_of_neg {i : Nat} (h : ∀ t, w.parked[i]? = some t → l.keeps t = false) :
    (w.wakeAt i).without l = w.without l := by
  unfold wakeAt
  split
  · rename_i t ht
    have hneg := Bool.eq_false_iff.mp (h t ht)
    simp only [without, List.filter_append, List.filter_cons_of_neg hneg, List.filter_nil,
      List.append_nil, filter_eraseIdx_of_neg h]
  · rfl

theorem enterAt_of_neg {i : Nat} (h : ∀ t, w.ready[i]? = some t → l.keeps t = false) :
    Prod.map (without l) id (w.enterAt i) = (w.without l, none) := by
  unfold enterAt
  split
  · rename_i t ht
    have hneg := h t ht
    have herased : { w with ready := w.ready.eraseIdx i }.without l = w.without l := by
      simp only [without, filter_eraseIdx_of_neg h]
    cases t with
    | waiter caller name slot token =>
      have hcaller : caller ∈ l.callers := by simpa [Leavers.keeps] using hneg
      exact congrArg (·, none)
        ((without_checkSlot_of_mem _ name slot token hcaller).trans herased)
    | _ => cases hneg
  · rfl

end World

namespace Moment

variable {m m' : Moment V} {move move' : Move V}

/-- The moment without the leavers that wait. -/
def without (l : Leavers) (m : Moment V) : Moment V := { m with world := m.world.without l }

theorem without_step (m : Moment V) (move : Move V) : (m.step move).without l =
    ⟨(m.next move).1.without l, (m.next move).2,
      m.ended ++ (m.live.filter fun call => call ∉ (m.next move).1.live (m.next move).2).map
        fun call => (call, (m.next move).1.cache.flights.progress call.slot)⟩ := rfl

/-- Moves that come to the same without leavers lead to moments that are the same without them. -/
theorem step_congr (h : m.without l = m'.without l)
    (hnext : Prod.map (World.without l) id (m.next move) =
      Prod.map (World.without l) id (m'.next move')) :
    (m.step move).without l = (m'.step move').without l := by
  obtain ⟨hworld, hrunning, hended⟩ := Moment.mk.inj h
  have hw : (m.next move).1.without l = (m'.next move').1.without l :=
    (Prod.ext_iff.mp hnext).1
  have hr : (m.next move).2 = (m'.next move').2 := (Prod.ext_iff.mp hnext).2
  have hlive : m.live = m'.live := by
    change m.world.live m.running = m'.world.live m'.running
    rw [hrunning, World.live_congr hworld]
  have hlater : (m.next move).1.live (m.next move).2 =
      (m'.next move').1.live (m'.next move').2 := by
    rw [World.live_congr hw, hr]
  rw [without_step, without_step, hw, hlive, hlater, hr, hended]
  simp only [World.progress_congr hw]

/-- A move that comes to nothing without leavers leads to a moment that is the same without them. -/
theorem step_of_same
    (hnext : Prod.map (World.without l) id (m.next move) = (m.world.without l, m.running)) :
    (m.step move).without l = m.without l := by
  have hw : (m.next move).1.without l = m.world.without l := (Prod.ext_iff.mp hnext).1
  have hr : (m.next move).2 = m.running := (Prod.ext_iff.mp hnext).2
  have hlive : (m.next move).1.live (m.next move).2 = m.live := by
    rw [World.live_congr hw, hr]
    rfl
  have hgone : (m.live.filter fun call => call ∉ m.live) = [] :=
    List.filter_eq_nil_iff.mpr fun call hcall => by simpa using hcall
  rw [without_step, hw, hlive, hr, hgone, List.map_nil, List.append_nil]
  rfl

/-! ### Moves side by side -/

theorem next_alongside (h : m.without l = m'.without l) (howned : m.world.Owned l)
    (howned' : m'.world.Owned l) (halong : m.Alongside l m' move move') :
    Prod.map (World.without l) id (m.next move) =
      Prod.map (World.without l) id (m'.next move') := by
  obtain ⟨w, running, ended⟩ := m
  obtain ⟨w', running', ended'⟩ := m'
  obtain ⟨hw, rfl, rfl⟩ := Moment.mk.inj h
  cases running with
  | some r =>
    cases halong with
    | goOn =>
      change Prod.map _ id (w.carryOut r) = Prod.map _ id (w'.carryOut r)
      have hboth := congrArg (fun x => x.carryOut r) hw
      simp only [World.without_carryOut] at hboth
      exact hboth
    | _ => exact congrArg (·, some r) hw
  | none =>
    cases halong with
    | goOn => exact congrArg (·, none) hw
    | outside command hadmits =>
      refine congrArg (·, none) ?_
      change (w.effect command).without l = (w'.effect command).without l
      rw [← World.without_effect w, hw, World.without_effect]
    | archive archive => exact congrArg (fun x => ({ x with archive }, none)) hw
    | @wake i j hsame =>
      refine congrArg (·, none) ?_
      change (w.wakeAt i).without l = (w'.wakeAt j).without l
      rw [World.wakeAt_congr hw hsame]
    | @run i j hsame =>
      obtain ⟨t, hi, hj, hkept, hcount⟩ := hsame
      change Prod.map _ id (w.enterAt i) = Prod.map _ id (w'.enterAt j)
      have hrest := World.eraseIdx_congr hw hi hj hkept hcount
      have howns : l.Owns t := howned t (List.mem_append_left _ (List.mem_of_getElem? hi))
      simp only [World.enterAt, hi, hj]
      rw [← World.without_enter _ hkept howns, hrest, World.without_enter _ hkept howns]

/-- A leaver that wakes or looks at its slot leaves everything else as it is. -/
theorem next_of_lingers (h : m.Lingers l move) :
    Prod.map (World.without l) id (m.next move) = (m.world.without l, m.running) := by
  obtain ⟨w, running, ended⟩ := m
  cases running with
  | some r => cases move <;> first | rfl | cases h
  | none =>
    cases move with
    | wake i => exact congrArg (·, none) (World.wakeAt_of_neg h)
    | run i => exact World.enterAt_of_neg h
    | outside command => cases h
    | archive archive => cases h
    | goOn => cases h

/-- A caller that waits has no other task. -/
theorem Sound.eq_of_caller (h : m.Sound) {t t' : Task V} {caller : Nat} (ht : t ∈ m.world.tasks)
    (ht' : t' ∈ m.world.tasks) (hcaller : t.caller? = some caller)
    (hcaller' : t'.caller? = some caller) : t = t' := by
  have hpairs := List.pairwise_filterMap.mp (List.nodup_append.mp h.people).1
  by_contra hne
  exact @List.Pairwise.forall _ _ _ ⟨fun a b hab x hx y hy hxy => hab y hy x hx hxy.symm⟩ hpairs
    t ht t' ht' hne caller hcaller caller hcaller' rfl

/-- A leaver that goes while it waits leaves everything else as it is. -/
theorem Sound.next_of_departs (h : m.Sound) (howned : m.world.Owned l)
    (hdeparts : m.Departs l move) :
    Prod.map (World.without l) id (m.next move) = (m.world.without l, m.running) := by
  obtain ⟨w, running, ended⟩ := m
  cases running with
  | some r => cases move <;> first | rfl | cases hdeparts
  | none =>
    cases move with
    | outside command =>
      refine congrArg (·, none) ?_
      change (w.effect command).without l = w.without l
      cases command with
      | cancel token => exact World.cancel_of_mem howned hdeparts
      | dropCaller caller =>
        obtain ⟨hcaller, name, slot, token, hwaits⟩ := hdeparts
        apply World.dropCaller_of_neg
        intro t ht hdropped
        rw [h.eq_of_caller ht hwaits hdropped rfl]
        simpa [Leavers.keeps] using hcaller
      | _ => cases hdeparts
    | _ => cases hdeparts

theorem owned_step (h : m.Sound) (howned : m.world.Owned l)
    (hadmits : ∀ command, move = .outside command → l.Admits m.world.callers command) :
    (m.step move).world.Owned l := by
  change (m.next move).1.Owned l
  have hflying := h.flying
  obtain ⟨w, running, ended⟩ := m
  cases running with
  | some r =>
    cases move with
    | goOn => exact (World.passes_carryOut hflying r).owned rfl howned
    | _ => exact howned
  | none =>
    cases move with
    | goOn => exact howned
    | outside command => exact World.owned_effect howned (hadmits command rfl)
    | archive archive => exact howned
    | wake i => exact howned.of_subset (World.tasks_wakeAt w i).subset
    | run i =>
      change (w.enterAt i).1.Owned l
      unfold World.enterAt
      split
      · rename_i t ht
        have htasks := World.tasks_of_ready ht
        refine World.owned_enter (fun t' ht' => howned t' ?_) (howned t ?_)
        · exact htasks.symm.subset (List.mem_cons_of_mem _ ht')
        · exact htasks.symm.subset List.mem_cons_self
      · exact howned

/-! ### Runs side by side -/

theorem run_concat (m : Moment V) (moves : List (Move V)) (move : Move V) :
    m.run (moves ++ [move]) = (m.run moves).step move := run_append m moves [move]

/-- At both moments nobody but leavers has tokens of theirs, and everything else is the same. -/
structure Agrees (l : Leavers) (m m' : Moment V) : Prop where
  owned : m.world.Owned l
  owned' : m'.world.Owned l
  same : m.without l = m'.without l

theorem Alongside.admits (h : m.Alongside l m' move move') {command : Command V}
    (he : move = .outside command) : l.Admits m.world.callers command := by
  cases h with
  | outside command' hadmits =>
    cases he
    exact hadmits
  | _ => cases he

theorem Alongside.admits' (h : m.Alongside l m' move move') {command : Command V}
    (he : move' = .outside command) : l.Admits m.world.callers command := by
  cases h with
  | outside command' hadmits =>
    cases he
    exact hadmits
  | _ => cases he

theorem Lingers.admits (h : m.Lingers l move) {command : Command V}
    (he : move = .outside command) : l.Admits m.world.callers command := by
  subst he
  cases h

theorem Departs.admits (h : m.Departs l move) {command : Command V}
    (he : move = .outside command) : l.Admits m.world.callers command := by
  subst he
  cases command <;> trivial

namespace Agrees

theorem symm (h : m.Agrees l m') : m'.Agrees l m := ⟨h.owned', h.owned, h.same.symm⟩

theorem callers (h : m.Agrees l m') : m.world.callers = m'.world.callers :=
  congrArg (fun x => x.world.callers) h.same

theorem alongside (h : m.Agrees l m') (hm : m.Sound) (hm' : m'.Sound)
    (halong : m.Alongside l m' move move') : (m.step move).Agrees l (m'.step move') where
  owned := owned_step hm h.owned fun _ he => halong.admits he
  owned' := owned_step hm' h.owned' fun _ he => h.callers ▸ halong.admits' he
  same := step_congr h.same (next_alongside h.same h.owned h.owned' halong)

theorem lingers (h : m.Agrees l m') (hm : m.Sound) (hlingers : m.Lingers l move) :
    (m.step move).Agrees l m' where
  owned := owned_step hm h.owned fun _ he => hlingers.admits he
  owned' := h.owned'
  same := (step_of_same (next_of_lingers hlingers)).trans h.same

theorem departs (h : m.Agrees l m') (hm : m.Sound) (hdeparts : m.Departs l move) :
    (m.step move).Agrees l m' where
  owned := owned_step hm h.owned fun _ he => hdeparts.admits he
  owned' := h.owned'
  same := (step_of_same (hm.next_of_departs h.owned hdeparts)).trans h.same

end Agrees

end Moment

/-- Where the ends of two lists belong together, and so do the places before them, all places do. -/
theorem exists_prefix_of_last {α β : Type} {R : List α → List β → Prop} {a a' : List α}
    {b b' : List β} (ha : ∀ before, before <+: a' → before = a' ∨ before <+: a) (hb : b <+: b')
    (hlast : R a' b') (ih : ∀ before, before <+: a → ∃ before', before' <+: b ∧ R before before') :
    ∀ before, before <+: a' → ∃ before', before' <+: b' ∧ R before before' := by
  intro before hbefore
  rcases ha before hbefore with rfl | hbefore
  · exact ⟨b', List.prefix_rfl, hlast⟩
  · obtain ⟨before', hprefix, hR⟩ := ih before hbefore
    exact ⟨before', hprefix.trans hb, hR⟩

namespace Beside

open Moment

variable {config : Config V} {first second : List (Move V)}

theorem agrees (h : Beside config l first second) :
    ((Moment.new config).run first).Agrees l ((Moment.new config).run second) := by
  have hsound (moves : List (Move V)) := (sound_new config).run moves
  induction h with
  | start => exact ⟨nofun, nofun, rfl⟩
  | both h halong ih =>
    rw [run_concat, run_concat]
    exact ih.alongside (hsound _) (hsound _) halong
  | first h hlingers ih =>
    rw [run_concat]
    exact ih.lingers (hsound _) hlingers
  | second h hlingers ih =>
    rw [run_concat]
    exact (ih.symm.lingers (hsound _) hlingers).symm
  | departs h hdeparts ih =>
    rw [run_concat]
    exact (ih.symm.departs (hsound _) hdeparts).symm

/-- Every step of either run has one of the other beside it. -/
theorem prefixes (h : Beside config l first second) :
    (∀ before, before <+: first → ∃ before', before' <+: second ∧ Beside config l before before') ∧
    ∀ before', before' <+: second → ∃ before, before <+: first ∧ Beside config l before before' := by
  induction h with
  | start =>
    refine ⟨fun before hb => ⟨[], List.prefix_rfl, ?_⟩, fun before hb => ⟨[], List.prefix_rfl, ?_⟩⟩
    · cases List.prefix_nil.mp hb
      exact .start
    · cases List.prefix_nil.mp hb
      exact .start
  | both h halong ih =>
    have hlast := h.both halong
    exact ⟨exists_prefix_of_last (fun _ => List.prefix_concat_iff.mp) (List.prefix_append _ _)
        hlast ih.1,
      exists_prefix_of_last (R := flip (Beside config l)) (fun _ => List.prefix_concat_iff.mp)
        (List.prefix_append _ _) hlast ih.2⟩
  | first h hlingers ih =>
    have hlast := h.first hlingers
    exact ⟨exists_prefix_of_last (fun _ => List.prefix_concat_iff.mp) List.prefix_rfl hlast ih.1,
      exists_prefix_of_last (R := flip (Beside config l)) (fun _ => Or.inr)
        (List.prefix_append _ _) hlast ih.2⟩
  | second h hlingers ih =>
    have hlast := h.second hlingers
    exact ⟨exists_prefix_of_last (fun _ => Or.inr) (List.prefix_append _ _) hlast ih.1,
      exists_prefix_of_last (R := flip (Beside config l)) (fun _ => List.prefix_concat_iff.mp)
        List.prefix_rfl hlast ih.2⟩
  | departs h hdeparts ih =>
    have hlast := h.departs hdeparts
    exact ⟨exists_prefix_of_last (fun _ => Or.inr) (List.prefix_append _ _) hlast ih.1,
      exists_prefix_of_last (R := flip (Beside config l)) (fun _ => List.prefix_concat_iff.mp)
        List.prefix_rfl hlast ih.2⟩

theorem isLoading_eq (h : Beside config l first second) (name : String) :
    ((Moment.new config).run first).world.cache.isLoading name =
      ((Moment.new config).run second).world.cache.isLoading name :=
  congrArg (fun x => x.world.cache.isLoading name) h.agrees.same

/-- The second run can go on the way the first one does. -/
theorem exists_append (h : Beside config l first second) (move : Move V)
    (hadmits : ∀ command, move = .outside command →
      l.Admits ((Moment.new config).run first).world.callers command) :
    ∃ later, later.length ≤ 1 ∧ Beside config l (first ++ [move]) (second ++ later) := by
  have hsame := h.agrees.same
  have hboth {move' : Move V} (halong : ((Moment.new config).run first).Alongside l
      ((Moment.new config).run second) move move') :
      ∃ later, later.length ≤ 1 ∧ Beside config l (first ++ [move]) (second ++ later) :=
    ⟨[move'], Nat.le_refl _, .both h halong⟩
  have hfirst (hlingers : ((Moment.new config).run first).Lingers l move) :
      ∃ later, later.length ≤ 1 ∧ Beside config l (first ++ [move]) (second ++ later) :=
    ⟨[], Nat.zero_le _, (List.append_nil second).symm ▸ .first h hlingers⟩
  cases move with
  | outside command => exact hboth (.outside command (hadmits command rfl))
  | archive archive => exact hboth (.archive archive)
  | goOn => exact hboth .goOn
  | wake i =>
    rcases l.exists_same (congrArg (fun x => x.world.parked) hsame) i with hneg | ⟨j, hj⟩
    · exact hfirst hneg
    · exact hboth (.wake hj)
  | run i =>
    rcases l.exists_same (congrArg (fun x => x.world.ready) hsame) i with hneg | ⟨j, hj⟩
    · exact hfirst hneg
    · exact hboth (.run hj)

end Beside

/-! ### What leavers are told -/

namespace World

variable {w w' : World V}

theorem Passes.fired {h : Hand V} {offer : Option (String × Loader V)} {r : Option (Running V)}
    (hp : Passes h offer w w' r) : w'.fired = w.fired := by
  cases hp with
  | closes hc hl hclose =>
    refine Eq.trans ?_ (hl.fired.trans hc.fired)
    cases hclose <;> rfl
  | ends call p hc => exact hc.fired

theorem fired_effect (w : World V) (command : Command V) :
    w.fired ⊆ (w.effect command).fired := by
  cases command with
  | perform op inRuntime =>
    rw [effect_perform, (calm_perform w inRuntime op).fired]
    exact List.Subset.refl _
  | cancel token => exact List.subset_append_left _ _
  | _ => exact List.Subset.refl _

end World

namespace Moment

variable {m : Moment V} {caller slot : Nat} {name token : String} {outcome : Outcome V}

/-- A token that has fired stays so. -/
theorem Sound.fired_step (h : m.Sound) (move : Move V) :
    m.world.fired ⊆ (m.step move).world.fired := by
  change m.world.fired ⊆ (m.next move).1.fired
  have hflying := h.flying
  obtain ⟨w, running, ended⟩ := m
  cases running with
  | some r =>
    cases move with
    | goOn => exact (World.passes_carryOut hflying r).fired ▸ List.Subset.refl _
    | _ => exact List.Subset.refl _
  | none =>
    cases move with
    | outside command => exact w.fired_effect command
    | wake i =>
      change w.fired ⊆ (w.wakeAt i).fired
      unfold World.wakeAt
      split <;> exact List.Subset.refl _
    | run i =>
      change w.fired ⊆ (w.enterAt i).1.fired
      unfold World.enterAt
      split
      · rename_i t ht
        have hp := World.passes_enter { w with ready := w.ready.eraseIdx i } t
        rw [hp.fired]
        exact List.Subset.refl _
      · exact List.Subset.refl _
    | _ => exact List.Subset.refl _

theorem Sound.fired_run (h : m.Sound) (moves : List (Move V)) :
    m.world.fired ⊆ (m.run moves).world.fired := by
  induction moves generalizing m with
  | nil => exact List.Subset.refl _
  | cons move moves ih => exact List.Subset.trans (h.fired_step move) (ih (h.step move))

/-- A caller that is dropped while it waits is told nothing. -/
theorem Sound.untold_of_dropped (h : m.Sound) (hnone : m.running = none)
    (hdeparts : m.Departs l (.outside (.dropCaller caller))) (later : List (Move V)) :
    (caller, outcome) ∉ (m.run (.outside (.dropCaller caller) :: later)).world.results := by
  obtain ⟨-, name, slot, token, hwaits⟩ := hdeparts
  have hlt : caller < (m.step (.outside (.dropCaller caller))).world.callers := by
    change caller < (m.next (.outside (.dropCaller caller))).1.callers
    simp only [next, hnone]
    exact h.numbered caller (mem_people_of_task hwaits rfl)
  have hgone := not_mem_people_dropCaller hnone (h.unanswered hwaits rfl)
  exact fun hresult => (h.step _).gone_run hlt hgone later (mem_people_of_result hresult)

/-- A caller that waits is told that its token fired, or what its slot has become. -/
theorem Sound.cancelled_or_answered (h : m.Sound)
    (hwaits : .waiter caller name slot (some token) ∈ m.world.tasks) {later : List (Move V)}
    (hresult : (caller, outcome) ∈ (m.run later).world.results) :
    outcome = .error (.cancelled name) ∨ ∃ before, before <+: later ∧
      ((m.run before).world.cache.flights.progress slot).answer name false = some outcome := by
  obtain ⟨before, after, rfl, hanswer⟩ := h.told hwaits later hresult
  have hprefix : before <+: before ++ after := List.prefix_append _ _
  cases hp : (m.run before).world.cache.flights.progress slot with
  | running =>
    rw [hp] at hanswer
    cases hfired : (m.run before).world.isFired (some token) with
    | true =>
      rw [hfired] at hanswer
      exact Or.inl (Option.some.inj hanswer).symm
    | false =>
      rw [hfired] at hanswer
      cases hanswer
  | published o =>
    rw [hp] at hanswer
    exact Or.inr ⟨before, hprefix, hp ▸ hanswer⟩
  | abandoned =>
    rw [hp] at hanswer
    exact Or.inr ⟨before, hprefix, hp ▸ hanswer⟩

theorem mem_fired_cancel (hnone : m.running = none) (token : String) :
    token ∈ (m.step (.outside (.cancel token))).world.fired := by
  change token ∈ (m.next (.outside (.cancel token))).1.fired
  simp only [next, hnone]
  exact List.mem_append_right _ List.mem_cons_self

/-- A caller whose token has fired is told something in its next turn. -/
theorem told_of_fired (hfired : m.world.isFired (some token) = true) (hnone : m.running = none)
    {i : Nat} (hready : m.world.ready[i]? = some (.waiter caller name slot (some token))) :
    ∃ o, (caller, o) ∈ (m.step (.run i)).world.results ∧
      (m.world.cache.flights.progress slot = .running → o = .error (.cancelled name)) := by
  obtain ⟨o, hresult, hanswer⟩ := World.answer_mem_checkSlot
    (w := { m.world with ready := m.world.ready.eraseIdx i }) caller name
    fun hkept => Bool.eq_false_iff.mp hkept.2 hfired
  refine ⟨o, ?_, fun hrun => ?_⟩
  · change _ ∈ (m.next (.run i)).1.results
    simp only [next, hnone, World.enterAt, hready]
    exact hresult
  · rcases hanswer with hanswer | ⟨hcancelled, -⟩
    · change (m.world.cache.flights.progress slot).answer name false = _ at hanswer
      rw [hrun] at hanswer
      cases hanswer
    · exact hcancelled

/-- Nobody but leavers is told anything else. -/
theorem results_iff_of_without {m' : Moment V} (h : m.without l = m'.without l) {caller : Nat}
    (hcaller : caller ∉ l.callers) (o : Outcome V) :
    (caller, o) ∈ m.world.results ↔ (caller, o) ∈ m'.world.results := by
  have hresults : (m.world.results.filter fun r => !l.callers.contains r.1) =
      m'.world.results.filter fun r => !l.callers.contains r.1 :=
    congrArg (fun x => x.world.results) h
  have hkept (results : List (Nat × Outcome V)) : (caller, o) ∈ results ↔
      (caller, o) ∈ results.filter fun r => !l.callers.contains r.1 := by
    simp [hcaller]
  rw [hkept, hresults, ← hkept]

end Moment

open Moment in
/-- Whoever stops waiting affects nobody else: a run in which leavers are dropped or cancelled
besides is one with the same cache and the same results for all others. -/
theorem leaving_affects_nobody_else (config : Config V) (l : Leavers)
    (first second : List (Move V)) (h : Beside config l first second) :
    let m := (Moment.new config).run first
    let m' := (Moment.new config).run second
    m.world.cache = m'.world.cache ∧ m.world.events = m'.world.events ∧
    m.world.archive = m'.world.archive ∧ m.world.now = m'.world.now ∧
    m.running = m'.running ∧ m.ended = m'.ended ∧
    m.world.ready.filter l.keeps = m'.world.ready.filter l.keeps ∧
    m.world.parked.filter l.keeps = m'.world.parked.filter l.keeps ∧
    (∀ caller ∉ l.callers, ∀ o,
      (caller, o) ∈ m.world.results ↔ (caller, o) ∈ m'.world.results) ∧
    (∀ before, before <+: first → ∃ before', before' <+: second ∧ Beside config l before before' ∧
      ∀ name, ((Moment.new config).run before).world.cache.isLoading name =
        ((Moment.new config).run before').world.cache.isLoading name) ∧
    (∀ before', before' <+: second → ∃ before, before <+: first ∧ Beside config l before before' ∧
      ∀ name, ((Moment.new config).run before).world.cache.isLoading name =
        ((Moment.new config).run before').world.cache.isLoading name) ∧
    (∀ move, (∀ command, move = .outside command → l.Admits m.world.callers command) →
      ∃ later, later.length ≤ 1 ∧ Beside config l (first ++ [move]) (second ++ later)) ∧
    (∀ caller, m'.running = none → m'.Departs l (.outside (.dropCaller caller)) → ∀ later o,
      (caller, o) ∉ (m'.run (.outside (.dropCaller caller) :: later)).world.results) ∧
    ∀ caller name slot token, m'.running = none →
      .waiter caller name slot (some token) ∈ m'.world.tasks → ∀ later,
      let m'' := m'.run (.outside (.cancel token) :: later)
      (∀ o, (caller, o) ∈ m''.world.results → o = .error (.cancelled name) ∨
        ∃ before, before <+: .outside (.cancel token) :: later ∧
          ((m'.run before).world.cache.flights.progress slot).answer name false = some o) ∧
      ∀ i, m''.running = none →
        m''.world.ready[i]? = some (.waiter caller name slot (some token)) →
        ∃ o, (caller, o) ∈ (m''.step (.run i)).world.results ∧
          (m''.world.cache.flights.progress slot = .running → o = .error (.cancelled name)) := by
  intro m m'
  have hsame : m.without l = m'.without l := h.agrees.same
  have hsound : m'.Sound := (sound_new config).run second
  refine ⟨congrArg (fun x => x.world.cache) hsame, congrArg (fun x => x.world.events) hsame,
    congrArg (fun x => x.world.archive) hsame, congrArg (fun x => x.world.now) hsame,
    congrArg (fun x => x.running) hsame, congrArg (fun x => x.ended) hsame,
    congrArg (fun x => x.world.ready) hsame, congrArg (fun x => x.world.parked) hsame,
    ?_, ?_, ?_, h.exists_append, ?_, ?_⟩
  · exact fun caller hcaller o => results_iff_of_without hsame hcaller o
  · intro before hb
    obtain ⟨before', hb', hbeside⟩ := h.prefixes.1 before hb
    exact ⟨before', hb', hbeside, hbeside.isLoading_eq⟩
  · intro before' hb'
    obtain ⟨before, hb, hbeside⟩ := h.prefixes.2 before' hb'
    exact ⟨before, hb, hbeside, hbeside.isLoading_eq⟩
  · exact fun caller hnone hdeparts later o => hsound.untold_of_dropped hnone hdeparts later
  · intro caller name slot token hnone hwaits later
    refine ⟨fun o hresult => hsound.cancelled_or_answered hwaits hresult, ?_⟩
    intro i hnone'' hready
    have hlater := (hsound.step _).fired_run later (mem_fired_cancel hnone token)
    exact told_of_fired (List.contains_iff_mem.mpr hlater) hnone'' hready

namespace Moment

/-- The second caller misses, and the first one is dropped, which had started the load. -/
def leavingGateAlone : List (Move Nat) :=
  [.run 0, .outside (.dropCaller 0), .outside (.openGate "gate"), .wake 0, .run 0, .goOn, .run 0]

theorem beside_leavingGateAlone :
    Beside { weigh := fun _ _ => .ok 1 } ⟨[0], []⟩ (meetingAtGate ++ .run 0 :: leavingGate)
      (meetingAtGate ++ leavingGateAlone) := by
  have hmeeting : Beside { weigh := fun _ _ => .ok 1 } ⟨[0], []⟩ meetingAtGate meetingAtGate :=
    ((((Beside.start.both
      (.outside (.request "a" ⟨none, .await "gate" (.done (.ofValue 7))⟩ none) trivial)).both
      (.run (i := 0) (j := 0) ⟨_, rfl, rfl, rfl, rfl⟩)).both
      (.run (i := 0) (j := 0) ⟨_, rfl, rfl, rfl, rfl⟩)).both .goOn).both
      (.outside (.request "a" ⟨none, .done (.ofValue 8)⟩ none) trivial)
  have hdropped : Beside { weigh := fun _ _ => .ok 1 } ⟨[0], []⟩ (meetingAtGate ++ [.run 0])
      (meetingAtGate ++ [.run 0] ++ [.outside (.dropCaller 0)]) :=
    (hmeeting.both (.run ⟨_, rfl, rfl, rfl, rfl⟩)).departs
      ⟨List.mem_cons_self, "a", 0, none, List.mem_cons_self⟩
  have hloaded := (((hdropped.both (.outside (.openGate "gate") trivial)).both
    (.wake (i := 1) (j := 0) ⟨_, rfl, rfl, rfl, rfl⟩)).both
    (.run (i := 0) (j := 0) ⟨_, rfl, rfl, rfl, rfl⟩)).both .goOn
  have hlooks : Beside _ _ (_ ++ [.run 0]) _ := hloaded.first (by rintro _ ⟨⟩; rfl)
  exact hlooks.both (.run (i := 0) (j := 0) ⟨_, rfl, rfl, rfl, rfl⟩)

theorem leaving_affects_nobody_else_first_caller :
    let m := (new { weigh := fun _ _ => .ok 1 }).run (meetingAtGate ++ .run 0 :: leavingGate)
    let m' := (new { weigh := fun _ _ => .ok 1 }).run (meetingAtGate ++ leavingGateAlone)
    m.world.cache = m'.world.cache ∧ (1, .ok (some 7)) ∈ m'.world.results ∧
      (0, .ok (some 7)) ∈ m.world.results ∧ ∀ o, (0, o) ∉ m'.world.results := by
  obtain ⟨hcache, -, -, -, -, -, -, -, hresults, -⟩ :=
    leaving_affects_nobody_else _ _ _ _ beside_leavingGateAlone
  refine ⟨hcache, (hresults 1 (by decide) _).mp List.mem_cons_self, ?_, ?_⟩
  · exact List.mem_cons_of_mem _ List.mem_cons_self
  · rintro o (_ | ⟨_, ⟨⟩⟩)

end Moment

end Stockroom.Cache
