import Stockroom.Proofs.Cache.Steps

/-! What holds at every moment: the registry knows the executions that are alive, all others that
were started have ended, and nobody waits at a slot that has been settled. -/

namespace Stockroom.Cache
set_option autoImplicit false

variable {V : Type}

namespace World

variable {w w' : World V}

/-- Nobody waits for an outcome that is there. -/
def Awake (w : World V) : Prop :=
  ∀ t ∈ w.parked, ∀ slot, t.awaitsSlot slot = true → w.cache.flights.progress slot = .running

theorem Calm.awake (h : w.Calm w') (hw : w.Awake) : w'.Awake := by
  obtain ⟨new, he, hnew⟩ := h.parked
  intro t ht slot hslot
  rw [he] at ht
  rw [h.flights]
  rcases List.mem_append.mp ht with ht | ht
  · exact hw t ht slot hslot
  · rw [t.not_awaitsSlot_of_isSave (hnew t ht) slot] at hslot
    cases hslot

theorem Leads.awake {offer : Option (String × Loader V)} (h : w.Leads offer w') (hw : w.Awake) :
    w'.Awake := by
  cases h with
  | none => exact hw
  | start name cause loader hoffer hnone =>
    intro t ht slot hslot
    change (w.cache.flights.register name).2.progress slot = .running
    rw [Registry.progress_register_eq]
    split
    · rfl
    · exact hw t ht slot hslot

theorem Closes.awake {h : Hand V} {r : Option (Running V)} (hc : w.Closes h w' r)
    (hw : w.Awake) : w'.Awake := by
  cases hc with
  | drops he => exact hw
  | goesOn r he => exact hw
  | begins call cause loader he => exact hw
  | parks t he hslots =>
    intro t' ht' slot hslot
    rcases List.mem_append.mp ht' with ht' | ht'
    · exact hw t' ht' slot hslot
    · rw [List.mem_singleton.mp ht'] at hslot
      exact hslots slot hslot
  | answers caller outcome he => exact hw

/-- Whoever waited for the execution that has ended was woken. -/
theorem awake_settleCall (hw : w.Awake) (call : Call) (p : Progress V) :
    (w.settleCall call p).Awake := by
  intro t ht slot hslot
  change (w.cache.flights.settle call p).progress slot = .running
  have hne : slot ≠ call.slot := by
    rintro rfl
    have hnot := List.of_mem_filter ht
    rw [hslot] at hnot
    cases hnot
  rw [Registry.progress_settle_eq, if_neg fun h => hne h.1]
  exact hw t (List.mem_of_mem_filter ht) slot hslot

theorem Passes.awake {h : Hand V} {offer : Option (String × Loader V)}
    {r : Option (Running V)} (hp : Passes h offer w w' r) (hw : w.Awake) : w'.Awake := by
  cases hp with
  | closes hc hl hclose => exact hclose.awake (hl.awake (hc.awake hw))
  | ends call p hc hcall hcaller hp => exact awake_settleCall (hc.awake hw) call p

/-! ### Callers -/

theorem Closes.people {h : Hand V} {r : Option (Running V)} (hc : w.Closes h w' r) :
    w'.people.Perm (h.caller.toList ++ w.people) := by
  cases hc with
  | drops he => subst he; exact .refl _
  | goesOn r he => subst he; exact .refl _
  | begins call cause loader he => subst he; exact .refl _
  | parks t he => subst he; exact people_of_tasks (tasks_park w t) rfl
  | answers caller outcome he => subst he; exact List.perm_middle

theorem Closes.callers {h : Hand V} {r : Option (Running V)} (hc : w.Closes h w' r) :
    w'.callers = w.callers := by cases hc <;> rfl

theorem people_settleCall (w : World V) (call : Call) (p : Progress V) :
    (w.settleCall call p).people.Perm w.people :=
  ((tasks_settleCall w call p).filterMap _).append_right _

theorem Passes.people {h : Hand V} {offer : Option (String × Loader V)}
    {r : Option (Running V)} (hp : Passes h offer w w' r) :
    w'.people.Perm (h.caller.toList ++ w.people) ∧ w'.callers = w.callers := by
  cases hp with
  | closes hc hl hclose =>
    rw [hclose.callers]
    cases hl with
    | none => exact ⟨hclose.people.trans (hc.people.append_left _), hc.callers⟩
    | start name cause loader hoffer hnone =>
      refine ⟨hclose.people.trans (List.Perm.append_left _ ?_), hc.callers⟩
      exact (people_lead _ name cause loader).trans hc.people
  | ends call p hc hcall hcaller hp =>
    rw [hcaller]
    exact ⟨(people_settleCall _ call p).trans hc.people, hc.callers⟩

end World

namespace Moment

structure Sound (m : Moment V) : Prop where
  tracks : m.world.cache.flights.Tracks m.live
  started : m.world.started = m.ended.length + m.live.length
  ended : ∀ e ∈ m.ended, e.1.slot < m.world.cache.flights.slots.length ∧ e.2 ≠ .running ∧
    m.world.cache.flights.progress e.1.slot = e.2
  awake : m.world.Awake
  people : m.world.people.Nodup
  numbered : ∀ n ∈ m.world.people, n < m.world.callers

theorem sound_new (config : Config V) : (new config).Sound where
  tracks := Registry.Tracks.empty
  started := rfl
  ended := nofun
  awake := nofun
  people := .nil
  numbered := nofun

variable {m : Moment V}

theorem Sound.flying (h : m.Sound) : m.world.Flying := fun name slot hslot =>
  (h.tracks.running_iff slot).mpr ⟨⟨name, slot⟩, (h.tracks.get?_iff name slot).mp hslot, rfl⟩

theorem Takes.flying {hand : Hand V} {w : World V} (ht : m.Takes hand w) (h : m.Sound) :
    w.Flying := by
  unfold World.Flying
  rw [ht.cache]
  exact h.flying

theorem Sound.change (h : m.Sound) (move : Move V) :
    World.Change m.world m.live (m.step move).world (m.step move).live := by
  change World.Change m.world m.live (m.next move).1 ((m.next move).1.live (m.next move).2)
  cases m.turn_next move with
  | outside ho hr =>
    rw [hr]
    exact .same ho.flights ho.started (ho.calls.append_left _)
  | passes ht hp => exact ((hp (ht.flying h)).change.of_perm ht.live.symm).of_cache ht.cache

theorem mem_ended_step {move : Move V} {e : Call × Progress V} :
    e ∈ (m.step move).ended ↔ e ∈ m.ended ∨ (e.1 ∈ m.live ∧ e.1 ∉ (m.step move).live ∧
      e.2 = (m.step move).world.cache.flights.progress e.1.slot) := by
  obtain ⟨call, p⟩ := e
  change (call, p) ∈ m.ended ++ (m.live.filter fun call => call ∉ (m.step move).live).map _ ↔ _
  simp only [List.mem_append, List.mem_map, List.mem_filter, decide_eq_true_eq]
  refine or_congr_right ?_
  constructor
  · rintro ⟨call', ⟨hlive, hgone⟩, he⟩
    cases he
    exact ⟨hlive, hgone, rfl⟩
  · rintro ⟨hlive, hgone, rfl⟩
    exact ⟨call, ⟨hlive, hgone⟩, rfl⟩

theorem Sound.awake_step (h : m.Sound) (move : Move V) : (m.step move).world.Awake := by
  change (m.next move).1.Awake
  cases m.turn_next move with
  | outside ho hr =>
    intro t ht slot hslot
    rw [ho.flights]
    rcases ho.parked t ht with ht | ht
    · exact h.awake t ht slot hslot
    · rw [t.not_awaitsSlot_of_isSave ht slot] at hslot
      cases hslot
  | passes ht hp =>
    refine (hp (ht.flying h)).awake ?_
    unfold World.Awake
    rw [ht.parked, ht.cache]
    exact h.awake

theorem Sound.people_step (h : m.Sound) (move : Move V) : (m.step move).world.people.Nodup ∧
    ∀ n ∈ (m.step move).world.people, n < (m.step move).world.callers := by
  change (m.next move).1.people.Nodup ∧ ∀ n ∈ (m.next move).1.people, n < (m.next move).1.callers
  cases m.turn_next move with
  | outside ho hr =>
    rcases ho.people with ⟨hcallers, l, hperm, hl⟩ | ⟨hcallers, hperm⟩
    · refine ⟨hperm.nodup_iff.mp (h.people.sublist hl), fun n hn => ?_⟩
      rw [hcallers]
      exact h.numbered n (hl.subset (hperm.symm.subset hn))
    · constructor
      · rw [hperm.nodup_iff, List.nodup_cons]
        exact ⟨fun hmem => Nat.lt_irrefl _ (h.numbered _ hmem), h.people⟩
      · intro n hn
        rw [hcallers]
        rcases List.mem_cons.mp (hperm.subset hn) with rfl | hn
        · exact Nat.lt_succ_self _
        · exact Nat.lt_succ_of_lt (h.numbered n hn)
  | passes ht hp =>
    obtain ⟨hpeople, hcallers⟩ := (hp (ht.flying h)).people
    have hperm := hpeople.trans ht.people.symm
    refine ⟨hperm.nodup_iff.mpr h.people, fun n hn => ?_⟩
    rw [hcallers, ht.callers]
    exact h.numbered n (hperm.subset hn)

theorem Sound.step (h : m.Sound) (move : Move V) : (m.step move).Sound where
  tracks := (h.change move).tracks h.tracks
  started := by
    have hcount := (h.change move).filter_eq h.tracks
    have hold := h.started
    change _ = (m.ended ++ (m.live.filter fun call => call ∉ (m.step move).live).map _).length + _
    rw [List.length_append, List.length_map]
    omega
  ended e he := by
    rcases mem_ended_step.mp he with he | ⟨hlive, hgone, hp⟩
    · obtain ⟨hlt, hrun, hp⟩ := h.ended e he
      obtain ⟨hlt', hp'⟩ := (h.change move).progress h.tracks hlt hp hrun
      exact ⟨hlt', hrun, hp'⟩
    · obtain ⟨hlt, hrun⟩ := (h.change move).progress_of_gone h.tracks hlive hgone
      exact ⟨hlt, hp ▸ hrun, hp.symm⟩
  awake := h.awake_step move
  people := (h.people_step move).1
  numbered := (h.people_step move).2

theorem Sound.run (h : m.Sound) (moves : List (Move V)) : (m.run moves).Sound := by
  induction moves generalizing m with
  | nil => exact h
  | cons move moves ih => exact ih (h.step move)

end Moment

end Stockroom.Cache
