import Stockroom.Proofs.Cache.Sound

/-! From the move that starts an execution to the one that ends it, no loader is invoked for its
name but its own, and that one at most once. -/

namespace Stockroom.Cache
set_option autoImplicit false

variable {V : Type}

namespace World

variable {w w' : World V}

/-- The execution that a turn starts, if any, with the loader on offer. -/
def Started (w : World V) (offer : Option (String × Loader V))
    (l : List (Call × Cause × Loader V)) : Prop :=
  l = [] ∨ ∃ name cause loader, offer = some (name, loader) ∧
    w.cache.flights.contains name = false ∧
    l = [((w.cache.flights.register name).1, cause, loader)]

/-- What a turn adds to the log, and what it leaves of the executions and of the loaders that have
not been invoked. -/
inductive Logs (h : Hand V) (w w' : World V) (live' : List Call)
    (new : List (Event V)) (l : List (Call × Cause × Loader V)) : Prop where
  | keeps : w'.events = new ++ w.events →
      live'.Perm (h.call.toList ++ (l.map Prod.fst ++ w.calls)) →
      w'.pendings.Perm (h.pending.toList ++ (l ++ w.pendings)) → Logs h w w' live' new l
  | begins (call : Call) (cause : Cause) (loader : Loader V) :
      h.call = some call → h.pending = some (call, cause, loader) →
      w'.events = .invoked call.key loader.tag cause :: (new ++ w.events) →
      live'.Perm (call :: (l.map Prod.fst ++ w.calls)) →
      w'.pendings.Perm (l ++ w.pendings) → Logs h w w' live' new l
  | ends (call : Call) : h.call = some call → w'.events = new ++ w.events →
      live'.Perm w.calls → w'.pendings.Perm w.pendings → Logs h w w' live' new l

theorem Leads.started {offer : Option (String × Loader V)} (h : w.Leads offer w') :
    ∃ l, w.Started offer l ∧ w'.calls.Perm (l.map Prod.fst ++ w.calls) ∧
      w'.pendings.Perm (l ++ w.pendings) ∧ w'.events = w.events := by
  cases h with
  | none => exact ⟨[], Or.inl rfl, .refl _, .refl _, rfl⟩
  | start name cause loader hoffer hnone =>
    exact ⟨_, Or.inr ⟨name, cause, loader, hoffer, hnone, rfl⟩, calls_lead w name cause loader,
      pendings_lead w name cause loader, rfl⟩

theorem Passes.logs {h : Hand V} {offer : Option (String × Loader V)}
    {r : Option (Running V)} (hp : Passes h offer w w' r) :
    ∃ l new, w.Started offer l ∧ Silent new ∧ Logs h w w' (w'.live r) new l := by
  cases hp with
  | @closes w₁ w₂ _ _ hc hl hclose =>
    obtain ⟨new, hevents, hsilent⟩ := hc.events
    obtain ⟨l, hstarted, hcalls, hpendings, he⟩ := hl.started
    refine ⟨l, new, ?_, hsilent, ?_⟩
    · unfold Started at hstarted ⊢
      rw [← hc.flights]
      exact hstarted
    have hlive : (w'.live r).Perm (h.call.toList ++ (l.map Prod.fst ++ w.calls)) :=
      hclose.live.trans ((hcalls.trans (hc.calls.append_left _)).append_left _)
    have hpendings' := hpendings.trans (hc.pendings.append_left _)
    rw [hevents] at he
    cases hclose with
    | drops heq => exact .keeps he hlive (by subst heq; exact hpendings')
    | goesOn r heq => exact .keeps he hlive (by subst heq; exact hpendings')
    | begins call cause loader heq =>
      subst heq
      refine .begins call cause loader rfl rfl ?_ hlive hpendings'
      rw [← he]
      rfl
    | parks t heq =>
      refine .keeps he hlive ?_
      subst heq
      exact (filterMap_cons_perm Task.pending? (tasks_park w₂ t)).trans (hpendings'.append_left _)
    | answers caller outcome heq => exact .keeps he hlive (by subst heq; exact hpendings')
  | @ends w₁ call p hc hcall hcaller hp =>
    obtain ⟨new, hevents, hsilent⟩ := hc.events
    refine ⟨[], new, Or.inl rfl, hsilent, .ends call hcall hevents ?_ ?_⟩
    · exact ((tasks_settleCall w₁ call p).filterMap Task.call?).trans hc.calls
    · exact ((tasks_settleCall w₁ call p).filterMap Task.pending?).trans hc.pendings

theorem pendings_sublist (w : World V) : (w.pendings.map Prod.fst).Sublist w.calls := by
  unfold pendings calls
  induction w.tasks with
  | nil => exact .slnil
  | cons t l ih =>
    cases hp : t.pending? with
    | none =>
      rw [List.filterMap_cons_none hp]
      cases hc : t.call? with
      | none => rwa [List.filterMap_cons_none hc]
      | some call =>
        rw [List.filterMap_cons_some hc]
        exact ih.cons call
    | some x =>
      rw [List.filterMap_cons_some hp, List.filterMap_cons_some (Task.call?_of_pending? hp),
        List.map_cons]
      exact ih.cons_cons x.1

theorem filter_eventsSince {new : List (Event V)} (h : w'.events = new ++ w.events)
    (p : Event V → Bool) : (w'.eventsSince w).filter p = (new.filter p).reverse := by
  rw [eventsSince, h, List.length_append, Nat.add_sub_cancel, List.take_left, List.filter_reverse]

end World

namespace Moment

variable {m : Moment V} {call : Call} {cause : Cause} {loader : Loader V}
  {base : List (Event V)}

theorem Sound.pendings_nodup (h : m.Sound) : (m.world.pendings.map Prod.fst).Nodup := by
  have hsub : (m.world.pendings.map Prod.fst).Sublist m.live :=
    m.world.pendings_sublist.trans (List.sublist_append_right _ _)
  exact h.tracks.nodup.sublist hsub

theorem Sound.not_live_of_ended (h : m.Sound) {p : Progress V} (he : (call, p) ∈ m.ended) :
    call ∉ m.live := by
  intro hlive
  obtain ⟨-, hrun, hp⟩ := h.ended _ he
  exact hrun (hp.symm.trans ((h.tracks.running_iff call.slot).mpr ⟨call, hlive, rfl⟩))

/-- A call that is alive either stays alive or is taken down as ended. -/
theorem live_or_ended_step (move : Move V) (h : call ∈ m.live) :
    call ∈ (m.step move).live ∨ ∃ p, (call, p) ∈ (m.step move).ended := by
  by_cases hlive : call ∈ (m.step move).live
  · exact Or.inl hlive
  · refine Or.inr ⟨(m.step move).world.cache.flights.progress call.slot, ?_⟩
    exact mem_ended_step.mpr (Or.inr ⟨h, hlive, rfl⟩)

theorem ended_mono_step (move : Move V) {e : Call × Progress V} (h : e ∈ m.ended) :
    e ∈ (m.step move).ended := mem_ended_step.mpr (Or.inl h)

/-- How far an execution has come since the log was `base`: its loader has not been invoked yet,
or it was invoked once, or the execution is over. -/
inductive Followed (base : List (Event V)) (call : Call) (cause : Cause) (loader : Loader V)
    (m : Moment V) : Prop where
  | pending (new : List (Event V)) : m.world.events = new ++ base →
      new.filter (Event.invokes call.key) = [] → (call, cause, loader) ∈ m.world.pendings →
      call ∈ m.live → Followed base call cause loader m
  | invoked (new : List (Event V)) : m.world.events = new ++ base →
      new.filter (Event.invokes call.key) = [.invoked call.key loader.tag cause] →
      (∀ x ∈ m.world.pendings, x.1 ≠ call) → call ∈ m.live → Followed base call cause loader m
  | ended (p : Progress V) : (call, p) ∈ m.ended → Followed base call cause loader m

theorem Takes.mem_live {hand : Hand V} {w : World V} (ht : m.Takes hand w)
    (hcall : hand.call = some call) : call ∈ m.live := by
  refine ht.live.symm.subset (List.mem_append_left _ ?_)
  rw [hcall]
  exact List.mem_cons_self

theorem Sound.ne_of_started (h : m.Sound) {hand : Hand V} {w : World V} (ht : m.Takes hand w)
    {offer : Option (String × Loader V)} {l : List (Call × Cause × Loader V)}
    (hl : w.Started offer l) (hlive : call ∈ m.live) : ∀ x ∈ l, x.1 ≠ call := by
  rintro x hx rfl
  rcases hl with rfl | ⟨name, cause, loader, -, -, rfl⟩
  · cases hx
  · rw [List.mem_singleton.mp hx] at hlive
    have hlt := h.tracks.slot_lt hlive
    rw [← ht.cache] at hlt
    exact Nat.lt_irrefl _ hlt

/-- What has become of the loader of an execution that was alive at a moment: no loader was invoked
for its name since, or its own was, for the first time. -/
inductive Continues (m : Moment V) (call : Call) (w' : World V) (live' : List Call) : Prop where
  | silent (more : List (Event V)) : w'.events = more ++ m.world.events →
      more.filter (Event.invokes call.key) = [] →
      (call ∈ live' → ∀ x, x.1 = call → (x ∈ w'.pendings ↔ x ∈ m.world.pendings)) →
      Continues m call w' live'
  | invokes (more : List (Event V)) (cause : Cause) (loader : Loader V) :
      w'.events = more ++ m.world.events →
      more.filter (Event.invokes call.key) = [.invoked call.key loader.tag cause] →
      (call, cause, loader) ∈ m.world.pendings → (∀ x ∈ w'.pendings, x.1 ≠ call) →
      Continues m call w' live'

section
variable {hand : Hand V} {w₀ w' : World V} {l : List (Call × Cause × Loader V)}
  {more : List (Event V)} {live' : List Call} {call' : Call}

theorem Sound.continues_of_begins (h : m.Sound) (ht : m.Takes hand w₀) (hlive : call ∈ m.live)
    (hnew : ∀ x ∈ l, x.1 ≠ call) (hquiet : more.filter (Event.invokes call.key) = [])
    (hcall : hand.call = some call') (hpend : hand.pending = some (call', cause, loader))
    (he : w'.events = .invoked call'.key loader.tag cause :: (more ++ w₀.events))
    (hpendings : w'.pendings.Perm (l ++ w₀.pendings)) : m.Continues call w' live' := by
  have hevents : w'.events =
      .invoked call'.key loader.tag cause :: more ++ m.world.events := by
    rw [he, ht.events]
    rfl
  by_cases hsame : call' = call
  · subst hsame
    have hnot : call' ∉ w₀.pendings.map Prod.fst := by
      have hnodup := h.pendings_nodup
      rw [(ht.pendings.map Prod.fst).nodup_iff, hpend] at hnodup
      exact (List.nodup_cons.mp hnodup).1
    refine .invokes _ cause loader hevents ?_ ?_ ?_
    · rw [List.filter_cons_of_pos (by simp [Event.invokes]), hquiet]
    · refine ht.pendings.symm.subset (List.mem_append_left _ ?_)
      rw [hpend]
      exact List.mem_cons_self
    · intro x hx
      rcases List.mem_append.mp (hpendings.subset hx) with hx | hx
      · exact hnew x hx
      · rintro rfl
        exact hnot (List.mem_map_of_mem hx)
  · have hkey : call'.key ≠ call.key := fun hk =>
      hsame (h.tracks.eq_of_key_eq (ht.mem_live hcall) hlive hk)
    refine .silent _ hevents ?_ fun _ => ?_
    · rw [List.filter_cons_of_neg (by simpa [Event.invokes] using hkey), hquiet]
    · rintro x rfl
      have hx : x ∉ l := fun hx => hnew x hx rfl
      have hx' : x ≠ (call', cause, loader) := fun he => hsame (he ▸ rfl)
      rw [hpendings.mem_iff, ht.pendings.mem_iff, hpend]
      simp only [List.mem_append, hx, false_or, Option.toList_some, List.mem_singleton, hx']

theorem Sound.continues_of_ends (h : m.Sound) (ht : m.Takes hand w₀)
    (hquiet : more.filter (Event.invokes call.key) = []) (hcall : hand.call = some call')
    (he : w'.events = more ++ w₀.events) (hcalls : live'.Perm w₀.calls)
    (hpendings : w'.pendings.Perm w₀.pendings) : m.Continues call w' live' := by
  refine .silent more (he.trans (by rw [ht.events])) hquiet fun hlive' => ?_
  have hne : call' ≠ call := by
    rintro rfl
    have hnodup := h.tracks.nodup
    rw [ht.live.nodup_iff, hcall] at hnodup
    exact (List.nodup_cons.mp hnodup).1 (hcalls.subset hlive')
  rintro x rfl
  rw [hpendings.mem_iff, ht.pendings.mem_iff, List.mem_append]
  refine ⟨Or.inr, fun hx => hx.resolve_left fun hx => ?_⟩
  have howned := ht.owned x (Option.mem_toList.mp hx)
  rw [hcall] at howned
  exact hne (Option.some.inj howned)

end

theorem Sound.continues_step (h : m.Sound) (move : Move V) (hlive : call ∈ m.live) :
    m.Continues call (m.step move).world (m.step move).live := by
  have hturn := m.turn_next move
  change m.Turn _ (m.step move).world (m.step move).running at hturn
  cases hturn with
  | outside ho hr =>
    obtain ⟨more, he, hsilent⟩ := ho.events
    exact .silent more he (hsilent.filter_eq_nil call.key) fun _ x _ => ho.pendings.mem_iff
  | @passes hand w₀ _ _ ht hp =>
    obtain ⟨l, more, hl, hsilent, hlogs⟩ := (hp (ht.flying h)).logs
    have hquiet := hsilent.filter_eq_nil call.key
    have hnew := h.ne_of_started ht hl hlive
    cases hlogs with
    | keeps he _ hpendings =>
      refine .silent more (he.trans (by rw [ht.events])) hquiet fun _ => ?_
      rintro x rfl
      have hx : x ∉ l := fun hx => hnew x hx rfl
      rw [hpendings.mem_iff, ht.pendings.mem_iff]
      simp only [List.mem_append, hx, false_or]
    | begins call' cause loader hcall hpend he _ hpendings =>
      exact h.continues_of_begins ht hlive hnew hquiet hcall hpend he hpendings
    | ends call' hcall he hcalls hpendings =>
      exact h.continues_of_ends ht hquiet hcall he hcalls hpendings

theorem Followed.step (hf : Followed base call cause loader m) (h : m.Sound) (move : Move V) :
    Followed base call cause loader (m.step move) := by
  by_cases hover : ∃ p, (call, p) ∈ (m.step move).ended
  · obtain ⟨p, hp⟩ := hover
    exact .ended p hp
  have halive : call ∈ m.live → call ∈ (m.step move).live := fun hlive =>
    (live_or_ended_step move hlive).resolve_right hover
  cases hf with
  | ended p hp => exact .ended p (ended_mono_step move hp)
  | pending new hevents hnone hpending hlive =>
    cases h.continues_step move hlive with
    | silent more he hquiet hiff =>
      refine .pending (more ++ new) (by rw [he, hevents, List.append_assoc]) ?_
        ((hiff (halive hlive) _ rfl).mpr hpending) (halive hlive)
      rw [List.filter_append, hquiet, hnone]
      rfl
    | invokes more cause' loader' he hone hpending' hgone =>
      have hsame := List.inj_on_of_nodup_map h.pendings_nodup hpending hpending' rfl
      cases hsame
      refine .invoked (more ++ new) (by rw [he, hevents, List.append_assoc]) ?_ hgone
        (halive hlive)
      rw [List.filter_append, hone, hnone]
      rfl
  | invoked new hevents hone hgone hlive =>
    cases h.continues_step move hlive with
    | silent more he hquiet hiff =>
      refine .invoked (more ++ new) (by rw [he, hevents, List.append_assoc]) ?_ ?_ (halive hlive)
      · rw [List.filter_append, hquiet, hone]
        rfl
      · exact fun x hx hcall => hgone x ((hiff (halive hlive) x hcall).mp hx) hcall
    | invokes more cause' loader' he _ hpending' => exact absurd rfl (hgone _ hpending')

theorem Followed.run (hf : Followed base call cause loader m) (h : m.Sound)
    (moves : List (Move V)) : Followed base call cause loader (m.run moves) := by
  induction moves generalizing m with
  | nil => exact hf
  | cons move moves ih => exact ih (hf.step h move) (h.step move)

/-- While an execution is alive, and in the move that ends it, no loader is invoked for its name but
its own, and that one once. -/
theorem Followed.invocations (hf : Followed base call cause loader m) (h : m.Sound)
    (hlive : call ∈ m.live) (move : Move V) :
    ∃ new, (m.step move).world.events = new ++ base ∧
      (new.filter (Event.invokes call.key) = [] ∨
        new.filter (Event.invokes call.key) = [.invoked call.key loader.tag cause]) := by
  cases hf with
  | ended p hp => exact absurd hlive (h.not_live_of_ended hp)
  | pending new hevents hnone hpending _ =>
    cases h.continues_step move hlive with
    | silent more he hquiet _ =>
      refine ⟨more ++ new, by rw [he, hevents, List.append_assoc], Or.inl ?_⟩
      rw [List.filter_append, hquiet, hnone]
      rfl
    | invokes more cause' loader' he hone hpending' _ =>
      have hsame := List.inj_on_of_nodup_map h.pendings_nodup hpending hpending' rfl
      cases hsame
      refine ⟨more ++ new, by rw [he, hevents, List.append_assoc], Or.inr ?_⟩
      rw [List.filter_append, hone, hnone]
      rfl
  | invoked new hevents hone hgone _ =>
    cases h.continues_step move hlive with
    | silent more he hquiet _ =>
      refine ⟨more ++ new, by rw [he, hevents, List.append_assoc], Or.inr ?_⟩
      rw [List.filter_append, hquiet, hone]
      rfl
    | invokes more cause' loader' _ _ hpending' => exact absurd rfl (hgone _ hpending')

/-- What is alive after a turn and was not before is what the turn has started. -/
theorem Takes.mem_started {hand : Hand V} {w₀ : World V} {l : List (Call × Cause × Loader V)}
    {offer : Option (String × Loader V)} (ht : m.Takes hand w₀) (hl : w₀.Started offer l)
    (hnot : call ∉ m.live) (hmem : call ∈ hand.call.toList ++ (l.map Prod.fst ++ w₀.calls)) :
    ∃ cause loader, offer = some (call.key, loader) ∧
      m.world.cache.flights.contains call.key = false ∧ (call, cause, loader) ∈ l := by
  have hl' : call ∈ l.map Prod.fst := by
    rcases List.mem_append.mp hmem with hmem | hmem
    · exact absurd (ht.live.symm.subset (List.mem_append_left _ hmem)) hnot
    · refine (List.mem_append.mp hmem).resolve_right fun hmem => hnot ?_
      exact ht.live.symm.subset (List.mem_append_right _ hmem)
  rcases hl with rfl | ⟨name, cause, loader, hoffer, hnone, rfl⟩
  · cases hl'
  · obtain rfl := List.mem_singleton.mp hl'
    exact ⟨cause, loader, hoffer, ht.cache ▸ hnone, List.mem_cons_self⟩

/-- A move that starts an execution does so for the loader that it hands to the cache. -/
theorem Sound.followed_of_started (h : m.Sound) (move : Move V) (hnot : call ∉ m.live)
    (hlive : call ∈ (m.step move).live) : ∃ cause loader,
      m.offer? move = some (call.key, loader) ∧
      Followed m.world.events call cause loader (m.step move) := by
  have hturn := m.turn_next move
  change m.Turn _ (m.step move).world (m.step move).running at hturn
  cases hturn with
  | outside ho hr =>
    rw [live, hr] at hlive
    exact absurd ((ho.calls.append_left _).subset hlive) hnot
  | @passes hand w₀ _ _ ht hp =>
    obtain ⟨l, more, hl, hsilent, hlogs⟩ := (hp (ht.flying h)).logs
    have hquiet := hsilent.filter_eq_nil call.key
    cases hlogs with
    | keeps he hlive' hpendings =>
      obtain ⟨cause, loader, hoffer, -, hmem⟩ := ht.mem_started hl hnot (hlive'.subset hlive)
      refine ⟨cause, loader, hoffer, .pending more ?_ hquiet ?_ hlive⟩
      · rw [he, ht.events]
      · exact hpendings.symm.subset (List.mem_append_right _ (List.mem_append_left _ hmem))
    | begins call' cause' loader' hcall hpend he hlive' hpendings =>
      have hmem' : call ∈ hand.call.toList ++ (l.map Prod.fst ++ w₀.calls) := by
        rw [hcall]
        exact hlive'.subset hlive
      obtain ⟨cause, loader, hoffer, hnone, hmem⟩ := ht.mem_started hl hnot hmem'
      have hkey : call'.key ≠ call.key := by
        intro hk
        have hflying := (h.tracks.contains_iff call.key).mpr ⟨call', ht.mem_live hcall, hk⟩
        rw [hnone] at hflying
        cases hflying
      refine ⟨cause, loader, hoffer,
        .pending (.invoked call'.key loader'.tag cause' :: more) ?_ ?_ ?_ hlive⟩
      · rw [he, ht.events]
        rfl
      · rw [List.filter_cons_of_neg (by simpa [Event.invokes] using hkey), hquiet]
      · exact hpendings.symm.subset (List.mem_append_left _ hmem)
    | ends call' hcall he hcalls hpendings =>
      refine absurd (ht.live.symm.subset (List.mem_append_right _ ?_)) hnot
      exact hcalls.subset hlive

end Moment

end Stockroom.Cache
