import Stockroom.Proofs.Flight.Waits

/-! Agreement of a registry with the calls that are alive, and of the waits with how the calls they
wait for have ended, in every history of a session. -/

namespace Stockroom.Flight
set_option autoImplicit false

variable {V : Type}

/-- The registry agrees with the calls that are alive: each key has at most one, and whoever joins
gets its slot. -/
structure Session.Agrees (s : Session V) : Prop where
  one_call : (s.alive.map Call.key).Nodup
  contains_iff : ∀ key, s.registry.contains key = true ↔ ∃ call ∈ s.alive, call.key = key
  join_iff : ∀ key name, (s.perform (.join key name)).1 = .leader ↔
    ¬ ∃ call ∈ s.alive, call.key = key
  tryLead_iff : ∀ key name, (s.perform (.tryLead key name)).1 = .told true ↔
    ¬ ∃ call ∈ s.alive, call.key = key
  joined : ∀ key name, ∃ call ∈ (s.perform (.join key name)).2.alive, call.key = key ∧
    (s.perform (.join key name)).2.slots.get? name = some (key, call.slot)

/-- What a wait has been told when it is at rest: how its call has ended, if it has, or that its
token has fired. -/
structure History.Tells (h : History V) (w : Wait V) : Prop where
  known : (∃ call ∈ h.session.alive, call.slot = w.slot) ∨ ∃ e, (w.slot, e) ∈ h.endings
  of_alive : ∀ call ∈ h.session.alive, call.slot = w.slot →
    w.result = if w.isCancelled h.session.fired then some (.error (.cancelled w.key)) else none
  of_ended : ∀ e, (w.slot, e) ∈ h.endings → w.result = some (e.answer w.key) ∨
    (w.isCancelled h.session.fired = true ∧ w.result = some (.error (.cancelled w.key)))

namespace History.Sound

variable {h : History V}

theorem agrees (hs : h.Sound) : h.session.Agrees where
  one_call := hs.records.keys_nodup
  contains_iff := hs.records.contains_iff
  join_iff key name := by
    rw [← Session.isAlive_iff]
    cases hc : h.session.registry.calls.get? key with
    | none => simp [Session.perform_join_leader hc, hs.isAlive_of_get? hc]
    | some slot => simp [Session.perform_join_follower hc, hs.isAlive_of_get? hc]
  tryLead_iff key name := by
    rw [← Session.isAlive_iff]
    cases hc : h.session.registry.calls.get? key with
    | none => simp [Session.perform_tryLead_some hc, hs.isAlive_of_get? hc]
    | some slot => simp [Session.perform_tryLead_none hc, hs.isAlive_of_get? hc]
  joined key name := by
    cases hc : h.session.registry.calls.get? key with
    | none =>
      rw [Session.perform_join_leader hc]
      refine ⟨(h.session.registry.register key).1, ?_, rfl, Table.get?_insert_self _ _ _⟩
      rw [Session.alive, Session.lead, Session.hold, Table.values_insert]
      exact List.mem_append_right _ List.mem_cons_self
    | some slot =>
      rw [Session.perform_join_follower hc]
      exact ⟨⟨key, slot⟩, (hs.records.get?_iff key slot).mp hc, rfl, Table.get?_insert_self _ _ _⟩

theorem tells (hs : h.Sound) {id : Nat} {w : Wait V} (hw : h.session.waits[id]? = some w)
    (hr : h.session.AtRest id) : h.Tells w where
  known := hs.records.known w.slot (hs.waits_lt w (List.mem_of_getElem? hw))
  of_alive _ hc he := hs.result_of_alive hw hr hc he
  of_ended _ he := hs.result_of_ended hw hr he

end History.Sound

/-- Whatever happens in a session, in whatever order, the registry agrees with the calls that are
alive, and a wait that is at rest knows what its call has come to. -/
theorem History.agrees_and_tells (moves : List (Move V)) :
    let h := ({} : History V).run moves
    h.session.Agrees ∧
      (∀ id w, h.session.waits[id]? = some w → h.session.AtRest id → h.Tells w ∧
        ∀ later, ∃ v, (h.run later).session.waits[id]? = some v ∧ w.Becomes v) ∧
      ∀ request, ∃ later, (h.run later).session = (h.session.handle request).2 ∧
        ∀ id, (h.run later).session.AtRest id := by
  intro h
  have hs : h.Sound := Sound.empty.run moves
  refine ⟨hs.agrees, ?_, ?_⟩
  · intro id w hw hr
    exact ⟨hs.tells hw hr, waits_run hw⟩
  · intro request
    have hrun := run_settle (h.step (.perform request))
    refine ⟨.perform request :: _, congrArg History.session hrun, ?_⟩
    intro id
    exact (congrArg History.session hrun) ▸ Session.atRest_settle _ id

/-- A call is dropped, and only then does somebody wait on its slot. -/
def lateWait : List (Move Nat) :=
  [.perform (.join "key" "call"), .perform (.drop "call"), .perform (.wait "call" (some "token")),
    .poll 0 false]

theorem History.agrees_and_tells_late_wait :
    ∃ v, ((({} : History Nat).run lateWait).run
        [.perform (.cancel "token"), .poll 0 true]).session.waits[0]? = some v ∧
      v.result = some (.error (.loadAbandoned "key")) := by
  obtain ⟨-, htells, -⟩ := History.agrees_and_tells lateWait
  obtain ⟨-, hlater⟩ := htells 0 _ rfl fun _ => rfl
  obtain ⟨v, hv, -, -, -, hkeep⟩ := hlater [.perform (.cancel "token"), .poll 0 true]
  exact ⟨v, hv, hkeep rfl ▸ rfl⟩

end Stockroom.Flight
