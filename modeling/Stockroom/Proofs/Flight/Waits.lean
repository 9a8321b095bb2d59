import Stockroom.Proofs.Flight.Sound

/-! How a wait goes on: it keeps what it was told, and once every wait has looked they are all at
rest. -/

namespace Stockroom.Flight
set_option autoImplicit false

variable {V : Type}

/-- A later state of a wait: it waits for the same, and keeps a result that it has. -/
def Wait.Becomes (w v : Wait V) : Prop :=
  v.key = w.key ∧ v.slot = w.slot ∧ v.token = w.token ∧ (w.result.isSome = true → v = w)

theorem Wait.becomes_refl (w : Wait V) : w.Becomes w := ⟨rfl, rfl, rfl, fun _ => rfl⟩

theorem Wait.Becomes.trans {u v w : Wait V} (huv : u.Becomes v) (hvw : v.Becomes w) :
    u.Becomes w := by
  obtain ⟨hkey, hslot, htoken, hkeep⟩ := huv
  obtain ⟨hkey', hslot', htoken', hkeep'⟩ := hvw
  refine ⟨hkey'.trans hkey, hslot'.trans hslot, htoken'.trans htoken, fun hsome => ?_⟩
  have hv := hkeep hsome
  rw [hkeep' (hv ▸ hsome), hv]

theorem Wait.becomes_poll (w : Wait V) (registry : Registry V) (fired : List String)
    (tokenFirst : Bool) : w.Becomes (w.poll registry fired tokenFirst) := by
  cases hr : w.result with
  | some o =>
    rw [poll_of_result hr]
    exact w.becomes_refl
  | none =>
    rw [poll_of_unfinished hr]
    refine ⟨rfl, rfl, rfl, fun hsome => ?_⟩
    rw [hr] at hsome
    cases hsome

/-- A request starts waits, at most, and finishes none. -/
theorem Session.waits_perform (s : Session V) (request : Request V) :
    ∃ started, (s.perform request).2.waits = s.waits ++ started := by
  cases request with
  | join key name =>
    cases hc : s.registry.calls.get? key with
    | none =>
      refine ⟨[], ?_⟩
      rw [perform_join_leader hc, List.append_nil]
      exact (s.lead_rest key name).2.1
    | some slot => exact ⟨[], by rw [perform_join_follower hc, List.append_nil]⟩
  | tryLead key name =>
    cases hc : s.registry.calls.get? key with
    | none =>
      refine ⟨[], ?_⟩
      rw [perform_tryLead_some hc, List.append_nil]
      exact (s.lead_rest key name).2.1
    | some slot => exact ⟨[], by rw [perform_tryLead_none hc, List.append_nil]⟩
  | complete name outcome =>
    refine ⟨[], ?_⟩
    simp only [perform, List.append_nil]
    split <;> rfl
  | drop name => exact ⟨[], by rw [List.append_nil]; exact (s.dropCall_rest name).2.1⟩
  | wait name token =>
    simp only [perform]
    split
    · exact ⟨_, rfl⟩
    · exact ⟨[], (List.append_nil _).symm⟩
  | cancel token => exact ⟨[], (List.append_nil _).symm⟩
  | contains key => exact ⟨[], (List.append_nil _).symm⟩

namespace History

variable {h : History V}

theorem waits_step {id : Nat} {w : Wait V} (hw : h.session.waits[id]? = some w) (move : Move V) :
    ∃ v, (h.step move).session.waits[id]? = some v ∧ w.Becomes v := by
  cases move with
  | perform request =>
    obtain ⟨started, hwaits⟩ := h.session.waits_perform request
    refine ⟨w, ?_, w.becomes_refl⟩
    have hlt := (List.getElem?_eq_some_iff.mp hw).1
    rw [step, hwaits, List.getElem?_append_left hlt, hw]
  | poll j tokenFirst =>
    simp only [step, Session.poll, List.getElem?_modify, hw, Option.map_eq_map, Option.map_some]
    split
    · exact ⟨_, rfl, w.becomes_poll _ _ _⟩
    · exact ⟨w, rfl, w.becomes_refl⟩

theorem waits_run {id : Nat} {w : Wait V} (hw : h.session.waits[id]? = some w)
    (moves : List (Move V)) :
    ∃ v, (h.run moves).session.waits[id]? = some v ∧ w.Becomes v := by
  induction moves generalizing h w with
  | nil => exact ⟨w, hw, w.becomes_refl⟩
  | cons move rest ih =>
    obtain ⟨u, hu, hwu⟩ := waits_step hw move
    obtain ⟨v, hv, huv⟩ := ih hu
    exact ⟨v, hv, hwu.trans huv⟩

end History

/-! ### States in which every wait is at rest -/

/-- A second look, at the same slot and the same tokens, tells a wait nothing new. -/
theorem Wait.poll_poll (w : Wait V) (registry : Registry V) (fired : List String)
    (tokenFirst : Bool) : (w.poll registry fired false).poll registry fired tokenFirst =
      w.poll registry fired false := by
  cases hr : w.result with
  | some o => rw [poll_of_result hr, poll_of_result hr]
  | none =>
    rw [poll_of_unfinished hr]
    cases ha : (registry.progress w.slot).answer w.key (w.isCancelled fired) false with
    | some o => exact poll_of_result rfl
    | none =>
      have hnone : (registry.progress w.slot).answer w.key (w.isCancelled fired) tokenFirst =
          none :=
        Progress.answer_eq_none_iff.mpr (Progress.answer_eq_none_iff.mp ha)
      rw [poll_of_unfinished rfl]
      exact congrArg (fun o => { w with result := o }) hnone

theorem Session.atRest_settle (s : Session V) (id : Nat) : s.settle.AtRest id := by
  intro tokenFirst
  have hwaits : s.settle.waits.modify id (Wait.poll s.registry s.fired tokenFirst) =
      s.settle.waits := by
    apply List.ext_getElem?
    intro j
    rw [List.getElem?_modify, settle, List.getElem?_map]
    cases s.waits[j]? with
    | none => rfl
    | some w =>
      simp only [Option.map_eq_map, Option.map_some, Option.some.injEq]
      split
      · rw [Wait.poll_poll]
      · rfl
  rw [poll]
  exact congrArg (fun waits => { s.settle with waits := waits }) hwaits

/-- The same history but for its waits. -/
def History.withWaits (h : History V) (waits : List (Wait V)) : History V :=
  { h with session := { h.session with waits := waits } }

/-- The first `n` waits have looked, one after the other. -/
theorem History.run_polls (h : History V) (n : Nat) :
    h.run ((List.range n).map fun id => .poll id false) =
      h.withWaits (h.session.waits.mapIdx fun id w =>
        if id < n then w.poll h.session.registry h.session.fired false else w) := by
  induction n with
  | zero =>
    have hid : (h.session.waits.mapIdx fun id w =>
        if id < 0 then w.poll h.session.registry h.session.fired false else w) =
        h.session.waits := by
      apply List.ext_getElem?
      intro j
      rw [List.getElem?_mapIdx]
      cases h.session.waits[j]? <;> rfl
    rw [hid]
    rfl
  | succ n ih =>
    rw [run] at ih
    rw [List.range_succ, List.map_append, run, List.foldl_append, ih]
    apply congrArg h.withWaits
    apply List.ext_getElem?
    intro j
    simp only [withWaits, List.getElem?_modify, List.getElem?_mapIdx]
    cases h.session.waits[j]? with
    | none => rfl
    | some w =>
      by_cases hj : n = j
      · subst j
        simp
      · have hlt : j < n + 1 ↔ j < n := by omega
        simp [hj, hlt]

/-- To settle is to let every wait look once. -/
theorem History.run_settle (h : History V) :
    h.run ((List.range h.session.waits.length).map fun id => .poll id false) =
      { h with session := h.session.settle } := by
  rw [run_polls]
  apply congrArg h.withWaits
  apply List.ext_getElem?
  intro j
  rw [List.getElem?_mapIdx, List.getElem?_map]
  cases hj : h.session.waits[j]? with
  | none => rfl
  | some w =>
    have hlt := (List.getElem?_eq_some_iff.mp hj).1
    simp [hlt]

end Stockroom.Flight
