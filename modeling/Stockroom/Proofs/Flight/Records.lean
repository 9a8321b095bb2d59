import Stockroom.Flight.History
import Stockroom.Proofs.Flight.Tracks

/-! Sessions whose registry knows the calls that are held, and whose settled slots show how their
calls ended. Both survive every request and every look of a wait. -/

namespace Stockroom.Flight
set_option autoImplicit false

variable {V : Type}

/-- What the slot of a call shows that ended so. -/
def Ending.progress : Ending V → Progress V
  | completed outcome => .published outcome
  | dropped => .abandoned

theorem Ending.progress_ne_running (e : Ending V) : e.progress ≠ .running := by
  cases e <;> simp [progress]

theorem Ending.progress_inj {e f : Ending V} (h : e.progress = f.progress) : e = f := by
  cases e <;> cases f <;> simp_all [progress]

/-- The registry knows the calls that are alive; every other slot belongs to a call that has
ended, and it shows how. -/
structure Records (r : Registry V) (alive : List Call) (endings : List (Nat × Ending V)) : Prop
    extends r.Tracks alive where
  shows : ∀ slot e, (slot, e) ∈ endings → slot < r.slots.length ∧ r.progress slot = e.progress
  known : ∀ slot < r.slots.length, (∃ call ∈ alive, call.slot = slot) ∨ ∃ e, (slot, e) ∈ endings

namespace Records

variable {r : Registry V} {alive : List Call} {endings : List (Nat × Ending V)}

protected theorem empty : Records ({} : Registry V) [] [] where
  toTracks := .empty
  shows := by simp
  known := by simp

theorem perm {other : List Call} (h : Records r alive endings) (hp : alive.Perm other) :
    Records r other endings where
  toTracks := h.toTracks.perm hp
  shows := h.shows
  known slot hlt := (h.known slot hlt).imp_left fun ⟨call, hc, e⟩ => ⟨call, hp.mem_iff.mp hc, e⟩

/-- A call that is alive has not ended. -/
theorem not_mem_endings (h : Records r alive endings) {call : Call} (hc : call ∈ alive)
    (e : Ending V) : (call.slot, e) ∉ endings := by
  intro he
  have hrun := (h.running_iff call.slot).mpr ⟨call, hc, rfl⟩
  exact e.progress_ne_running ((h.shows _ e he).2.symm.trans hrun)

theorem register (h : Records r alive endings) {key : String} (hk : r.contains key = false) :
    Records (r.register key).2 ((r.register key).1 :: alive) endings := by
  have hlength : (r.register key).2.slots.length = r.slots.length + 1 := by
    simp [Registry.register]
  refine ⟨h.toTracks.register hk, ?_, ?_⟩
  · intro slot e he
    obtain ⟨hlt, hp⟩ := h.shows slot e he
    rw [Registry.progress_register_eq, if_neg (Nat.ne_of_lt hlt)]
    exact ⟨by omega, hp⟩
  · intro slot hlt
    by_cases he : slot = r.slots.length
    · exact Or.inl ⟨_, List.mem_cons_self, he.symm⟩
    · rcases h.known slot (by omega) with ⟨call, hc, e⟩ | hend
      · exact Or.inl ⟨call, List.mem_cons_of_mem _ hc, e⟩
      · exact Or.inr hend

/-- A call ends: it is alive no more, and its slot shows how it ended. -/
theorem settle {call : Call} (h : Records r (call :: alive) endings) (e : Ending V) :
    Records (r.settle call e.progress) alive ((call.slot, e) :: endings) := by
  have hlength : (r.settle call e.progress).slots.length = r.slots.length := by
    simp [Registry.settle]
  refine ⟨h.toTracks.settle e.progress_ne_running, ?_, ?_⟩
  · intro slot f hf
    rw [hlength, Registry.progress_settle_eq]
    rcases List.mem_cons.mp hf with hf | hf
    · cases hf
      have hlt := h.slot_lt List.mem_cons_self
      exact ⟨hlt, if_pos ⟨rfl, hlt⟩⟩
    · obtain ⟨hlt, hp⟩ := h.shows slot f hf
      rw [if_neg]
      · exact ⟨hlt, hp⟩
      · rintro ⟨rfl, _⟩
        exact h.not_mem_endings List.mem_cons_self f hf
  · intro slot hlt
    rw [hlength] at hlt
    rcases h.known slot hlt with ⟨other, ho, rfl⟩ | ⟨f, hf⟩
    · rcases List.mem_cons.mp ho with rfl | ho
      · exact Or.inr ⟨e, List.mem_cons_self⟩
      · exact Or.inl ⟨other, ho, rfl⟩
    · exact Or.inr ⟨f, List.mem_cons_of_mem _ hf⟩

end Records

/-! ### Calls under names -/

namespace Session

variable {s : Session V} {endings : List (Nat × Ending V)}

/-- The call held under a name ends, and the name is free. -/
theorem records_release (others : List Call) {name : String} {call : Call} (e : Ending V)
    (hc : s.calls.get? name = some call)
    (h : Records s.registry (others ++ s.calls.values) endings) :
    Records (s.registry.settle call e.progress) (others ++ (s.calls.erase name).values)
      (s.release name e ++ endings) := by
  have hp : (others ++ s.calls.values).Perm (call :: (others ++ (s.calls.erase name).values)) :=
    ((Table.values_perm_of_get? hc).append_left others).trans List.perm_middle
  rw [release, hc]
  exact (h.perm hp).settle e

theorem release_eq_nil {name : String} (hc : s.calls.get? name = none) (e : Ending V) :
    s.release name e = [] := by
  rw [release, hc]
  rfl

theorem records_dropCall (name : String) (h : Records s.registry s.alive endings) :
    Records (s.dropCall name).2.registry (s.dropCall name).2.alive
      (s.release name .dropped ++ endings) := by
  unfold dropCall
  cases hc : s.calls.get? name with
  | none => rwa [release_eq_nil hc]
  | some call => exact records_release [] .dropped hc h

/-- A new call is held under a name: the one that was there is dropped after the new one has been
registered. -/
theorem records_hold (name : String) {call : Call}
    (h : Records s.registry (call :: s.calls.values) endings) :
    Records (s.hold name call).registry (s.hold name call).alive
      (s.release name .dropped ++ endings) := by
  unfold hold dropCall alive
  cases hc : s.calls.get? name with
  | none =>
    rw [release_eq_nil hc]
    dsimp only
    rw [Table.values_insert, Table.erase_of_get?_eq_none hc]
    exact h.perm (List.perm_append_singleton call s.calls.values).symm
  | some old =>
    have hd := records_release [call] .dropped hc h
    dsimp only
    rw [Table.values_insert, Table.erase_of_get?_eq_none (Table.get?_erase_self _ _)]
    exact hd.perm (List.perm_append_singleton call _).symm

end Session

/-! ### Histories -/

/-- What holds in every history: the registry records the calls, no wait looks at a slot that was
never opened, and whatever a wait was told is what its call ended with or that it was cancelled. -/
structure History.Sound (h : History V) : Prop where
  records : Records h.session.registry h.session.alive h.endings
  slots_lt : ∀ name key slot, h.session.slots.get? name = some (key, slot) →
    slot < h.session.registry.slots.length
  waits_lt : ∀ w ∈ h.session.waits, w.slot < h.session.registry.slots.length
  results : ∀ w ∈ h.session.waits, ∀ o, w.result = some o →
    (w.isCancelled h.session.fired = true ∧ o = .error (.cancelled w.key)) ∨
      ∃ e, (w.slot, e) ∈ h.endings ∧ o = e.answer w.key

end Stockroom.Flight
