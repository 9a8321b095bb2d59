import Stockroom.Proofs.Flight.Records

/-! What the calls of a history are and how they have ended stays on record whatever happens, and
each wait that has a result was told it truly. -/

namespace Stockroom.Flight
set_option autoImplicit false

variable {V : Type}

namespace Session

variable {s : Session V}

theorem length_slots_dropCall (s : Session V) (name : String) :
    (s.dropCall name).2.registry.slots.length = s.registry.slots.length := by
  unfold dropCall
  split
  · simp [Registry.abandon, Registry.settle]
  · rfl

/-- Dropping a call touches nothing but the registry and the calls. -/
theorem dropCall_rest (s : Session V) (name : String) :
    (s.dropCall name).2.slots = s.slots ∧ (s.dropCall name).2.waits = s.waits ∧
      (s.dropCall name).2.fired = s.fired := by
  unfold dropCall
  split <;> exact ⟨rfl, rfl, rfl⟩

/-- A new call for a key, held under a name. -/
def lead (s : Session V) (key name : String) : Session V :=
  Session.hold { s with registry := (s.registry.register key).2 } name (s.registry.register key).1

theorem lead_rest (s : Session V) (key name : String) :
    (s.lead key name).slots = s.slots ∧ (s.lead key name).waits = s.waits ∧
      (s.lead key name).fired = s.fired :=
  dropCall_rest { s with registry := (s.registry.register key).2 } name

theorem length_slots_lead (s : Session V) (key name : String) :
    (s.lead key name).registry.slots.length = s.registry.slots.length + 1 := by
  rw [lead, hold, length_slots_dropCall]
  simp [Registry.register]

theorem perform_join_leader {key : String} (hk : s.registry.calls.get? key = none)
    (name : String) : s.perform (.join key name) = (.leader, { s.lead key name with
      slots := (s.lead key name).slots.insert name (key, s.registry.slots.length) }) := by
  simp only [perform, Registry.join, hk]
  rfl

theorem perform_join_follower {key : String} {slot : Nat}
    (hk : s.registry.calls.get? key = some slot) (name : String) :
    s.perform (.join key name) =
      (.follower, { s with slots := s.slots.insert name (key, slot) }) := by
  simp only [perform, Registry.join, hk]

theorem perform_tryLead_some {key : String} (hk : s.registry.calls.get? key = none)
    (name : String) : s.perform (.tryLead key name) = (.told true, s.lead key name) := by
  simp only [perform, Registry.tryLead, hk]
  rfl

theorem perform_tryLead_none {key : String} {slot : Nat}
    (hk : s.registry.calls.get? key = some slot) (name : String) :
    s.perform (.tryLead key name) = (.told false, s) := by
  simp only [perform, Registry.tryLead, hk]

theorem isAlive_iff (s : Session V) (key : String) :
    s.isAlive key = true ↔ ∃ call ∈ s.alive, call.key = key := by
  simp [isAlive]

end Session

theorem Wait.isCancelled_mono {w : Wait V} {fired fired' : List String}
    (hf : ∀ t ∈ fired, t ∈ fired') (h : w.isCancelled fired = true) :
    w.isCancelled fired' = true := by
  unfold isCancelled at *
  rw [Option.any_eq_true] at *
  obtain ⟨t, ht, hm⟩ := h
  exact ⟨t, ht, by simpa using hf t (by simpa using hm)⟩

namespace Wait

variable {registry : Registry V} {fired : List String} {tokenFirst : Bool} {w : Wait V}

theorem poll_of_result {o : Outcome V} (h : w.result = some o) :
    w.poll registry fired tokenFirst = w := by
  unfold poll
  rw [h]

theorem poll_of_unfinished (h : w.result = none) :
    w.poll registry fired tokenFirst = { w with
      result := (registry.progress w.slot).answer w.key (w.isCancelled fired) tokenFirst } := by
  unfold poll
  rw [h]

theorem slot_poll : (w.poll registry fired tokenFirst).slot = w.slot := by
  unfold poll
  split <;> rfl

end Wait

namespace History

variable {h : History V}

namespace Sound

protected theorem empty : Sound ({} : History V) where
  records := .empty
  slots_lt := by simp
  waits_lt := by simp
  results := by simp

theorem contains_eq (hs : h.Sound) (key : String) :
    h.session.registry.contains key = h.session.isAlive key := by
  rw [Bool.eq_iff_iff, hs.records.contains_iff, Session.isAlive_iff]

/-- A history in which slots were opened, calls ended and tokens fired, and in which the waits are
the same. -/
theorem grow (hs : h.Sound) {h' : History V}
    (hr : Records h'.session.registry h'.session.alive h'.endings)
    (hl : h.session.registry.slots.length ≤ h'.session.registry.slots.length)
    (he : ∀ x ∈ h.endings, x ∈ h'.endings) (hf : ∀ t ∈ h.session.fired, t ∈ h'.session.fired)
    (hw : h'.session.waits = h.session.waits)
    (hn : ∀ name key slot, h'.session.slots.get? name = some (key, slot) →
      slot < h'.session.registry.slots.length) : h'.Sound where
  records := hr
  slots_lt := hn
  waits_lt w hm := Nat.lt_of_lt_of_le (hs.waits_lt w (hw ▸ hm)) hl
  results w hm o ho := by
    rcases hs.results w (hw ▸ hm) o ho with ⟨hc, rfl⟩ | ⟨e, hm, rfl⟩
    · exact Or.inl ⟨Wait.isCancelled_mono hf hc, rfl⟩
    · exact Or.inr ⟨e, he _ hm, rfl⟩

theorem perform_drop (hs : h.Sound) (name : String) : (h.step (.perform (.drop name))).Sound := by
  obtain ⟨hslots, hwaits, hfired⟩ := h.session.dropCall_rest name
  have hlength := h.session.length_slots_dropCall name
  apply hs.grow
  · exact Session.records_dropCall name hs.records
  · exact Nat.le_of_eq hlength.symm
  · exact fun x hx => List.mem_append_right _ hx
  · exact fun t ht => hfired.symm ▸ ht
  · exact hwaits
  · intro n key slot hn
    exact Nat.lt_of_lt_of_eq (hs.slots_lt n key slot (hslots ▸ hn)) hlength.symm

theorem perform_complete (hs : h.Sound) (name : String) (outcome : Outcome V) :
    (h.step (.perform (.complete name outcome))).Sound := by
  simp only [step, Session.perform, Request.endings]
  cases hc : h.session.calls.get? name with
  | none =>
    rw [Session.release_eq_nil hc]
    exact hs
  | some call =>
    have hlength : (h.session.registry.complete call outcome).slots.length =
        h.session.registry.slots.length := by simp [Registry.complete, Registry.settle]
    apply hs.grow
    · exact Session.records_release [] (.completed outcome) hc hs.records
    · exact Nat.le_of_eq hlength.symm
    · exact fun x hx => List.mem_append_right _ hx
    · exact fun t ht => ht
    · rfl
    · intro n key slot hn
      exact Nat.lt_of_lt_of_eq (hs.slots_lt n key slot hn) hlength.symm

/-- A new call is held under a name, and perhaps its slot too. -/
theorem lead (hs : h.Sound) {key : String} (hk : h.session.isAlive key = false)
    (name : String) (slots : Table String (String × Nat))
    (hn : ∀ n k slot, slots.get? n = some (k, slot) →
      slot < h.session.registry.slots.length + 1) :
    Sound {
      session := { h.session.lead key name with slots := slots }
      endings := h.session.release name .dropped ++ h.endings } := by
  have hlength := h.session.length_slots_lead key name
  obtain ⟨_, hwaits, hfired⟩ := h.session.lead_rest key name
  apply hs.grow
  · exact Session.records_hold name (hs.records.register (hs.contains_eq key ▸ hk))
  · exact Nat.le_of_lt (Nat.lt_of_lt_of_eq (Nat.lt_succ_self _) hlength.symm)
  · exact fun x hx => List.mem_append_right _ hx
  · exact fun t ht => hfired.symm ▸ ht
  · exact hwaits
  · intro n k slot hslot
    exact Nat.lt_of_lt_of_eq (hn n k slot hslot) hlength.symm

/-- Keeping a slot under a name. -/
theorem slots_insert_lt (hs : h.Sound) {bound slot : Nat} (name key : String)
    (hb : h.session.registry.slots.length ≤ bound) (hslot : slot < bound) (n k : String)
    (i : Nat) (hi : (h.session.slots.insert name (key, slot)).get? n = some (k, i)) :
    i < bound := by
  rw [Table.get?_insert] at hi
  split at hi
  · cases hi
    exact hslot
  · exact Nat.lt_of_lt_of_le (hs.slots_lt n k i hi) hb

theorem isAlive_of_get? (hs : h.Sound) {key : String} {o : Option Nat}
    (hc : h.session.registry.calls.get? key = o) : h.session.isAlive key = o.isSome := by
  rw [← hs.contains_eq, Registry.contains, Table.contains, hc]

theorem perform_join (hs : h.Sound) (key name : String) :
    (h.step (.perform (.join key name))).Sound := by
  simp only [History.step, Request.endings]
  cases hc : h.session.registry.calls.get? key with
  | none =>
    have hk := hs.isAlive_of_get? hc
    rw [Session.perform_join_leader hc, hk, (h.session.lead_rest key name).1]
    apply hs.lead hk name
    exact hs.slots_insert_lt name key (Nat.le_succ _) (Nat.lt_succ_self _)
  | some slot =>
    have hlt := hs.records.slot_lt ((hs.records.get?_iff key slot).mp hc)
    rw [Session.perform_join_follower hc, hs.isAlive_of_get? hc]
    apply hs.grow
    · exact hs.records
    · exact Nat.le_refl _
    · exact fun x hx => hx
    · exact fun t ht => ht
    · rfl
    · exact hs.slots_insert_lt name key (Nat.le_refl _) hlt

theorem perform_tryLead (hs : h.Sound) (key name : String) :
    (h.step (.perform (.tryLead key name))).Sound := by
  simp only [History.step, Request.endings]
  cases hc : h.session.registry.calls.get? key with
  | none =>
    have hk := hs.isAlive_of_get? hc
    rw [Session.perform_tryLead_some hc, hk]
    apply hs.lead hk name (h.session.lead key name).slots
    intro n k slot hn
    rw [(h.session.lead_rest key name).1] at hn
    exact Nat.lt_succ_of_lt (hs.slots_lt n k slot hn)
  | some slot =>
    rw [Session.perform_tryLead_none hc, hs.isAlive_of_get? hc]
    exact hs

theorem perform_wait (hs : h.Sound) (name : String) (token : Option String) :
    (h.step (.perform (.wait name token))).Sound := by
  simp only [step, Session.perform, Request.endings]
  cases hn : h.session.slots.get? name with
  | none => exact hs
  | some row =>
    obtain ⟨key, slot⟩ := row
    refine ⟨hs.records, hs.slots_lt, ?_, ?_⟩
    · intro w hw
      rcases List.mem_append.mp hw with hw | hw
      · exact hs.waits_lt w hw
      · rw [List.mem_singleton.mp hw]
        exact hs.slots_lt name key slot hn
    · intro w hw o ho
      rcases List.mem_append.mp hw with hw | hw
      · exact hs.results w hw o ho
      · rw [List.mem_singleton.mp hw] at ho
        cases ho

/-- What a wait is told when it looks is how its call has ended, or that it was cancelled. -/
theorem answer_of_slot (hs : h.Sound) {w : Wait V} (hw : w ∈ h.session.waits)
    {tokenFirst : Bool} {o : Outcome V}
    (ho : (h.session.registry.progress w.slot).answer w.key
      (w.isCancelled h.session.fired) tokenFirst = some o) :
    (w.isCancelled h.session.fired = true ∧ o = .error (.cancelled w.key)) ∨
      ∃ e, (w.slot, e) ∈ h.endings ∧ o = e.answer w.key := by
  unfold Progress.answer at ho
  split at ho
  · rename_i hc
    cases ho
    exact Or.inl ⟨(Bool.and_eq_true _ _ ▸ hc).2, rfl⟩
  · rcases hs.records.known w.slot (hs.waits_lt w hw) with ⟨call, hc, he⟩ | ⟨e, he⟩
    · rw [(hs.records.running_iff w.slot).mpr ⟨call, hc, he⟩] at ho
      dsimp only at ho
      split at ho
      · cases ho
        exact Or.inl ⟨‹_›, rfl⟩
      · cases ho
    · refine Or.inr ⟨e, he, ?_⟩
      rw [(hs.records.shows w.slot e he).2] at ho
      cases e <;> exact (Option.some.inj ho).symm

theorem poll (hs : h.Sound) (id : Nat) (tokenFirst : Bool) :
    (h.step (.poll id tokenFirst)).Sound := by
  have hmem : ∀ w ∈ (h.session.poll id tokenFirst).waits, w ∈ h.session.waits ∨
      ∃ v ∈ h.session.waits, w = v.poll h.session.registry h.session.fired tokenFirst := by
    intro w hw
    obtain ⟨i, hi⟩ := List.mem_iff_getElem?.mp hw
    rw [Session.poll, List.getElem?_modify] at hi
    obtain ⟨v, hv, he⟩ := Option.map_eq_some_iff.mp hi
    have hv := List.mem_of_getElem? hv
    split at he
    · exact Or.inr ⟨v, hv, he.symm⟩
    · exact Or.inl (he ▸ hv)
  refine ⟨hs.records, hs.slots_lt, ?_, ?_⟩
  · intro w hw
    rcases hmem w hw with hw | ⟨v, hv, rfl⟩
    · exact hs.waits_lt w hw
    · rw [Wait.slot_poll]
      exact hs.waits_lt v hv
  · intro w hw o ho
    rcases hmem w hw with hw | ⟨v, hv, rfl⟩
    · exact hs.results w hw o ho
    · cases hr : v.result with
      | some o' =>
        rw [Wait.poll_of_result hr] at ho ⊢
        exact hs.results v hv o ho
      | none =>
        rw [Wait.poll_of_unfinished hr] at ho ⊢
        exact hs.answer_of_slot hv ho

theorem step (hs : h.Sound) (move : Move V) : (h.step move).Sound := by
  cases move with
  | poll id tokenFirst => exact hs.poll id tokenFirst
  | perform request =>
    cases request with
    | join key name => exact hs.perform_join key name
    | tryLead key name => exact hs.perform_tryLead key name
    | complete name outcome => exact hs.perform_complete name outcome
    | drop name => exact hs.perform_drop name
    | wait name token => exact hs.perform_wait name token
    | cancel token =>
      exact hs.grow hs.records (Nat.le_refl _) (fun x hx => hx)
        (fun t ht => List.mem_append_left _ ht) rfl hs.slots_lt
    | contains key => exact hs

theorem run (hs : h.Sound) (moves : List (Move V)) : (h.run moves).Sound := by
  induction moves generalizing h with
  | nil => exact hs
  | cons move rest ih => exact ih (hs.step move)

/-- A wait that is at rest and has no result has nothing to be told. -/
theorem answer_eq_none_of_atRest {id : Nat} {w : Wait V}
    (hw : h.session.waits[id]? = some w) (hr : h.session.AtRest id) (hn : w.result = none)
    (tokenFirst : Bool) : (h.session.registry.progress w.slot).answer w.key
      (w.isCancelled h.session.fired) tokenFirst = none := by
  have he := congrArg (fun s => s.waits[id]?) (hr tokenFirst)
  simp only [Session.poll, List.getElem?_modify_eq, hw] at he
  have hpoll := Option.some.inj he
  rw [Wait.poll_of_unfinished hn] at hpoll
  exact (congrArg Wait.result hpoll).trans hn

theorem result_of_alive (hs : h.Sound) {id : Nat} {w : Wait V}
    (hw : h.session.waits[id]? = some w) (hr : h.session.AtRest id) {call : Call}
    (hc : call ∈ h.session.alive) (he : call.slot = w.slot) :
    w.result =
      if w.isCancelled h.session.fired then some (.error (.cancelled w.key)) else none := by
  have hrun := (hs.records.running_iff w.slot).mpr ⟨call, hc, he⟩
  cases hres : w.result with
  | none =>
    have hnone := answer_eq_none_of_atRest hw hr hres false
    rw [hrun] at hnone
    exact hnone.symm
  | some o =>
    rcases hs.results w (List.mem_of_getElem? hw) o hres with ⟨hcancel, rfl⟩ | ⟨e, hm, _⟩
    · rw [if_pos hcancel]
    · rw [← he] at hm
      exact absurd hm (hs.records.not_mem_endings hc e)

theorem result_of_ended (hs : h.Sound) {id : Nat} {w : Wait V}
    (hw : h.session.waits[id]? = some w) (hr : h.session.AtRest id) {e : Ending V}
    (he : (w.slot, e) ∈ h.endings) :
    w.result = some (e.answer w.key) ∨
      (w.isCancelled h.session.fired = true ∧ w.result = some (.error (.cancelled w.key))) := by
  have hshow := (hs.records.shows w.slot e he).2
  cases hres : w.result with
  | none =>
    have hnone := answer_eq_none_of_atRest hw hr hres false
    rw [hshow] at hnone
    cases e <;> cases hnone
  | some o =>
    rcases hs.results w (List.mem_of_getElem? hw) o hres with ⟨hcancel, rfl⟩ | ⟨f, hf, rfl⟩
    · exact Or.inr ⟨hcancel, rfl⟩
    · have hef := (hs.records.shows w.slot f hf).2
      rw [Ending.progress_inj (hef.symm.trans hshow)]
      exact Or.inl rfl

end Sound

end History

end Stockroom.Flight
