import Stockroom.Cache.Deeds
import Stockroom.Proofs.Cache.Steps

/-! The entries change by deeds alone: after every move the store is what the deed of the move makes
of it. What a deed writes fits. -/

namespace Stockroom.Cache
set_option autoImplicit false

variable {V : Type}

/-- If the deed writes an entry, it fits. -/
def Admits (c : Cache V) : Option (Deed V) → Prop
  | some (.write name e) => c.Fits name e
  | _ => True

namespace World

variable {w w' : World V}

/-! ### Writes and look-ups -/

theorem admits_writing? (w : World V) (name : String) (value : Option V) (ttl : Duration) :
    w.cache.Admits (w.writing? name value ttl) := by
  cases he : w.cache.entry w.now name value ttl with
  | error crash =>
    rw [writing?_of_error he]
    trivial
  | ok e =>
    rw [writing?_of_ok he]
    split
    · rename_i hfits
      exact hfits
    · trivial

theorem admits_deed? (w : World V) (op : Option (Op V)) (offer : Option (String × Loader V))
    (yield : Option (Yield V)) : w.cache.Admits (w.deed? op offer yield) := by
  rcases op with _ | op
  · rcases offer with _ | offer
    · rcases yield with _ | y
      · trivial
      · exact w.admits_writing? y.call.key y.value y.ttl
    · trivial
  · cases op with
    | set name value ttl =>
      exact w.admits_writing? name (some value) (ttl.getD w.cache.config.defaultTtl)
    | _ => trivial

theorem store_requestSave (w : World V) (name : String) (value : V) (inRuntime : Bool) :
    (w.requestSave name value inRuntime).cache.store = w.cache.store := by
  unfold requestSave Cache.requestSave
  dsimp only
  split
  · rfl
  · split <;> rfl

theorem store_offerSave (w : World V) (name : String) (value : Option V) (keep inRuntime : Bool) :
    (w.offerSave name value keep inRuntime).cache.store = w.cache.store := by
  unfold offerSave
  split
  · split
    · exact store_requestSave w name _ inRuntime
    · rfl
  · rfl

theorem store_write (w : World V) (name : String) (value : Option V) (ttl : Duration)
    (keep inRuntime : Bool) :
    (w.write name value ttl keep inRuntime).2.cache.store =
      (w.cache.carry w.now (w.writing? name value ttl)).store := by
  rcases w.write_cases name value ttl keep inRuntime with
    ⟨crash, he, hw⟩ | ⟨e, he, hfits, hw⟩ | ⟨e, he, hfits, hw⟩
  · rw [hw, writing?_of_error he]
    rfl
  · rw [hw, writing?_of_ok he, if_neg hfits]
    rfl
  · rw [hw, writing?_of_ok he, if_pos hfits]
    exact store_offerSave _ name value keep inRuntime

theorem store_perform (w : World V) (inRuntime : Bool) (op : Op V) :
    (w.perform inRuntime op).2.cache.store = (w.cache.carry w.now (op.deed? w)).store := by
  cases op with
  | set name value ttl =>
    rw [perform_set]
    exact store_write w name (some value) (ttl.getD w.cache.config.defaultTtl) true inRuntime
  | get name => rfl
  | contains name => rfl
  | isLoading name => rfl
  | delete name => rfl
  | purge => rfl
  | purgeShard index => rfl

theorem Leads.store {offer : Option (String × Loader V)} (h : w.Leads offer w') :
    w'.cache.store = w.cache.store := by
  cases h with
  | none => rfl
  | start name cause loader hoffer hnone => cases cause <;> rfl

theorem store_getOrLoad (w : World V) (name : String) (loader : Loader V) :
    (w.getOrLoad name loader).2.cache.store = (w.cache.lookup w.now name).2.store := by
  rw [getOrLoad_eq]
  cases (w.cache.lookup w.now name).1 with
  | some found => exact (leads_considerRefresh _ _ _ _).store
  | none => exact (leads_joinLoad _ _ _).store

/-! ### Executions -/

theorem store_storeAndPublish (w : World V) (y : Yield V) :
    (w.storeAndPublish y.call y.value y.ttl y.keep).cache.store =
      (w.cache.carry w.now (y.deed? w)).store := by
  rw [storeAndPublish_eq]
  exact store_write w y.call.key y.value y.ttl y.keep true

/-- The end of a loader stores what it yields, if it yields anything. -/
theorem conclude_eq (w : World V) {r : Running V} {product : Loaded V}
    (h : r.product? = some product) :
    w.conclude r.call r.cause product =
      match r.yield? w with
      | some y => w.storeAndPublish y.call y.value y.ttl y.keep
      | none => w.complete r.call (.ok none) := by
  obtain ⟨call, cause, script, last⟩ := r
  obtain ⟨value, ttl⟩ := product
  unfold Running.yield?
  rw [h]
  cases cause <;> cases value <;> rfl

theorem store_conclude (w : World V) {r : Running V} {product : Loaded V}
    (h : r.product? = some product) :
    (w.conclude r.call r.cause product).cache.store =
      (w.cache.carry w.now (w.deed? none none (r.yield? w))).store := by
  rw [conclude_eq w h]
  cases r.yield? w with
  | none => rfl
  | some y => exact store_storeAndPublish w y

theorem store_carryOut (w : World V) (r : Running V) :
    (w.carryOut r).1.cache.store =
      (w.cache.carry w.now (w.deed? r.op? r.offer? (r.yield? w))).store := by
  obtain ⟨call, cause, script, last⟩ := r
  cases script with
  | done product => exact store_conclude w (r := ⟨call, cause, .done product, last⟩) rfl
  | relay => exact store_conclude w (r := ⟨call, cause, .relay, last⟩) rfl
  | fail text => rfl
  | crash text => rfl
  | await gate rest =>
    simp only [carryOut]
    split <;> rfl
  | act op rest =>
    rw [carryOut_act]
    split <;> exact store_perform w true op
  | fetch name tag loader rest =>
    rw [carryOut_fetch]
    dsimp only
    split <;> exact store_getOrLoad w name ⟨tag, loader⟩

/-- What the archive gives back is stored at once; no loader is asked then. -/
theorem restore_of_restored? {w : World V} {call : Call} {y : Yield V}
    (h : w.restored? call = some y) (loader : Loader V) :
    y.call = call ∧ w.restore call loader =
      ((w.log (.restore call.key true)).storeAndPublish y.call y.value y.ttl y.keep, none) := by
  unfold restored? at h
  split at h
  · cases h
  · rename_i hcrash
    obtain ⟨v, hfound, rfl⟩ := Option.map_eq_some_iff.mp h
    unfold restore
    simp only [hfound, if_neg hcrash, Option.isSome_some, and_self]

theorem store_restore (w : World V) (call : Call) (loader : Loader V) :
    (w.restore call loader).1.cache.store =
      (w.cache.carry w.now (w.deed? none none (w.restored? call))).store := by
  cases h : w.restored? call with
  | some y =>
    rw [(restore_of_restored? h loader).2]
    exact store_storeAndPublish _ y
  | none =>
    unfold restored? at h
    unfold restore
    dsimp only
    split
    · rfl
    · rename_i hcrash
      rw [if_neg hcrash, Option.map_eq_none_iff] at h
      rw [h]
      rfl

theorem store_begin (w : World V) (call : Call) (cause : Cause) (loader : Loader V) :
    (w.begin call cause loader).1.cache.store =
      (w.cache.carry w.now
        (w.deed? none none (Task.yield? w (.start call cause loader)))).store := by
  cases cause with
  | refresh => rfl
  | miss =>
    simp only [begin, Task.yield?]
    cases w.cache.config.persists with
    | false => rfl
    | true =>
      cases w.archive.holdsRestores with
      | true => rfl
      | false => exact store_restore w call loader

theorem store_checkFetch (w : World V) (call : Call) (cause : Cause) (name : String)
    (slot : Nat) (rest : Script V) :
    (w.checkFetch call cause name slot rest).1.cache.store = w.cache.store := by
  unfold checkFetch
  split <;> rfl

theorem store_checkSlot (w : World V) (caller : Nat) (name : String) (slot : Nat)
    (token : Option String) :
    (w.checkSlot caller name slot token).cache.store = w.cache.store := by
  unfold checkSlot
  split <;> rfl

theorem store_enter (w : World V) (t : Task V) :
    (w.enter t).1.cache.store =
      (w.cache.carry w.now (w.deed? none t.offer? (t.yield? w))).store := by
  cases t with
  | request caller name loader token =>
    have h := store_getOrLoad w name loader
    rw [enter_request]
    dsimp only
    split
    · exact h
    · exact (store_checkSlot _ _ _ _ _).trans h
  | waiter caller name slot token => exact store_checkSlot w caller name slot token
  | start call cause loader => exact store_begin w call cause loader
  | restoring call loader => exact store_restore w call loader
  | paused call cause gate last rest =>
    simp only [enter]
    split <;> rfl
  | fetching call cause name slot rest => exact store_checkFetch w call cause name slot rest
  | save name value =>
    simp only [enter, beginSave]
    split
    · rfl
    · unfold endSave
      dsimp only
      split <;> rfl
  | saving name value =>
    simp only [enter, endSave]
    split <;> rfl

/-! ### Moves -/

theorem store_effect (w : World V) (command : Command V) :
    (w.effect command).cache.store =
      match command with
      | .perform op _ => (w.cache.carry w.now (op.deed? w)).store
      | _ => w.cache.store := by
  cases command with
  | perform op inRuntime =>
    rw [effect_perform]
    exact store_perform w inRuntime op
  | _ => rfl

end World

namespace Moment

theorem admits_deed? (m : Moment V) (move : Move V) : m.world.cache.Admits (m.deed? move) :=
  m.world.admits_deed? _ _ _

theorem deed?_goOn {m : Moment V} {r : Running V} (h : m.running = some r) :
    m.deed? .goOn = m.world.deed? r.op? r.offer? (r.yield? m.world) := by
  rw [deed?, offer?_goOn h]
  simp only [op?, yield?, h, Option.bind_some]

theorem deed?_run {m : Moment V} {i : Nat} {t : Task V} (h : m.running = none)
    (ht : m.world.ready[i]? = some t) :
    m.deed? (.run i) = m.world.deed? none t.offer? (t.yield? m.world) := by
  rw [deed?, offer?_run h ht]
  simp only [op?, yield?, h, ht, Option.isNone_none, if_true, Option.bind_some]

theorem store_step (m : Moment V) (move : Move V) :
    (m.step move).world.cache.store =
      (m.world.cache.carry m.world.now (m.deed? move)).store := by
  change (m.next move).1.cache.store = _
  obtain ⟨w, running, ended⟩ := m
  cases running with
  | some r =>
    cases move with
    | goOn =>
      rw [deed?_goOn rfl]
      exact World.store_carryOut w r
    | outside command => cases command <;> rfl
    | archive archive => rfl
    | wake i => rfl
    | run i => rfl
  | none =>
    cases move with
    | goOn => rfl
    | outside command =>
      refine (World.store_effect w command).trans ?_
      cases command <;> rfl
    | archive archive => rfl
    | wake i =>
      simp only [next, World.wakeAt]
      split <;> rfl
    | run i =>
      simp only [next, World.enterAt]
      split
      · rename_i t ht
        rw [deed?_run rfl ht]
        exact World.store_enter _ t
      · rename_i hnone
        simp only [deed?, op?, offer?, yield?, hnone]
        rfl

end Moment

end Stockroom.Cache
