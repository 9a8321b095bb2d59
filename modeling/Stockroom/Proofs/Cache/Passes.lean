import Stockroom.Proofs.Cache.Calm
import Stockroom.Proofs.Flight.Tracks

/-! What one move of a task can be. Whatever it does to the store, it starts at most one execution
and then either goes on, waits, answers its caller, or ends its own execution. -/

namespace Stockroom.Cache
set_option autoImplicit false

variable {V : Type}

/-- What a task or a running loader has in its hands. -/
structure Hand (V : Type) where
  call : Option Call := none
  caller : Option Nat := none
  /-- The loader that the execution has not invoked yet. -/
  pending : Option (Call × Cause × Loader V) := none

/-- The loader of an execution that has not begun or waits for the archive. -/
def Task.pending? : Task V → Option (Call × Cause × Loader V)
  | .start call cause loader => some (call, cause, loader)
  | .restoring call loader => some (call, .miss, loader)
  | _ => none

def Task.hand (t : Task V) : Hand V := ⟨t.call?, t.caller?, t.pending?⟩

/-- The loader that the task hands to the cache when it runs. -/
def Task.offer? : Task V → Option (String × Loader V)
  | .request _ name loader _ => some (name, loader)
  | _ => none

def Running.hand (r : Running V) : Hand V := { call := some r.call }

def Running.offer? (r : Running V) : Option (String × Loader V) :=
  match r.script with
  | .fetch name tag loader _ => some (name, ⟨tag, loader⟩)
  | _ => none

theorem Task.hand_of_isSave {t : Task V} (h : t.isSave = true) : t.hand = {} := by
  cases t <;> first | rfl | cases h

theorem Task.call?_of_pending? {t : Task V} {x : Call × Cause × Loader V}
    (h : t.pending? = some x) : t.call? = some x.1 := by
  cases t <;> first | (cases h; rfl) | cases h

theorem Task.not_awaitsSlot_of_isSave {t : Task V} (h : t.isSave = true) (slot : Nat) :
    t.awaitsSlot slot = false := by
  cases t <;> first | rfl | cases h

namespace World

variable {w w' w'' : World V}

/-! ### Passes -/

/-- An execution is started for a name that has none. -/
def lead (w : World V) (name : String) (cause : Cause) (loader : Loader V) : World V :=
  let opened := w.cache.flights.register name
  { w with
    cache.flights := opened.2
    cache.counters := match cause with
      | .miss => { w.cache.counters with loads := w.cache.counters.loads + 1 }
      | .refresh => { w.cache.counters with refreshes := w.cache.counters.refreshes + 1 } }.spawn
    (.start opened.1 cause loader)

/-- At most one execution is started, with the loader on offer. -/
inductive Leads (offer : Option (String × Loader V)) (w : World V) : World V → Prop where
  | none : Leads offer w w
  | start (name : String) (cause : Cause) (loader : Loader V) : offer = some (name, loader) →
      w.cache.flights.contains name = false → Leads offer w (w.lead name cause loader)

/-- What becomes of the hand: its task is over, goes on, invokes its loader, waits, or has an
answer for its caller. -/
inductive Closes (h : Hand V) (w : World V) : World V → Option (Running V) → Prop where
  | drops : h = {} → Closes h w w none
  | goesOn (r : Running V) : h = r.hand → Closes h w w (some r)
  | begins (call : Call) (cause : Cause) (loader : Loader V) :
      h = { call := some call, pending := some (call, cause, loader) } →
      Closes h w (w.log (.invoked call.key loader.tag cause))
        (some ⟨call, cause, loader.script, none⟩)
  | parks (t : Task V) : h = t.hand →
      (∀ slot, t.awaitsSlot slot = true → w.cache.flights.progress slot = .running) →
      Closes h w (w.park t) none
  | answers (caller : Nat) (outcome : Outcome V) : h = { caller := some caller } →
      Closes h w (w.finish caller outcome) none

/-- What a hand can have made of the world when it is put down, and the loader that runs then. -/
inductive Passes (h : Hand V) (offer : Option (String × Loader V)) (w : World V) :
    World V → Option (Running V) → Prop where
  | closes {w₁ w₂ w₃ : World V} {r : Option (Running V)} : w.Calm w₁ → w₁.Leads offer w₂ →
      w₂.Closes h w₃ r → Passes h offer w w₃ r
  | ends {w₁ : World V} (call : Call) (p : Progress V) : w.Calm w₁ → h.call = some call →
      h.caller = none → p ≠ .running → Passes h offer w (w₁.settleCall call p) none

namespace Passes

variable {h : Hand V} {offer : Option (String × Loader V)} {r : Option (Running V)}

theorem of_calm (hc : w.Calm w') (hclose : w'.Closes h w'' r) : Passes h offer w w'' r :=
  .closes hc .none hclose

theorem of_closes (hclose : w.Closes h w' r) : Passes h offer w w' r :=
  .closes (.refl w) .none hclose

theorem calm_trans (hc : w.Calm w') (h' : Passes h offer w' w'' r) : Passes h offer w w'' r := by
  cases h' with
  | closes hc' hl hclose => exact .closes (hc.trans hc') hl hclose
  | ends call p hc' hcall hcaller hp => exact .ends call p (hc.trans hc') hcall hcaller hp

end Passes

/-! ### Look-ups -/

/-- A hit is close enough to its end for a refresh, and none is in flight. -/
def refreshes (w : World V) (name : String) (found : Snapshot V) : Bool :=
  found.remaining.any (fun remaining => w.cache.config.nearExpiry remaining found.ttl) &&
    !w.cache.flights.contains name

theorem considerRefresh_eq (w : World V) (name : String) (found : Snapshot V) (loader : Loader V) :
    w.considerRefresh name found loader =
      if w.refreshes name found then w.lead name .refresh loader else w := by
  have hrefreshes : w.refreshes name found =
      (found.remaining.any (fun remaining => w.cache.config.nearExpiry remaining found.ttl) &&
        !(w.cache.flights.calls.get? name).isSome) := rfl
  unfold considerRefresh Registry.tryLead
  cases hremaining : found.remaining with
  | none =>
    rw [hremaining] at hrefreshes
    rw [if_neg (Bool.eq_false_iff.mp hrefreshes)]
  | some remaining =>
    rw [hremaining, Option.any_some] at hrefreshes
    dsimp only
    by_cases hnear : w.cache.config.nearExpiry remaining found.ttl = true
    · rw [hnear, Bool.true_and] at hrefreshes
      rw [if_pos hnear]
      cases hcalls : w.cache.flights.calls.get? name with
      | none =>
        have hrefreshes : w.refreshes name found = true := by rw [hrefreshes, hcalls]; rfl
        rw [if_pos hrefreshes]
        rfl
      | some slot =>
        have hrefreshes : w.refreshes name found = false := by rw [hrefreshes, hcalls]; rfl
        rw [if_neg (Bool.eq_false_iff.mp hrefreshes)]
    · rw [Bool.eq_false_iff.mpr hnear, Bool.false_and] at hrefreshes
      rw [if_neg hnear, if_neg (Bool.eq_false_iff.mp hrefreshes)]

theorem joinLoad_eq (w : World V) (name : String) (loader : Loader V) :
    w.joinLoad name loader =
      match w.cache.flights.calls.get? name with
      | some slot => (slot, w)
      | none => (w.cache.flights.slots.length, w.lead name .miss loader) := by
  unfold joinLoad Registry.join
  cases w.cache.flights.calls.get? name <;> rfl

theorem leads_considerRefresh (w : World V) (name : String) (found : Snapshot V)
    (loader : Loader V) :
    w.Leads (some (name, loader)) (w.considerRefresh name found loader) := by
  rw [considerRefresh_eq]
  split
  · rename_i hrefreshes
    obtain ⟨-, hidle⟩ := Bool.and_eq_true_iff.mp hrefreshes
    exact .start name .refresh loader rfl (by simpa using hidle)
  · exact .none

theorem leads_joinLoad (w : World V) (name : String) (loader : Loader V) :
    w.Leads (some (name, loader)) (w.joinLoad name loader).2 := by
  rw [joinLoad_eq]
  cases hcalls : w.cache.flights.calls.get? name with
  | some slot => exact .none
  | none =>
    refine .start name .miss loader rfl ?_
    rw [Registry.contains, Table.contains, hcalls]
    rfl

/-- Whoever joins the load of a name waits on the slot that the name has then. -/
theorem get?_joinLoad (w : World V) (name : String) (loader : Loader V) :
    (w.joinLoad name loader).2.cache.flights.calls.get? name =
      some (w.joinLoad name loader).1 := by
  rw [joinLoad_eq]
  cases hcalls : w.cache.flights.calls.get? name with
  | some slot => exact hcalls
  | none => exact Table.get?_insert_self _ _ _

/-- Names in flight have slots that still run. -/
def Flying (w : World V) : Prop := ∀ name slot,
  w.cache.flights.calls.get? name = some slot → w.cache.flights.progress slot = .running

theorem Calm.flying (h : w.Calm w') (hw : w.Flying) : w'.Flying := by
  unfold Flying
  rw [h.flights]
  exact hw

theorem Leads.flying {offer : Option (String × Loader V)} (h : w.Leads offer w')
    (hw : w.Flying) : w'.Flying := by
  cases h with
  | none => exact hw
  | start name cause loader hoffer hnone =>
    intro key slot hkey
    change ((w.cache.flights.register name).2.progress slot) = .running
    rw [Registry.progress_register_eq]
    split
    · rfl
    · rename_i hne
      change (w.cache.flights.calls.insert name w.cache.flights.slots.length).get? key = _ at hkey
      rw [Table.get?_insert] at hkey
      split at hkey
      · exact absurd (Option.some.inj hkey).symm hne
      · exact hw key slot hkey

/-- A name in flight stays so, on the slot that it has. -/
theorem Leads.get?_of_some {offer : Option (String × Loader V)} (h : w.Leads offer w')
    {name : String} {slot : Nat} (hslot : w.cache.flights.calls.get? name = some slot) :
    w'.cache.flights.calls.get? name = some slot := by
  cases h with
  | none => exact hslot
  | start key cause loader hoffer hnone =>
    have hne : name ≠ key := by
      rintro rfl
      rw [Registry.contains, Table.contains, hslot] at hnone
      cases hnone
    exact (Table.get?_insert_of_ne _ _ hne).trans hslot

theorem getOrLoad_hit {name : String} {loader : Loader V} {value : Option V}
    (he : w.getOrLoad name loader = (.hit value, w')) :
    ∃ w₁, w.Calm w₁ ∧ w₁.Leads (some (name, loader)) w' := by
  have hc := calm_lookup w name
  unfold getOrLoad at he
  split at he <;> rename_i hlookup
  · rw [hlookup] at hc
    cases he
    exact ⟨_, hc, leads_considerRefresh _ _ _ _⟩
  · cases he

theorem getOrLoad_waiting {name : String} {loader : Loader V} {slot : Nat}
    (he : w.getOrLoad name loader = (.waiting slot, w')) :
    (∃ w₁, w.Calm w₁ ∧ w₁.Leads (some (name, loader)) w') ∧
      w'.cache.flights.calls.get? name = some slot := by
  have hc := calm_lookup w name
  unfold getOrLoad at he
  split at he <;> rename_i hlookup
  · cases he
  · rw [hlookup] at hc
    cases he
    exact ⟨⟨_, hc, leads_joinLoad _ _ _⟩, get?_joinLoad _ _ _⟩

theorem getOrLoad_running (hw : w.Flying) {name : String} {loader : Loader V} {slot : Nat}
    (he : w.getOrLoad name loader = (.waiting slot, w')) :
    w'.cache.flights.progress slot = .running := by
  obtain ⟨⟨w₁, hc, hl⟩, hslot⟩ := getOrLoad_waiting he
  exact hl.flying (hc.flying hw) name slot hslot

/-- Whoever misses a name in flight waits on the slot that the name has already. -/
theorem getOrLoad_slot {name : String} {loader : Loader V} {slot s : Nat}
    (he : w.getOrLoad name loader = (.waiting slot, w'))
    (hs : w.cache.flights.calls.get? name = some s) : s = slot := by
  obtain ⟨⟨w₁, hc, hl⟩, hslot⟩ := getOrLoad_waiting he
  have hs' := hl.get?_of_some (hc.flights ▸ hs)
  exact Option.some.inj (hs'.symm.trans hslot)

theorem closes_checkSlot (w : World V) (caller : Nat) (name : String) (slot : Nat)
    (token : Option String) :
    w.Closes { caller := some caller } (w.checkSlot caller name slot token) none := by
  unfold checkSlot
  split
  · exact .answers caller _ rfl
  · rename_i hnone
    refine .parks (.waiter caller name slot token) rfl ?_
    intro s hs
    rw [← beq_iff_eq.mp hs]
    exact (Progress.answer_eq_none_iff.mp hnone).1

/-! ### Executions -/

section
variable {h : Hand V} {offer : Option (String × Loader V)} {call : Call}

theorem passes_abandon (w : World V) (hcall : h.call = some call) (hcaller : h.caller = none) :
    Passes h offer w (w.abandon call) none :=
  .ends call .abandoned (.refl w) hcall hcaller nofun

theorem passes_failLoad (w : World V) (text : String) (hcall : h.call = some call)
    (hcaller : h.caller = none) : Passes h offer w (w.failLoad call text) none :=
  .ends call _ (.of_cache rfl rfl rfl) hcall hcaller nofun

theorem passes_storeAndPublish (w : World V) (value : Option V) (ttl : Duration) (keep : Bool)
    (hcall : h.call = some call) (hcaller : h.caller = none) :
    Passes h offer w (w.storeAndPublish call value ttl keep) none := by
  rw [storeAndPublish_eq]
  refine .ends call _ (calm_write w call.key value ttl keep true) hcall hcaller ?_
  split <;> nofun

theorem passes_conclude (w : World V) (cause : Cause) (product : Loaded V)
    (hcall : h.call = some call) (hcaller : h.caller = none) :
    Passes h offer w (w.conclude call cause product) none := by
  unfold conclude
  split
  · exact .ends call (.published (.ok none)) (.refl w) hcall hcaller nofun
  · exact passes_storeAndPublish w _ _ _ hcall hcaller

theorem passes_carryOut (hw : w.Flying) (r : Running V) :
    Passes r.hand r.offer? w (w.carryOut r).1 (w.carryOut r).2 := by
  obtain ⟨call, cause, script, last⟩ := r
  cases script with
  | done product => exact passes_conclude w cause product rfl rfl
  | relay => exact passes_conclude w cause _ rfl rfl
  | fail text => exact passes_failLoad w text rfl rfl
  | crash text => exact passes_abandon w rfl rfl
  | await gate rest =>
    simp only [carryOut]
    split
    · exact .of_closes (.goesOn _ rfl)
    · exact .of_closes (.parks _ rfl fun _ hawaits => by cases hawaits)
  | act op rest =>
    have hc := calm_perform w true op
    rw [carryOut_act]
    split
    · exact .calm_trans hc (passes_abandon _ rfl rfl)
    · exact .of_calm hc (.goesOn _ rfl)
  | fetch name tag loader rest =>
    simp only [carryOut]
    split <;> rename_i he
    · obtain ⟨w₁, hc, hl⟩ := getOrLoad_hit he
      exact .closes hc hl (.goesOn _ rfl)
    · obtain ⟨⟨w₁, hc, hl⟩, -⟩ := getOrLoad_waiting he
      refine .closes hc hl (.parks _ rfl ?_)
      intro slot hslot
      rw [← beq_iff_eq.mp hslot]
      exact getOrLoad_running hw he

theorem passes_restore (w : World V) (call : Call) (loader : Loader V) :
    Passes { call := some call, pending := some (call, .miss, loader) } none w
      (w.restore call loader).1 (w.restore call loader).2 := by
  have hc : w.Calm (w.log (.restore call.key w.archive.data[call.key]?.isSome)) :=
    .log w fun _ => rfl
  unfold restore
  dsimp only
  split
  · exact .calm_trans hc (passes_abandon _ rfl rfl)
  · split
    · exact .calm_trans hc (passes_storeAndPublish _ _ _ _ rfl rfl)
    · exact .of_calm hc (.begins call .miss loader rfl)

theorem passes_begin (w : World V) (call : Call) (cause : Cause) (loader : Loader V) :
    Passes { call := some call, pending := some (call, cause, loader) } none w
      (w.begin call cause loader).1 (w.begin call cause loader).2 := by
  cases cause with
  | refresh => exact .of_closes (.begins call .refresh loader rfl)
  | miss =>
    simp only [begin]
    split
    · split
      · exact .of_closes (.parks (.restoring call loader) rfl nofun)
      · exact passes_restore w call loader
    · exact .of_closes (.begins call .miss loader rfl)

theorem passes_checkFetch (w : World V) (call : Call) (cause : Cause) (name : String)
    (slot : Nat) (rest : Script V) :
    Passes { call := some call } none w (w.checkFetch call cause name slot rest).1
      (w.checkFetch call cause name slot rest).2 := by
  unfold checkFetch
  split
  · exact .of_closes (.goesOn _ rfl)
  · exact passes_failLoad w _ rfl rfl
  · rename_i hnone
    refine .of_closes (.parks (.fetching call cause name slot rest) rfl ?_)
    intro s hs
    rw [← beq_iff_eq.mp hs]
    exact (Progress.answer_eq_none_iff.mp hnone).1

theorem passes_enter (w : World V) (t : Task V) :
    Passes t.hand t.offer? w (w.enter t).1 (w.enter t).2 := by
  cases t with
  | request caller name loader token =>
    simp only [enter]
    split <;> rename_i he
    · obtain ⟨w₁, hc, hl⟩ := getOrLoad_hit he
      exact .closes hc hl (.answers caller _ rfl)
    · obtain ⟨⟨w₁, hc, hl⟩, -⟩ := getOrLoad_waiting he
      exact .closes hc hl (closes_checkSlot _ caller name _ token)
  | waiter caller name slot token => exact .of_closes (closes_checkSlot w caller name slot token)
  | start call cause loader => exact passes_begin w call cause loader
  | restoring call loader => exact passes_restore w call loader
  | paused call cause gate last rest =>
    simp only [enter]
    split
    · exact .of_closes (.goesOn _ rfl)
    · exact .of_closes (.parks _ rfl fun _ hawaits => by cases hawaits)
  | fetching call cause name slot rest => exact passes_checkFetch w call cause name slot rest
  | save name value => exact .of_calm (calm_beginSave w name value) (.drops rfl)
  | saving name value => exact .of_calm (calm_endSave w name value) (.drops rfl)

end

end World

end Stockroom.Cache
