import Std.Data.ExtTreeMap
import Stockroom.Cache.Basic
import Stockroom.Cache.Script

/-!
A cache with everything that runs around it on one scheduler: callers that wait for values,
executions that load or refresh them, and saves to the archive. A task that can run stands in
the ready queue; a task that waits is parked, in the order of arrival. Waking a task moves it
from the one list to the end of the other. What has happened is kept newest first. This module
holds the state; how a task runs is said in `Stockroom.Cache.Step`.
-/

namespace Stockroom.Cache
set_option autoImplicit false

/-- The place that values are saved to and restored from. Saves wait while it is gated, and so do
restores while it holds them. -/
structure Archive (V : Type) where
  data : Std.ExtTreeMap String V := ∅
  gated : Bool := false
  saveMode : SaveMode := .ok
  restoreCrashes : Bool := false
  holdsRestores : Bool := false

inductive Task (V : Type) where
  | request (caller : Nat) (name : String) (loader : Loader V) (token : Option String)
  | waiter (caller : Nat) (name : String) (slot : Nat) (token : Option String)
  /-- An execution that has not begun. -/
  | start (call : Call) (cause : Cause) (loader : Loader V)
  /-- A load that waits for what the archive has, before its loader is invoked. -/
  | restoring (call : Call) (loader : Loader V)
  /-- An execution whose loader waits at a gate; `last` is what its last `fetch` got. -/
  | paused (call : Call) (cause : Cause) (gate : String) (last : Option V) (rest : Script V)
  /-- An execution whose loader waits for the load of another name. -/
  | fetching (call : Call) (cause : Cause) (name : String) (slot : Nat) (rest : Script V)
  /-- A save that has not begun. It holds a permit. -/
  | save (name : String) (value : V)
  /-- A save that waits for the gated archive. It holds a permit. -/
  | saving (name : String) (value : V)

namespace Task

variable {V : Type}

def call? : Task V → Option Call
  | start call .. | restoring call .. | paused call .. | fetching call .. => some call
  | _ => none

def caller? : Task V → Option Nat
  | request caller .. | waiter caller .. => some caller
  | _ => none

def isSave : Task V → Bool
  | save .. | saving .. => true
  | _ => false

def awaitsSlot (slot : Nat) : Task V → Bool
  | waiter _ _ s _ | fetching _ _ _ s _ => s == slot
  | _ => false

def awaitsToken (token : String) : Task V → Bool
  | waiter _ _ _ t => t == some token
  | _ => false

def awaitsGate (gate : String) : Task V → Bool
  | paused _ _ g _ _ => g == gate
  | _ => false

def awaitsRelease : Task V → Bool
  | saving .. => true
  | _ => false

def awaitsRestore : Task V → Bool
  | restoring .. => true
  | _ => false

end Task

/-- A cache, the clock, the tasks, and what callbacks did and callers got so far. -/
structure World (V : Type) where
  cache : Cache V
  now : Instant := .start
  ready : List (Task V) := []
  parked : List (Task V) := []
  /-- Gates opened so far; they stay open. -/
  opened : List String := []
  fired : List String := []
  archive : Archive V := {}
  /-- What callbacks did, the newest first. -/
  events : List (Event V) := []
  /-- Callers that have finished, with what they got, the newest first. -/
  results : List (Nat × Outcome V) := []
  /-- The number of callers started so far. -/
  callers : Nat := 0

namespace World

variable {V : Type}

def new (config : Config V) : World V := { cache := .new config }

/-- A world around a cache that is built now. -/
def build (config : Config V) : Except Crash (World V) :=
  match Cache.build config with
  | .ok cache => .ok { cache }
  | .error crash => .error crash

def spawn (w : World V) (t : Task V) : World V := { w with ready := w.ready ++ [t] }

def park (w : World V) (t : Task V) : World V := { w with parked := w.parked ++ [t] }

def log (w : World V) (e : Event V) : World V := { w with events := e :: w.events }

def finish (w : World V) (caller : Nat) (outcome : Outcome V) : World V :=
  { w with results := (caller, outcome) :: w.results }

/-- Move the parked tasks that pass the test to the ready queue, in the order of arrival. -/
def wake (w : World V) (p : Task V → Bool) : World V :=
  { w with ready := w.ready ++ w.parked.filter p, parked := w.parked.filter fun t => !p t }

/-- Move the parked task that came first among those that pass the test. -/
def wakeFirst (w : World V) (p : Task V → Bool) : World V :=
  match w.parked.find? p with
  | some t => { w with ready := w.ready ++ [t], parked := w.parked.eraseP p }
  | none => w

def isFired (w : World V) (token : Option String) : Bool := token.any fun t => w.fired.contains t

/-! ### Changes to the cache -/

/-- End the load of a call and wake everybody who waits for it. -/
def settleCall (w : World V) (call : Call) (p : Progress V) : World V :=
  { w with cache.flights := w.cache.flights.settle call p }.wake (Task.awaitsSlot call.slot)

def complete (w : World V) (call : Call) (outcome : Outcome V) : World V :=
  w.settleCall call (.published outcome)

/-- The execution that held the call has ended without an outcome. -/
def abandon (w : World V) (call : Call) : World V := w.settleCall call .abandoned

/-- Ask for a save of a value that was just written. -/
def requestSave (w : World V) (name : String) (value : V) (inRuntime : Bool) : World V :=
  let r := w.cache.requestSave inRuntime
  let w' := { w with cache := r.2 }
  if r.1 then w'.spawn (.save name value) else w'

/-- Offer what was just written to the archive, if it is a value that is to be kept. -/
def offerSave (w : World V) (name : String) (value : Option V) (keep inRuntime : Bool) : World V :=
  match value with
  | some v => if keep then w.requestSave name v inRuntime else w
  | none => w

/-- Write an entry and offer it to the archive. A write that crashes offers nothing. -/
def write (w : World V) (name : String) (value : Option V) (ttl : Duration)
    (keep : Bool) (inRuntime : Bool) : Option Crash × World V :=
  match w.cache.write w.now name value ttl with
  | (some crash, cache) => (some crash, { w with cache })
  | (none, cache) => (none, { w with cache }.offerSave name value keep inRuntime)

/-- The three ways in which a write can go. -/
theorem write_cases (w : World V) (name : String) (value : Option V) (ttl : Duration)
    (keep inRuntime : Bool) :
    (∃ crash, w.cache.entry w.now name value ttl = .error crash ∧
        w.write name value ttl keep inRuntime = (some crash, w)) ∨
    (∃ e, w.cache.entry w.now name value ttl = .ok e ∧ ¬ w.cache.Fits name e ∧
        w.write name value ttl keep inRuntime =
          (some .weightOverflow, { w with cache := w.cache.forfeit name })) ∨
    ∃ e, w.cache.entry w.now name value ttl = .ok e ∧ w.cache.Fits name e ∧
        w.write name value ttl keep inRuntime =
          (none, { w with cache := w.cache.add name e }.offerSave name value keep inRuntime) := by
  unfold write
  rcases w.cache.write_cases w.now name value ttl with
    ⟨crash, he, hw⟩ | ⟨e, he, hfits, hw⟩ | ⟨e, he, hfits, hw⟩
  · rw [hw]
    exact .inl ⟨crash, he, rfl⟩
  · rw [hw]
    exact .inr (.inl ⟨e, he, hfits, rfl⟩)
  · rw [hw]
    exact .inr (.inr ⟨e, he, hfits, rfl⟩)

/-- Carry out an operation. Only a write can crash. -/
def perform (w : World V) (inRuntime : Bool) : Op V → Except Crash (Reply V) × World V
  | .set name value ttl =>
    match w.write name (some value) (ttl.getD w.cache.config.defaultTtl) true inRuntime with
    | (some crash, w') => (.error crash, w')
    | (none, w') => (.ok .done, w')
  | .get name =>
    let r := w.cache.lookup w.now name
    (.ok (.found (r.1.map Snapshot.value)), { w with cache := r.2 })
  | .contains name => (.ok (.told (w.cache.contains w.now name)), w)
  | .isLoading name => (.ok (.told (w.cache.isLoading name)), w)
  | .delete name => let r := w.cache.delete name; (.ok (.told r.1), { w with cache := r.2 })
  | .purge => (.ok .done, { w with cache := w.cache.purge })
  | .purgeShard index =>
    let r := w.cache.purgeShard index
    (.ok (.counted r.1), { w with cache := r.2 })

theorem perform_set (w : World V) (inRuntime : Bool) (name : String) (value : V)
    (ttl : Option Duration) :
    w.perform inRuntime (.set name value ttl) =
      let r := w.write name (some value) (ttl.getD w.cache.config.defaultTtl) true inRuntime
      (match r.1 with
        | some crash => .error crash
        | none => .ok .done, r.2) := by
  unfold perform
  dsimp only
  rcases w.write name (some value) (ttl.getD w.cache.config.defaultTtl) true inRuntime with
    ⟨_ | crash, w'⟩ <;> rfl

end World

end Stockroom.Cache
