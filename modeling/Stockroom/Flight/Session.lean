import Stockroom.Flight.Registry

/-!
A session with a registry of loads. Calls and slots are kept under names, waits are numbered in
the order in which they were started, and after every request each unfinished wait looks at its
slot. Storing a call under a name in use drops the call that was there, after the new one has
been registered.
-/

namespace Stockroom.Flight
set_option autoImplicit false

/-- A started wait on a slot, perhaps with a token that can cancel it. -/
structure Wait (V : Type) where
  key : String
  slot : Nat
  token : Option String
  result : Option (Outcome V) := none

/-- The registry, the calls and slots held under names, the waits, and the fired tokens. -/
structure Session (V : Type) where
  registry : Registry V := {}
  calls : Table String Call := .empty
  /-- Slots under names, each with the key it was joined for. -/
  slots : Table String (String × Nat) := .empty
  waits : List (Wait V) := []
  fired : List String := []

inductive Request (V : Type) where
  | join (key name : String)
  | tryLead (key name : String)
  | complete (name : String) (outcome : Outcome V)
  | drop (name : String)
  | wait (name : String) (token : Option String)
  | cancel (token : String)
  | contains (key : String)

inductive Answer where
  | leader
  | follower
  | told (result : Bool)
  | completed (key : String)
  | waiting (id : Nat)
  | done
  | noCall
  | noSlot
deriving DecidableEq, Repr

variable {V : Type}

def Wait.isCancelled (w : Wait V) (fired : List String) : Bool :=
  w.token.any fun t => fired.contains t

/-- A wait looks at its slot and at its token. One that finishes keeps its result for good. -/
def Wait.poll (registry : Registry V) (fired : List String) (tokenFirst : Bool) (w : Wait V) :
    Wait V :=
  match w.result with
  | some _ => w
  | none =>
    { w with
      result := (registry.progress w.slot).answer w.key (w.isCancelled fired) tokenFirst }

namespace Session

def poll (s : Session V) (id : Nat) (tokenFirst : Bool) : Session V :=
  { s with waits := s.waits.modify id (Wait.poll s.registry s.fired tokenFirst) }

/-- Every unfinished wait looks at its slot. -/
def settle (s : Session V) : Session V :=
  { s with waits := s.waits.map (Wait.poll s.registry s.fired false) }

def dropCall (s : Session V) (name : String) : Bool × Session V :=
  match s.calls.get? name with
  | some call =>
    (true, { s with registry := s.registry.abandon call, calls := s.calls.erase name })
  | none => (false, s)

/-- Hold a new call under a name, dropping the one that was there. -/
def hold (s : Session V) (name : String) (call : Call) : Session V :=
  let cleared := (s.dropCall name).2
  { cleared with calls := cleared.calls.insert name call }

/-- Carry out a request, before any wait has looked again. -/
def perform (s : Session V) : Request V → Answer × Session V
  | .join key name =>
    match s.registry.join key with
    | (.leader call, registry) =>
      let held := { s with registry }.hold name call
      (.leader, { held with slots := held.slots.insert name (key, call.slot) })
    | (.follower slot, registry) =>
      (.follower, { s with registry, slots := s.slots.insert name (key, slot) })
  | .tryLead key name =>
    match s.registry.tryLead key with
    | (some call, registry) => (.told true, { s with registry }.hold name call)
    | (none, registry) => (.told false, { s with registry })
  | .complete name outcome =>
    match s.calls.get? name with
    | some call =>
      (.completed call.key,
        { s with registry := s.registry.complete call outcome, calls := s.calls.erase name })
    | none => (.noCall, s)
  | .drop name => let r := s.dropCall name; (.told r.1, r.2)
  | .wait name token =>
    match s.slots.get? name with
    | some (key, slot) =>
      (.waiting s.waits.length, { s with waits := s.waits ++ [{ key, slot, token }] })
    | none => (.noSlot, s)
  | .cancel token => (.done, { s with fired := s.fired ++ [token] })
  | .contains key => (.told (s.registry.contains key), s)

def handle (s : Session V) (r : Request V) : Answer × Session V :=
  let performed := s.perform r
  (performed.1, performed.2.settle)

/-- The waits that have a result in `s` and had none before, with their numbers. -/
def finishedSince (s before : Session V) : List (Nat × Outcome V) :=
  s.waits.zipIdx.filterMap fun (w, id) =>
    if (before.waits[id]?.bind Wait.result).isSome then none
    else w.result.map fun outcome => (id, outcome)

end Session

end Stockroom.Flight
