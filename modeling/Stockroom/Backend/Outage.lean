import Stockroom.Backend.Depot

/-!
A store of two tiers with a cache of its own, before a remote store that may fail or turn writes
down at each request.
-/

namespace Stockroom.Tiered
set_option autoImplicit false

inductive Request (V : Type) where
  | get (key : String)
  | set (key : String) (value : V) (ttl : Duration)
  | del (key : String)

/-- A request, the time that passes before it, the wall clock when it is made, and how the remote
store behaves then. -/
structure Call (V : Type) where
  request : Request V
  pause : Duration := .zero
  wall : UInt64 := 0
  mode : Remote.Mode := .up

/-- A request and its answer. -/
inductive Deed (V : Type) where
  | get (key : String) (answer : Except Fault (Option V))
  | set (key : String) (value : V) (ttl : Duration) (answer : Except Fault Bool)
  | del (key : String) (answer : Except Fault Bool)

structure Event (V : Type) where
  deed : Deed V
  now : Instant
  mode : Remote.Mode

namespace Event

variable {V : Type}

/-- A write or a deletion of the key that did not fail, or a write that crashed because of its
weight. -/
def changes (key : String) (e : Event V) : Bool :=
  match e.deed with
  | .set k _ _ (.ok _) | .del k (.ok _) => k == key
  | .set k _ _ (.error (.crashed crash)) => k == key && crash == .weightOverflow
  | _ => false

/-- The remote store took no part in it. -/
def missed (e : Event V) : Bool :=
  match e.deed with
  | .get .. => false
  | .set .. => e.mode != .up
  | .del .. => e.mode == .down

def Sets (e : Event V) (key : String) (value : V) : Prop :=
  ∃ ttl accepted, e.deed = .set key value ttl (.ok accepted)

/-- It stored nothing, or nothing that still lives. -/
def Gone (e : Event V) (now : Instant) : Prop :=
  match e.deed with
  | .set _ _ ttl (.ok _) => 0 < ttl.nanos ∧ e.now.nanos + ttl.nanos < now.nanos
  | _ => True

end Event

section
variable {V : Type}

def changes (key : String) (events : List (Event V)) : List (Event V) :=
  events.filter fun e => e.changes key

/-- A write set the key to the value. The remote store missed all that changed the key since, and
the last of it is gone. -/
def Standing (events : List (Event V)) (now : Instant) (key : String) (value : V) : Prop :=
  ∃ older w newer, changes key events = older ++ w :: newer ∧ w.Sets key value ∧
    (∀ x ∈ newer, x.missed = true) ∧ ∀ x ∈ newer.getLast?, x.Gone now

/-- A depot of one cache and one remote store. -/
def pair (now : Instant) (wall : UInt64) (near : Cache V) (far : Remote) : Depot V where
  now := now
  wall := wall
  values := [near]
  remotes := [far]

def ofPair (space : String) : Tiered (Depot V) V where
  space := space
  near := Depot.valueCache 0
  far := some (.remote (Depot.remote 0))
  wall := Depot.wall

def Call.prepare (call : Call V) (d : Depot V) : Depot V :=
  { d with
    now := d.now.advance call.pause
    wall := call.wall
    remotes := d.remotes.map fun r => { r with mode := call.mode } }

variable [Wire V]

def serve (space : String) (call : Call V) (d : Depot V) : Event V × Depot V :=
  let d := call.prepare d
  match call.request with
  | .get key =>
    let r := (ofPair space).get key d
    (⟨.get key r.1, d.now, call.mode⟩, r.2)
  | .set key value ttl =>
    let r := (ofPair space).set key value ttl d
    (⟨.set key value ttl r.1, d.now, call.mode⟩, r.2)
  | .del key =>
    let r := (ofPair space).del key d
    (⟨.del key r.1, d.now, call.mode⟩, r.2)

/-- Requests to a store both of whose tiers are empty, and what becomes of the depot. -/
def run (space : String) (config : Cache.Config V) (calls : List (Call V)) :
    List (Event V) × Depot V :=
  calls.foldl (fun r call => (r.1 ++ [(serve space call r.2).1], (serve space call r.2).2))
    ([], pair .start 0 (.new config) {})

end

end Stockroom.Tiered
