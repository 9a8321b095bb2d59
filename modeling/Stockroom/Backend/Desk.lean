import Stockroom.Backend.Outage

/-!
Stores of two tiers before a store of texts of any make. A desk is what they go by: a local cache,
the store of texts, the clock of the cache and the wall clock. The stores of several namespaces may
share one desk.
-/

namespace Stockroom
set_option autoImplicit false

/-- A store on a part of a state. -/
def Backend.on {σ τ V : Type} (p : Part σ τ) (b : Backend τ V) : Backend σ V where
  get key := Act.on p (b.get key)
  set key value ttl := Act.on p (b.set key value ttl)
  del key := Act.on p (b.del key)

def Backend.serve {σ V : Type} (b : Backend σ V) (request : Tiered.Request V) (s : σ) :
    Tiered.Deed V × σ :=
  match request with
  | .get key => let r := b.get key s; (.get key r.1, r.2)
  | .set key value ttl => let r := b.set key value ttl s; (.set key value ttl r.1, r.2)
  | .del key => let r := b.del key s; (.del key r.1, r.2)

structure Desk (τ V : Type) where
  now : Instant := .start
  wall : UInt64 := 0
  near : Cache V
  far : τ

namespace Desk

variable {τ V : Type}

def cache : CacheIn (Desk τ V) V where
  cache := { get := Desk.near, set := fun near d => { d with near } }
  now := Desk.now

def texts : Part (Desk τ V) τ where
  get := Desk.far
  set far d := { d with far }

/-- The store of a namespace at the desk, perhaps with a store of texts behind it. -/
def tiered (space : String) (far : Option (Backend τ String)) : Tiered (Desk τ V) V where
  space := space
  near := cache
  far := far.map (.on texts)
  wall := Desk.wall

/-- A request, the time that passes on the clock of the cache before it, and the wall clock when it
is made. -/
structure Visit (V : Type) where
  request : Tiered.Request V
  pause : Duration := .zero
  wall : UInt64 := 0

def await (pause : Duration) (wall : UInt64) (d : Desk τ V) : Desk τ V :=
  { d with now := d.now.advance pause, wall }

variable [Wire V]

def serve (space : String) (far : Option (Backend τ String)) (v : Visit V) (d : Desk τ V) :
    Tiered.Deed V × Desk τ V :=
  (Backend.tiered (tiered space far)).serve v.request (d.await v.pause v.wall)

def serveAll (space : String) (far : Option (Backend τ String)) (visits : List (Visit V))
    (d : Desk τ V) : Desk τ V :=
  visits.foldl (fun d v => (serve space far v d).2) d

/-- The visit deletes the key, or sets it to a value that can be written. -/
def Visit.changes (key : String) (v : Visit V) : Bool :=
  match v.request with
  | .get _ => false
  | .set k value _ => k == key && (Wire.encode value).isSome
  | .del k => k == key

def lastChange? (key : String) (visits : List (Visit V)) : Option (Visit V) :=
  (visits.filter (Visit.changes key)).getLast?

/-- The last visit that changed the key set it, at this millisecond of the wall clock. -/
def SetLast (visits : List (Visit V)) (key : String) (value : V) (ttl : Duration)
    (wall : UInt64) : Prop :=
  ∃ pause, lastChange? key visits = some ⟨.set key value ttl, pause, wall⟩

end Desk

/-- A store of texts that never fails and never turns anything down while it is `up`. It keeps each
text until it is overwritten or deleted, whatever lifetime it was given. -/
structure Backend.Faithful {τ : Type} (far : Backend τ String) (up : τ → Prop)
    (content : τ → String → Option String) : Prop where
  get : ∀ key s, up s → (far.get key s).1 = .ok (content s key) ∧ up (far.get key s).2 ∧
    content (far.get key s).2 = content s
  set : ∀ key text ttl s, up s → (far.set key text ttl s).1 = .ok true ∧
    up (far.set key text ttl s).2 ∧ ∀ other, content (far.set key text ttl s).2 other =
      if key = other then some text else content s other
  del : ∀ key s, up s → (far.del key s).1 = .ok (content s key).isSome ∧
    up (far.del key s).2 ∧ ∀ other, content (far.del key s).2 other =
      if key = other then none else content s other

end Stockroom
