import Stockroom.Backend.Memory
import Stockroom.Envelope

/-!
A store of two tiers under a namespace: a local cache and, perhaps, a store of texts behind it.
With a text store, values are written to it in envelopes and the local cache takes only the
writes that it did not accept. Reads ask the local cache first. Failures of the text store are
never failures here: a read that fails is a miss, a write that fails goes to the local cache.
-/

namespace Stockroom
set_option autoImplicit false

/-- The two tiers and the wall clock. -/
structure Tiered (σ V : Type) where
  space : String
  near : CacheIn σ V
  far : Option (Backend σ String)
  wall : σ → UInt64

namespace Tiered

variable {σ V : Type} [Wire V]

/-- The value in a text at a millisecond of the wall clock; none if it has gone stale. -/
def open? (wall : UInt64) (text : String) : Except Fault (Option V) :=
  match Envelope.decode text with
  | none => .error (.failed .codec)
  | some e => .ok (if e.stale wall then none else some e.value)

/-- The envelope of a value that is written at a millisecond of the wall clock. -/
def wrap (wall : UInt64) (value : V) (ttl : Duration) : Envelope V :=
  { value, expiresAt := Envelope.deadline wall ttl }

def getFar (t : Tiered σ V) (far : Backend σ String) (key : String) : Act σ (Option V) := fun s =>
  match far.get key s with
  | (.ok (some text), s') => (open? (t.wall s) text, s')
  | (.ok none, s') => (.ok none, s')
  | (.error (.failed _), s') => (.ok none, s')
  | (.error crashed, s') => (.error crashed, s')

def get (t : Tiered σ V) (key : String) : Act σ (Option V) := fun s =>
  let full := namespacedKey t.space key
  match t.near.get full s with
  | (.ok (some v), s') => (.ok (some v), s')
  | (.ok none, s') =>
    match t.far with
    | none => (.ok none, s')
    | some far => t.getFar far full s'
  | (.error fault, s') => (.error fault, s')

/-- Write a text to the text store. Once it is accepted, an older local copy must not hide it;
otherwise the local cache takes the value. -/
def setFar (t : Tiered σ V) (far : Backend σ String) (key text : String) (value : V)
    (ttl : Duration) : Act σ Bool := fun s =>
  match far.set key text ttl s with
  | (.ok true, s') => (.ok true, (t.near.del key s').2)
  | (.ok false, s') => t.near.set key value ttl s'
  | (.error (.failed _), s') => t.near.set key value ttl s'
  | (.error crashed, s') => (.error crashed, s')

def set (t : Tiered σ V) (key : String) (value : V) (ttl : Duration) : Act σ Bool := fun s =>
  let full := namespacedKey t.space key
  match t.far with
  | none => t.near.set full value ttl s
  | some far =>
    match (wrap (t.wall s) value ttl).encode with
    | none => (.error (.failed .codec), s)
    | some text => t.setFar far full text value ttl s

def del (t : Tiered σ V) (key : String) : Act σ Bool := fun s =>
  let full := namespacedKey t.space key
  match t.near.del full s with
  | (.ok here, s') =>
    match t.far with
    | none => (.ok here, s')
    | some far =>
      match far.del full s' with
      | (.ok there, s'') => (.ok (here || there), s'')
      | (.error (.failed _), s'') => (.ok here, s'')
      | (.error crashed, s'') => (.error crashed, s'')
  | (.error fault, s') => (.error fault, s')

end Tiered

def Backend.tiered {σ V : Type} [Wire V] (t : Tiered σ V) : Backend σ V := ⟨t.get, t.set, t.del⟩

end Stockroom
