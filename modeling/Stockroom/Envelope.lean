import Stockroom.Json.Printer
import Stockroom.Json.Reader
import Stockroom.Time
import Stockroom.Wire

/-!
The text under which a value is kept in a store of texts. It carries the value and, for a value
with a lifetime, the wall-clock millisecond after which it is stale; so a store that knows of no
lifetimes still honours them.
-/

namespace Stockroom
set_option autoImplicit false

/-- A value and its deadline. -/
structure Envelope (V : Type) where
  value : V
  /-- Milliseconds of the wall clock; nothing for a value that never goes stale. -/
  expiresAt : Option UInt64 := none
deriving DecidableEq, Repr

namespace Envelope

variable {V : Type}

/-- The deadline of a value written at the millisecond `wall`: later by the whole milliseconds
of its lifetime, and never beyond the largest word. -/
def deadline (wall : UInt64) (ttl : Duration) : Option UInt64 :=
  if ttl.isZero then none else some (min (wall.toNat + ttl.millis) (UInt64.size - 1)).toUInt64

def stale (e : Envelope V) (wall : UInt64) : Bool :=
  match e.expiresAt with
  | some deadline => deadline < wall
  | none => false

variable [Wire V]

/-- The text of an envelope. It has none if its value cannot be written. -/
def encode (e : Envelope V) : Option String :=
  (Wire.encode e.value).map fun j =>
    (Json.object (("value", j) ::
      match e.expiresAt with
      | some n => [("expires_at", .nat n.toNat)]
      | none => [])).render

def assemble (value : Option V) (expiresAt : Option (Option UInt64)) : Option (Envelope V) :=
  match value, expiresAt with
  | some value, some expiresAt => some { value, expiresAt }
  | _, _ => none

def ofJson : Json → Option (Envelope V)
  | .object ms =>
    assemble (Wire.required Wire.decode (Json.field "value" ms))
      (Wire.optional Wire.decode (Json.field "expires_at" ms))
  | .array [value] => assemble (Wire.decode value) (some none)
  | .array [value, expiresAt] =>
    assemble (Wire.decode value) (Wire.decodeOption Wire.decode expiresAt)
  | _ => none

def decode (text : String) : Option (Envelope V) := (Json.read text).bind ofJson

end Envelope

end Stockroom
