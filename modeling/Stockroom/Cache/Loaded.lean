import Stockroom.Time

/-!
What a loader produces for a key: a value or the fact that there is none, and possibly a
lifetime. The lifetime counts for values only.
-/

namespace Stockroom
set_option autoImplicit false

structure Loaded (V : Type) where
  value : Option V
  ttl : Option Duration := none
deriving DecidableEq, Repr

namespace Loaded

variable {V : Type}

def ofValue (v : V) : Loaded V := { value := some v }

/-- The key has no value. -/
def empty : Loaded V := { value := none }

def ofOption (v : Option V) : Loaded V := { value := v }

def withTtl (l : Loaded V) (ttl : Duration) : Loaded V := { l with ttl := some ttl }

def isSome (l : Loaded V) : Bool := l.value.isSome

/-- The lifetime to store this with: a value's own or else the default, and for "no value"
always the one set aside for it. -/
def lifetime (l : Loaded V) (default emptyTtl : Duration) : Duration :=
  match l.value with
  | some _ => l.ttl.getD default
  | none => emptyTtl

end Loaded

end Stockroom
