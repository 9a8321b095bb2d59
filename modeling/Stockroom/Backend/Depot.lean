import Stockroom.Backend.Remote
import Stockroom.Backend.Tiered

/-!
Named stores over one state: caches of texts and of values, remote stores, and two clocks, one
for the caches and one for envelopes. A store is built from those that are there.
-/

namespace Stockroom
set_option autoImplicit false

/-- The state that all stores of a depot share. -/
structure Depot (V : Type) where
  /-- The clock of the caches. -/
  now : Instant := .start
  /-- The millisecond of the wall clock. -/
  wall : UInt64
  texts : List (Cache String) := []
  values : List (Cache V) := []
  remotes : List Remote := []

namespace Depot

variable {V : Type}

/-- One element of a list. Outside the list there is only the default, and nothing is stored. -/
def element {α : Type} (default : α) (i : Nat) : Part (List α) α where
  get l := l.getD i default
  set a l := l.set i a

/-- A cache that takes nothing in; it stands where there is none. -/
def noCache {α : Type} : Cache α :=
  .new { shards := some 1, weigh := fun _ _ => .error ⟨"no cache"⟩ }

def textCache (i : Nat) : CacheIn (Depot V) String where
  cache :=
    { get := fun d => (element noCache i).get d.texts
      set := fun c d => { d with texts := (element noCache i).set c d.texts } }
  now := Depot.now

def valueCache (i : Nat) : CacheIn (Depot V) V where
  cache :=
    { get := fun d => (element noCache i).get d.values
      set := fun c d => { d with values := (element noCache i).set c d.values } }
  now := Depot.now

def remote (i : Nat) : Part (Depot V) Remote where
  get d := (element {} i).get d.remotes
  set r d := { d with remotes := (element {} i).set r d.remotes }

def addTexts (d : Depot V) (config : Cache.Config String) : Except Crash (Nat × Depot V) :=
  match Cache.build config with
  | .ok cache => .ok (d.texts.length, { d with texts := d.texts ++ [cache] })
  | .error crash => .error crash

def addValues (d : Depot V) (config : Cache.Config V) : Except Crash (Nat × Depot V) :=
  match Cache.build config with
  | .ok cache => .ok (d.values.length, { d with values := d.values ++ [cache] })
  | .error crash => .error crash

def addRemote (d : Depot V) : Nat × Depot V :=
  (d.remotes.length, { d with remotes := d.remotes ++ [{}] })

def accesses (d : Depot V) : List (List Remote.Access) := d.remotes.map Remote.accesses

end Depot

end Stockroom
