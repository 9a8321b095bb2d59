import Stockroom.Backend.Basic
import Stockroom.Cache.Basic

/-!
The store that keeps its values in a cache. Saves to an archive, if the cache has one, end at
once here. A lifetime of zero never expires.
-/

namespace Stockroom
set_option autoImplicit false

/-- Write a value and, if the cache has an archive, save it there. -/
def Cache.put {V : Type} (c : Cache V) (now : Instant) (key : String) (value : V)
    (ttl : Duration) : Option Crash × Cache V :=
  match c.write now key (some value) ttl with
  | (some crash, c') => (some crash, c')
  | (none, c') =>
    let r := c'.requestSave true
    (none, if r.1 then r.2.endSave else r.2)

/-- The value of a key; "no value" and nothing stored are the same here. -/
def Cache.value? {V : Type} (c : Cache V) (now : Instant) (key : String) : Option V × Cache V :=
  let r := c.lookup now key
  (r.1.bind Snapshot.value, r.2)

/-- A cache inside a state, and the clock that it goes by. -/
structure CacheIn (σ V : Type) where
  cache : Part σ (Cache V)
  now : σ → Instant

namespace CacheIn

variable {σ V : Type}

def get (c : CacheIn σ V) (key : String) : Act σ (Option V) := fun s =>
  let r := (c.cache.get s).value? (c.now s) key
  (.ok r.1, c.cache.set r.2 s)

def set (c : CacheIn σ V) (key : String) (value : V) (ttl : Duration) : Act σ Bool := fun s =>
  match (c.cache.get s).put (c.now s) key value ttl with
  | (some crash, cache) => (.error (.crashed crash), c.cache.set cache s)
  | (none, cache) => (.ok true, c.cache.set cache s)

def del (c : CacheIn σ V) (key : String) : Act σ Bool := fun s =>
  let r := (c.cache.get s).delete key
  (.ok r.1, c.cache.set r.2 s)

end CacheIn

def Backend.memory {σ V : Type} (c : CacheIn σ V) : Backend σ V := ⟨c.get, c.set, c.del⟩

end Stockroom
