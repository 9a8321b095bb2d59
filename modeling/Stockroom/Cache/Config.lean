import Stockroom.Failure
import Stockroom.Sharding
import Stockroom.Time.Share
import Stockroom.Weight

/-!
The settings of a cache. Two of them are functions that the engine only calls: the weigher, which
may crash, and the decision whether an entry is close enough to its end to be loaded again.
-/

namespace Stockroom
set_option autoImplicit false

/-- The routing hash of a name: FNV-1a over code points. -/
def routingHash (name : String) : UInt64 :=
  name.toList.foldl (fun h c => (h ^^^ c.val.toUInt64) * 1099511628211) 14695981039346656037

/-- A factor brought into the range from zero to one; what is no number counts as zero. -/
def clampFactor (factor : Float) : Float :=
  if factor.isNaN then 0 else if factor < 0 then 0 else if 1 < factor then 1 else factor

/-- An entry is due for a refresh when less than the share `factor` of its lifetime is left. -/
def refreshBelow (factor : Float) (remaining ttl : Duration) : Bool :=
  let clamped := clampFactor factor
  0 < clamped && remaining < ttl.share clamped

namespace Cache

/-- What a cache is built from. -/
structure Config (V : Type) where
  /-- The byte budget; zero for no bound. -/
  capacity : UInt64 := 0
  shards : Option Nat := none
  /-- The lifetime of values whose writer chose none; zero never expires. -/
  defaultTtl : Duration := .ofSeconds 300
  /-- The lifetime of stored "no value" results. -/
  emptyTtl : Duration := .ofSeconds 30
  /-- Whether an entry with this much left of this lifetime is due for a refresh. -/
  nearExpiry : (remaining ttl : Duration) → Bool := refreshBelow 0.2
  weigh : (name : String) → V → Except Crash UInt64
  persists : Bool := false
  persistLimit : Nat := 4
  hash : String → UInt64 := routingHash

namespace Config

variable {V : Type}

/-- The budget of a cache that nobody chose one for: one gibibyte. -/
def defaultCapacity : UInt64 := 1024 * 1024 * 1024

def weighed [Weighted V] : Config V := { weigh := fun _ v => .ok (weight v) }

/-- The most permits that a cache can hand out. -/
def permitBound : Nat := 1 <<< 61 - 1

def shardCount (c : Config V) : Nat := Sharding.count c.capacity c.shards

/-- The weight of an entry. That a key has no value weighs one, whatever the weigher. -/
def weightOf (c : Config V) (name : String) : Option V → Except Crash UInt64
  | some v => c.weigh name v
  | none => .ok 1

end Config

end Cache

end Stockroom
