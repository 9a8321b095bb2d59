/-!
Counts of what a cache has done, and the ratios derived from them. The record holds 64-bit
words; ratios are binary64 quotients.
-/

namespace Stockroom
set_option autoImplicit false

/-- Everything counted since the cache was made. -/
structure Counters where
  hits : Nat := 0
  misses : Nat := 0
  loads : Nat := 0
  loadFailures : Nat := 0
  refreshes : Nat := 0
  inserts : Nat := 0
  updates : Nat := 0
  evictions : Nat := 0
  removals : Nat := 0
  expirations : Nat := 0
  persistDropped : Nat := 0
deriving DecidableEq, Repr, Inhabited

/-- A point-in-time record of a cache's counts and sizes. -/
structure Metrics where
  hits : UInt64 := 0
  misses : UInt64 := 0
  loads : UInt64 := 0
  loadFailures : UInt64 := 0
  refreshes : UInt64 := 0
  inserts : UInt64 := 0
  updates : UInt64 := 0
  evictions : UInt64 := 0
  removals : UInt64 := 0
  expirations : UInt64 := 0
  persistDropped : UInt64 := 0
  currentSizeBytes : UInt64 := 0
  /-- Zero for no bound. -/
  capacityBytes : UInt64 := 0
  entryCount : Nat := 0
deriving DecidableEq, Repr, Inhabited

namespace Metrics

def totalAccesses (m : Metrics) : UInt64 := m.hits + m.misses

def totalWrites (m : Metrics) : UInt64 := m.inserts + m.updates

/-- The share of look-ups that hit; zero before the first one. -/
def hitRate (m : Metrics) : Float :=
  if m.totalAccesses = 0 then 0 else m.hits.toFloat / m.totalAccesses.toFloat

/-- The share of the byte budget in use; zero without a budget. -/
def utilization (m : Metrics) : Float :=
  if m.capacityBytes = 0 then 0 else m.currentSizeBytes.toFloat / m.capacityBytes.toFloat

end Metrics

def Counters.record (c : Counters) (entryCount : Nat) (size capacity : UInt64) : Metrics where
  hits := c.hits.toUInt64
  misses := c.misses.toUInt64
  loads := c.loads.toUInt64
  loadFailures := c.loadFailures.toUInt64
  refreshes := c.refreshes.toUInt64
  inserts := c.inserts.toUInt64
  updates := c.updates.toUInt64
  evictions := c.evictions.toUInt64
  removals := c.removals.toUInt64
  expirations := c.expirations.toUInt64
  persistDropped := c.persistDropped.toUInt64
  currentSizeBytes := size
  capacityBytes := capacity
  entryCount := entryCount

end Stockroom
