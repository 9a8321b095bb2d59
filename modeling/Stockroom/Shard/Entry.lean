import Stockroom.Time

/-!
Stored values with their deadlines. An entry may hold "no value": that a key has none is worth
keeping too. An entry with a lifetime of zero never expires; any other expires strictly after
its deadline.
-/

namespace Stockroom
set_option autoImplicit false

/-- A value, or the fact that there is none, with its lifetime and weight. -/
structure Entry (V : Type) where
  value : Option V
  /-- Zero for an entry that never expires. -/
  ttl : Duration
  expiresAt : Instant
  weight : UInt64
deriving DecidableEq, Repr

namespace Entry

variable {V : Type}

/-- The entry written at `now`; there is none if its deadline cannot be represented. -/
def at? (now : Instant) (value : Option V) (ttl : Duration) (weight : UInt64) :
    Option (Entry V) :=
  (now.after? ttl).map fun deadline => ⟨value, ttl, deadline, weight⟩

def expired (e : Entry V) (now : Instant) : Bool := !e.ttl.isZero && e.expiresAt < now

/-- The lifetime that is left, for entries that expire. -/
def remaining (e : Entry V) (now : Instant) : Option Duration :=
  if e.ttl.isZero then none else some (e.expiresAt.since now)

theorem expired_iff (e : Entry V) (now : Instant) :
    e.expired now = true ↔ 0 < e.ttl.nanos ∧ e.expiresAt.nanos < now.nanos := by
  simp only [expired, Duration.isZero, Bool.and_eq_true, Bool.not_eq_true', beq_eq_false_iff_ne,
    decide_eq_true_eq, Instant.lt_def]
  omega

/-- An entry written at `now` expires exactly when more than its lifetime has passed. -/
theorem expired_at?_iff {now later : Instant} {value : Option V} {ttl : Duration}
    {weight : UInt64} {e : Entry V} (h : at? now value ttl weight = some e) :
    e.expired later = true ↔ 0 < ttl.nanos ∧ now.nanos + ttl.nanos < later.nanos := by
  unfold at? at h
  obtain ⟨deadline, hd, rfl⟩ := Option.map_eq_some_iff.1 h
  rw [expired_iff]
  simp only [Instant.nanos_of_after? hd]

end Entry

/-- What a look-up hands out: a copy of the entry's value and how long it still lives. -/
structure Snapshot (V : Type) where
  value : Option V
  ttl : Duration
  remaining : Option Duration
deriving DecidableEq, Repr

def Entry.snapshot {V : Type} (e : Entry V) (now : Instant) : Snapshot V :=
  ⟨e.value, e.ttl, e.remaining now⟩

end Stockroom
