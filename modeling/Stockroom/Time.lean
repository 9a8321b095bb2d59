/-!
Durations and instants, both in whole nanoseconds. An instant counts from the start of the
clock. Adding a duration to an instant can fail: seconds are signed 64-bit numbers.
-/

namespace Stockroom
set_option autoImplicit false

structure Duration where
  nanos : Nat
deriving DecidableEq, Repr, Inhabited

namespace Duration

def zero : Duration := ⟨0⟩

def ofMillis (n : Nat) : Duration := ⟨n * 1000000⟩

def ofSeconds (n : Nat) : Duration := ⟨n * 1000000000⟩

def seconds (d : Duration) : Nat := d.nanos / 1000000000

/-- What is left of the last second, in nanoseconds. -/
def subsecond (d : Duration) : Nat := d.nanos % 1000000000

def millis (d : Duration) : Nat := d.nanos / 1000000

def isZero (d : Duration) : Bool := d.nanos == 0

instance : LT Duration := ⟨fun a b => a.nanos < b.nanos⟩

instance (a b : Duration) : Decidable (a < b) := inferInstanceAs (Decidable (a.nanos < b.nanos))

theorem lt_def {a b : Duration} : a < b ↔ a.nanos < b.nanos := Iff.rfl

theorem seconds_mul_add_subsecond (d : Duration) :
    d.seconds * 1000000000 + d.subsecond = d.nanos := by
  unfold seconds subsecond
  omega

end Duration

/-- A point in time, as the nanoseconds since the clock started. -/
structure Instant where
  nanos : Nat
deriving DecidableEq, Repr, Inhabited

namespace Instant

def start : Instant := ⟨0⟩

/-- The seconds of an instant stay below this bound. -/
def secondsBound : Nat := 1 <<< 63

/-- The instant `d` after `t`, if it can be represented. -/
def after? (t : Instant) (d : Duration) : Option Instant :=
  if (t.nanos + d.nanos) / 1000000000 < secondsBound then some ⟨t.nanos + d.nanos⟩ else none

/-- The clock moved on by `d`. -/
def advance (t : Instant) (d : Duration) : Instant := ⟨t.nanos + d.nanos⟩

/-- The time from `earlier` to `t`; zero if `t` does not come later. -/
def since (t earlier : Instant) : Duration := ⟨t.nanos - earlier.nanos⟩

instance : LT Instant := ⟨fun a b => a.nanos < b.nanos⟩

instance (a b : Instant) : Decidable (a < b) := inferInstanceAs (Decidable (a.nanos < b.nanos))

instance : LE Instant := ⟨fun a b => a.nanos ≤ b.nanos⟩

instance (a b : Instant) : Decidable (a ≤ b) := inferInstanceAs (Decidable (a.nanos ≤ b.nanos))

instance : Max Instant := ⟨fun a b => ⟨max a.nanos b.nanos⟩⟩

theorem lt_def {a b : Instant} : a < b ↔ a.nanos < b.nanos := Iff.rfl

theorem le_def {a b : Instant} : a ≤ b ↔ a.nanos ≤ b.nanos := Iff.rfl

theorem nanos_of_after? {t u : Instant} {d : Duration} (h : t.after? d = some u) :
    u.nanos = t.nanos + d.nanos := by
  unfold after? at h
  split at h
  · cases h; rfl
  · cases h

end Instant

end Stockroom
