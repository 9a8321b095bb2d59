import Stockroom.Pool.Limits
import Stockroom.Table

/-!
The four sets of a pool: resources that are idle, checked out, overflow (lent while the pool was
full), and pending close (given up but perhaps still in somebody's hands). Every function here
is one move that nothing can come between. Idle resources are kept in the order of their return,
the latest last; the order of the other sets means nothing.
-/

namespace Stockroom.Pool
set_option autoImplicit false

/-- Resources are known by their place in the stock that all pools share. -/
abbrev ResourceId := Nat

structure Sets where
  /-- In the order of return, the latest last. -/
  idle : List ResourceId := []
  checkedOut : List ResourceId := []
  overflow : List ResourceId := []
  /-- With the time at which each was given up. -/
  pendingClose : Table ResourceId Instant := .empty
  closed : Bool := false

structure Stats where
  idle : Nat
  checkedOut : Nat
  overflow : Nat
  pendingClose : Nat
deriving DecidableEq, Repr, Inhabited

/-- Resources that no set has let go of. -/
def Stats.live (s : Stats) : Nat := s.idle + s.checkedOut + s.overflow + s.pendingClose

/-- Append, unless it is there. -/
def appendNew (r : ResourceId) (l : List ResourceId) : List ResourceId :=
  if r ∈ l then l else l ++ [r]

/-- What became of a resource that was handed in. -/
inductive Reception where
  /-- It is in a set, or was already; nothing more is to be done. -/
  | kept (sets : Sets)
  /-- No set holds it any more. -/
  | leaving (sets : Sets)

namespace Sets

def stats (s : Sets) : Stats where
  idle := s.idle.length
  checkedOut := s.checkedOut.length
  overflow := s.overflow.length
  pendingClose := s.pendingClose.size

/-- Check out the idle resource that was returned last. -/
def checkOut? (s : Sets) : Option (ResourceId × Sets) :=
  s.idle.getLast?.map fun r =>
    (r, { s with idle := s.idle.dropLast, checkedOut := s.checkedOut.insert r })

/-- Take in a new resource that is being lent: as overflow if the pool is full. -/
def enroll (s : Sets) (maxSize : Nat) (r : ResourceId) : Sets :=
  if maxSize ≤ s.checkedOut.length then { s with overflow := s.overflow.insert r }
  else { s with checkedOut := s.checkedOut.insert r }

/-- Take back a resource. A checked-out one becomes idle, an overflow one only if there is
room; one that is idle or pending close already stays what it is. -/
def receive (s : Sets) (maxSize : Nat) (r : ResourceId) : Reception :=
  if r ∈ s.checkedOut then
    .kept { s with checkedOut := s.checkedOut.erase r, idle := appendNew r s.idle }
  else if r ∈ s.overflow then
    if s.idle.length + s.checkedOut.length < maxSize then
      .kept { s with overflow := s.overflow.erase r, idle := appendNew r s.idle }
    else .leaving { s with overflow := s.overflow.erase r }
  else if r ∈ s.idle ∨ s.pendingClose.contains r then .kept s
  else .leaving s

/-- Take a resource out of all sets but pending close. -/
def withdraw (s : Sets) (r : ResourceId) : Sets :=
  { s with
    idle := s.idle.erase r
    checkedOut := s.checkedOut.erase r
    overflow := s.overflow.erase r }

def giveUp (s : Sets) (r : ResourceId) (now : Instant) : Sets :=
  { s with pendingClose := s.pendingClose.insert r now }

/-- Close and empty all sets. The answer lists what was in them. -/
def close (s : Sets) : List ResourceId × Sets :=
  (s.idle ++ s.checkedOut ++ s.overflow ++ s.pendingClose.keys, { closed := true })

/-- Append `new`, exchange it with `old`, and drop the last: `new` takes the place of `old`. -/
def exchange (idle : List ResourceId) (old new : ResourceId) : List ResourceId :=
  (((idle ++ [new]).set (idle.idxOf old) new).set idle.length old).dropLast

/-- Put `new` into the place of an idle resource, if the pool is open and `old` still idle. -/
def replace? (s : Sets) (old new : ResourceId) : Option Sets :=
  if !s.closed && s.idle.contains old then some { s with idle := exchange s.idle old new } else none

/-- Whether more than `limit` lies between `since` and `now`. -/
def isOver (limit : Duration) (since now : Instant) : Bool := limit < now.since since

/-- The resources that have waited too long to be destroyed, and the sets without them. -/
def takeDue (s : Sets) (limit : Duration) (now : Instant) : List ResourceId × Sets :=
  ((s.pendingClose.filter fun r => isOver limit r.2 now).keys,
    { s with pendingClose := s.pendingClose.filter fun r => !isOver limit r.2 now })

theorem exchange_eq_set {idle : List ResourceId} {old new : ResourceId} (h : old ∈ idle) :
    exchange idle old new = idle.set (idle.idxOf old) new := by
  have hi : idle.idxOf old < idle.length := List.idxOf_lt_length_of_mem h
  unfold exchange
  rw [List.set_append_left _ _ hi, List.set_append_right _ _ (by simp)]
  simp

end Sets

end Stockroom.Pool
