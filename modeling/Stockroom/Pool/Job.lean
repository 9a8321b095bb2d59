import Stockroom.Failure
import Stockroom.Pool.Sets

/-!
What a pool does, as jobs. A job is a list of instructions. Most instructions are one move on
the sets, made with nothing in between; a `call` hands control to somebody else's callback (the
factory, the health check, the destructor, the body of a loan) and the job waits for its reply.
What happens to the pool in the meantime is not the job's business: it looks at the sets again
when it goes on. A crash drops the instructions that are left, but for the return of a loan.
-/

namespace Stockroom.Pool
set_option autoImplicit false

structure Resource where
  /-- The name of the pool whose factory made it. -/
  origin : String
  /-- Its number among the resources of that origin. -/
  serial : Nat
  createdAt : Instant
  /-- When it was last checked out. -/
  lastUsed : Instant
  /-- Whether its destructor has run or is running. -/
  destroyed : Bool := false
deriving DecidableEq, Repr, Inhabited

/-- All resources ever made, by their ids. -/
abbrev Stock := List Resource

namespace Stock

def touch (s : Stock) (r : ResourceId) (now : Instant) : Stock :=
  s.modify r fun x => { x with lastUsed := now }

def markDestroyed (s : Stock) (r : ResourceId) : Stock :=
  s.modify r fun x => { x with destroyed := true }

/-- An unknown resource counts as destroyed. -/
def isDestroyed (s : Stock) (r : ResourceId) : Bool := (s[r]?.map Resource.destroyed).getD true

def lastUsed (s : Stock) (r : ResourceId) : Instant := (s[r]?.map Resource.lastUsed).getD .start

def countFrom (s : Stock) (name : String) : Nat := s.countP fun x => x.origin == name

end Stock

/-- A pool and the resources it may come to hold. -/
structure State where
  name : String
  limits : Limits
  destructs : Bool := true
  sets : Sets := {}
  stock : Stock := []

/-- What happens to a resource that no set holds any more. -/
inductive Disposal where
  | immediate
  /-- It waits in pending close. -/
  | delayed
deriving DecidableEq, Repr

/-- What a resource is checked out for. -/
inductive Purpose where
  /-- The caller keeps it until it hands it in. -/
  | keep
  /-- It is lent to a body and comes back when the body ends. -/
  | lend
deriving DecidableEq, Repr

inductive Callback where
  /-- The factory, for somebody who wants a resource. -/
  | make (purpose : Purpose)
  /-- The factory, for a replacement of `old`. -/
  | makeInstead (old : ResourceId)
  | check (r : ResourceId)
  | destructor (r : ResourceId)
  | body (r : ResourceId)
deriving DecidableEq, Repr

inductive Reply where
  | ok
  | fail (text : String)
  | crash (text : String)
deriving DecidableEq, Repr, Inhabited

inductive Instr where
  /-- Take an idle resource or send for a new one. -/
  | claim (purpose : Purpose)
  /-- Take in a new resource that is being lent. -/
  | enroll (purpose : Purpose) (r : ResourceId)
  | put (r : ResourceId) (disposal : Disposal)
  /-- Deal with a resource that no set holds. -/
  | dispose (r : ResourceId) (disposal : Disposal)
  /-- Run the destructor, at most once for a resource. -/
  | destroy (r : ResourceId)
  | withdraw (r : ResourceId)
  | close
  | inspect
  /-- Put `new` into the place of `old`. -/
  | exchange (old new : ResourceId)
  /-- Take back what was checked out too long ago. -/
  | reclaim
  | sweep
  /-- The end of a loan. This is done even if the body crashed. -/
  | giveBack (r : ResourceId)
  | call (callback : Callback)
deriving DecidableEq, Repr

/-- How a job ended, or would end if nothing came in between. -/
inductive Result where
  | done
  | got (r : ResourceId)
  | failed (failure : Failure)
  | bodyFailed (text : String)
  | crashed (crash : Crash)
deriving DecidableEq, Repr, Inhabited

/-- Instructions left to do, and the result so far. -/
structure Job where
  todo : List Instr
  result : Result := .done
deriving DecidableEq, Repr

namespace Job

def get : Job := { todo := [.claim .keep] }

/-- Check out a resource, run a body on it, and return it on every path. -/
def exec : Job := { todo := [.claim .lend] }

def put (r : ResourceId) : Job := { todo := [.put r .immediate] }

def discard (r : ResourceId) : Job := { todo := [.withdraw r, .dispose r .delayed] }

def close : Job := { todo := [.close] }

def checkIdle : Job := { todo := [.inspect] }

def reclaimOverdue : Job := { todo := [.reclaim] }

def sweepPendingClose : Job := { todo := [.sweep] }

/-- The body of a loan was dropped, or a callback crashed: only the ends of loans are left. -/
def unwind (j : Job) : Job :=
  { j with todo := j.todo.filter fun i => match i with | .giveBack _ => true | _ => false }

/-- A crash during the job. The first one is the one that is told. -/
def crash (j : Job) (text : String) : Job :=
  match j.result with
  | .crashed _ => j.unwind
  | _ => { j.unwind with result := .crashed ⟨text⟩ }

end Job

/-- What an instruction did: the new state, what has to be done next, and the result if this
settles it. -/
structure Effect where
  state : State
  next : List Instr := []
  result : Option Result := none

namespace State

/-- The caller gets the resource, or the body of the loan runs on it. -/
def grant (s : State) (purpose : Purpose) (r : ResourceId) : Effect :=
  match purpose with
  | .keep => { state := s, result := some (.got r) }
  | .lend => { state := s, next := [.call (.body r), .giveBack r] }

/-- A resource that the factory has just made. It takes the next number of its origin. -/
def add (s : State) (now : Instant) : ResourceId × State :=
  (s.stock.length,
    { s with
      stock := s.stock ++ [{
        origin := s.name
        serial := s.stock.countFrom s.name
        createdAt := now
        lastUsed := now }] })

def overdue (s : State) (now : Instant) : List ResourceId :=
  (s.sets.checkedOut ++ s.sets.overflow).filter fun r =>
    Sets.isOver s.limits.maxUsage (s.stock.lastUsed r) now

end State

/-- Carry out one instruction. A call does not end by itself: it stays where it is. -/
def Instr.run (now : Instant) (s : State) : Instr → Effect
  | .claim purpose =>
    if s.sets.closed then { state := s, result := some (.failed .poolClosed) }
    else
      match s.sets.checkOut? with
      | some (r, sets) => { s with sets, stock := s.stock.touch r now }.grant purpose r
      | none => { state := s, next := [.call (.make purpose)] }
  | .enroll purpose r =>
    if s.sets.closed then
      { state := s, next := [.destroy r], result := some (.failed .poolClosed) }
    else { s with sets := s.sets.enroll s.limits.maxSize r }.grant purpose r
  | .put r disposal =>
    if s.sets.closed then { state := s, next := [.destroy r] }
    else
      match s.sets.receive s.limits.maxSize r with
      | .kept sets => { state := { s with sets } }
      | .leaving sets => { state := { s with sets }, next := [.dispose r disposal] }
  | .dispose r .delayed =>
    if s.sets.closed then { state := s, next := [.destroy r] }
    else { state := { s with sets := s.sets.giveUp r now } }
  | .dispose r .immediate => { state := s, next := [.destroy r] }
  | .destroy r =>
    if s.stock.isDestroyed r then { state := s }
    else
      { state := { s with stock := s.stock.markDestroyed r }
        next := if s.destructs then [.call (.destructor r)] else [] }
  | .withdraw r => { state := { s with sets := s.sets.withdraw r } }
  | .close =>
    if s.sets.closed then { state := s }
    else
      let r := s.sets.close
      { state := { s with sets := r.2 }, next := r.1.map .destroy }
  | .inspect => { state := s, next := s.sets.idle.map fun r => .call (.check r) }
  | .exchange old new =>
    match s.sets.replace? old new with
    | some sets => { state := { s with sets }, next := [.destroy old] }
    | none => { state := s, next := [.destroy new] }
  | .reclaim => { state := s, next := (s.overdue now).map fun r => .put r .delayed }
  | .sweep =>
    let r := s.sets.takeDue s.limits.maxUsage now
    { state := { s with sets := r.2 }, next := r.1.map .destroy }
  | .giveBack r => { state := s, next := [.put r .immediate] }
  | .call callback => { state := s, next := [.call callback] }

/-- Go on after a callback that has ended without a crash; `error` is what it failed with. -/
def Callback.resume (now : Instant) (s : State) : Callback → (error : Option String) → Effect
  | .make purpose, none => let made := s.add now; { state := made.2, next := [.enroll purpose made.1] }
  | .make _, some text => { state := s, result := some (.failed (.create text)) }
  | .makeInstead old, none =>
    let made := s.add now
    { state := made.2, next := [.exchange old made.1] }
  | .makeInstead _, some _ => { state := s }
  | .check _, none => { state := s }
  | .check r, some _ => { state := s, next := [.call (.makeInstead r)] }
  | .destructor _, _ => { state := s }
  | .body r, none => { state := s, result := some (.got r) }
  | .body _, some text => { state := s, result := some (.bodyFailed text) }

namespace Job

def waitsFor (j : Job) : Option Callback :=
  match j.todo with
  | .call callback :: _ => some callback
  | _ => none

/-- The job after its first instruction had this effect. -/
def follow (j : Job) (rest : List Instr) (e : Effect) : State × Job :=
  (e.state, { todo := e.next ++ rest, result := e.result.getD j.result })

def step (now : Instant) (s : State) (j : Job) : State × Job :=
  match j.todo with
  | [] => (s, j)
  | i :: rest => j.follow rest (i.run now s)

def reply (now : Instant) (s : State) (j : Job) (r : Reply) : State × Job :=
  match j.todo with
  | .call callback :: rest =>
    match r with
    | .ok => j.follow rest (callback.resume now s none)
    | .fail text => j.follow rest (callback.resume now s (some text))
    | .crash text => (s, ({ j with todo := rest } : Job).crash text)
  | _ => (s, j)

end Job

end Stockroom.Pool
