import Stockroom.Flight.Session

/-!
What may happen in a session with a registry: requests, and looks of single waits, in any order.
A history keeps beside the session how each call ended that is no longer held, which is what the
waits on its slot are to be told.
-/

namespace Stockroom.Flight
set_option autoImplicit false

variable {V : Type}

/-- A request, or a look of one wait at its slot. -/
inductive Move (V : Type) where
  | perform (request : Request V)
  | poll (id : Nat) (tokenFirst : Bool)

/-- How a call ended: with an outcome, or dropped without one. -/
inductive Ending (V : Type) where
  | completed (outcome : Outcome V)
  | dropped

/-- What a wait for `key` is told about a call that ended so. -/
def Ending.answer (key : String) : Ending V → Outcome V
  | completed outcome => outcome
  | dropped => .error (.loadAbandoned key)

namespace Session

/-- The calls that somebody holds: they have been neither completed nor dropped. -/
def alive (s : Session V) : List Call := s.calls.values

def isAlive (s : Session V) (key : String) : Bool := s.alive.any fun call => call.key == key

/-- Nothing changes when the wait looks at its slot again. -/
def AtRest (s : Session V) (id : Nat) : Prop := ∀ tokenFirst, s.poll id tokenFirst = s

/-- The end of the call held under a name. -/
def release (s : Session V) (name : String) (e : Ending V) : List (Nat × Ending V) :=
  (s.calls.get? name).toList.map fun call => (call.slot, e)

end Session

/-- The calls that a request ends. A new call that is held under a name in use drops the call
that was there. -/
def Request.endings (s : Session V) : Request V → List (Nat × Ending V)
  | .complete name outcome => s.release name (.completed outcome)
  | .drop name => s.release name .dropped
  | .join key name | .tryLead key name =>
    if s.isAlive key then [] else s.release name .dropped
  | .wait .. | .cancel _ | .contains _ => []

/-- A session and the slots of the calls that have ended, with how they did. -/
structure History (V : Type) where
  session : Session V := {}
  endings : List (Nat × Ending V) := []

namespace History

def step (h : History V) : Move V → History V
  | .perform request =>
    { session := (h.session.perform request).2
      endings := request.endings h.session ++ h.endings }
  | .poll id tokenFirst => { h with session := h.session.poll id tokenFirst }

def run (h : History V) (moves : List (Move V)) : History V := moves.foldl step h

end History

end Stockroom.Flight
