import Stockroom.Cache.Deeds

/-!
Saves and the limit on them. A value that is written, unless it came from the archive, is offered to
the archive: either a save of it is requested, which holds a permit until it has ended, or the offer
is dropped and counted.
-/

namespace Stockroom.Cache
set_option autoImplicit false

variable {V : Type}

/-- The save that the task is, while it has not begun. -/
def Task.save? : Task V → Option (String × V)
  | .save name value => some (name, value)
  | _ => none

/-- The save that has begun. -/
def Event.save? : Event V → Option (String × V)
  | .save name value => some (name, value)
  | _ => none

def Event.endsSave : Event V → Bool
  | .saveEnd .. => true
  | _ => false

/-- The value that the deed writes. -/
def Deed.value? : Deed V → Option (String × V)
  | .write name e => e.value.map fun v => (name, v)
  | _ => none

/-- Whether the move is made where saves can run. -/
def Move.inRuntime : Move V → Bool
  | .outside (.perform _ inRuntime) => inRuntime
  | _ => true

namespace World

/-- The saves requested so far: those that have begun, and those that have not. -/
def saves (w : World V) : List (String × V) :=
  w.events.filterMap Event.save? ++ w.tasks.filterMap Task.save?

def savesEnded (w : World V) : Nat := w.events.countP Event.endsSave

/-- The number of saves that have not ended. -/
def outstanding (w : World V) : Nat := w.tasks.countP Task.isSave

/-- The value that is written, unless it comes from the archive. -/
def fresh? (w : World V) (op : Option (Op V)) (offer : Option (String × Loader V))
    (yield : Option (Yield V)) : Option (String × V) :=
  if yield.any fun y => !y.keep then none else (w.deed? op offer yield).bind Deed.value?

end World

/-- The value that the next move writes, unless it comes from the archive. -/
def Moment.fresh? (m : Moment V) (move : Move V) : Option (String × V) :=
  m.world.fresh? (m.op? move) (m.offer? move) (m.yield? move)

end Stockroom.Cache
