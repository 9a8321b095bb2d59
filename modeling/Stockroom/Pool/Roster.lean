import Stockroom.Pool.Scripting

/-!
What happens to a registry of pools. A pool that is replaced or removed is let go of when the
registry changes and closed after that, and callbacks that are invoked on the way may do anything to
the registry in between. Nobody closes a pool but the registry.
-/

namespace Stockroom.Pool
set_option autoImplicit false

/-! ### Scenes in which nobody closes a pool -/

def Op.isClose : Op → Bool
  | .close _ => true
  | _ => false

/-- Neither the operation nor any script that it carries closes a pool. -/
abbrev Op.Gentle (op : Op) : Prop := op.Throughout fun op => op.isClose = false

abbrev Scripted.Gentle (act : Scripted Op) : Prop := act.Throughout fun op => op.isClose = false

namespace Scene

/-- No callback that is set up closes a pool, and no loan does. -/
structure Gentle (s : Scene) : Prop where
  scripts : s.Throughout fun op => op.isClose = false
  loans : ∀ l ∈ s.ready ++ s.waiting, Instr.close ∉ l.job.todo

/-- What can become of a scene where nobody closes a pool but the registry. -/
abbrev Gently (s t : Scene) : Prop := s.Onward (fun op => op.isClose = false) t

end Scene

/-! ### Deeds -/

namespace Deed

/-- The pools that the registry lets go of. -/
def letsGo : Deed → List Nat
  | register _ _ _ previous => previous.toList
  | remove _ p => [p]
  | removeAll ps => ps

/-- Whether what is registered under the key may change. -/
def touches (key : String) : Deed → Bool
  | register other .. | remove other _ => other == key
  | removeAll _ => true

def registers (p : Nat) : Deed → Bool
  | register _ q .. => q == p
  | _ => false

/-- Whether the pool is open, if one is registered. -/
def opens : Deed → Bool
  | register _ _ closed _ => !closed
  | _ => true

end Deed

def letGo (deeds : List Deed) : List Nat := deeds.flatMap Deed.letsGo

end Stockroom.Pool
