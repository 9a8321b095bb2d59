import Stockroom.Pool.Upkeep

/-!
Operations with all that they set going. Some carry scripts, and the operations of these may carry
scripts in their turn.
-/

namespace Stockroom.Pool
set_option autoImplicit false

namespace Op

/-- The scripts that an operation carries. -/
def scripts : Op → List (Scripted Op)
  | exec _ body => [body]
  | scriptFactory _ next default => next ++ default.toList
  | scriptCheck _ _ act | scriptDestructor _ act => [act]
  | _ => []

/-- The operation is of a kind, and so is every operation of the scripts that it carries. -/
inductive Throughout (kind : Op → Prop) : Op → Prop where
  | intro (op : Op) : kind op → (∀ act ∈ op.scripts, ∀ op' ∈ act.ops, Throughout kind op') →
      Throughout kind op

end Op

def Scripted.Throughout (kind : Op → Prop) (act : Scripted Op) : Prop :=
  ∀ op ∈ act.ops, op.Throughout kind

structure Scripts.Throughout (kind : Op → Prop) (s : Scripts) : Prop where
  queue : ∀ act ∈ s.queue, act.Throughout kind
  default : s.default.Throughout kind
  checks : ∀ serial act, s.checks.get? serial = some act → act.Throughout kind
  destructor : s.destructor.Throughout kind

namespace Scene

/-- All callbacks that are set up do operations of the kind only. -/
def Throughout (kind : Op → Prop) (s : Scene) : Prop := ∀ name, (s.scriptsOf name).Throughout kind

/-- What can become of a scene by operations of a kind, and as time passes. -/
inductive Onward (kind : Op → Prop) (s : Scene) : Scene → Prop where
  | refl : Onward kind s s
  | handle (t : Scene) (op : Op) : Onward kind s t → op.Throughout kind →
      Onward kind s (t.handle op).2
  | advance (t : Scene) (d : Duration) : Onward kind s t → Onward kind s (t.advance d)

end Scene

end Stockroom.Pool
