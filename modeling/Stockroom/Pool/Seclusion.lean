import Stockroom.Pool.Upkeep

/-!
Pools that are registered in one space, and everybody else: operations that use the registry in
other spaces only, with whatever callbacks they set off.
-/

namespace Stockroom.Pool
set_option autoImplicit false

namespace Op

/-- Whether the operation leaves the registry alone, closes no pool itself and carries no script. -/
def isPlain : Op → Bool
  | .exec .. | .close _ | .scriptFactory .. | .scriptCheck .. | .scriptDestructor ..
  | .register .. | .lookUp .. | .lookUpOrBuild .. | .unregister .. | .closeAll => false
  | _ => true

/-- The operation, and all that its scripts do, uses the registry in spaces apart from `space` and
closes or registers no pool by a name that is kept. -/
inductive Foreign (space : String) (kept : String → Prop) : Op → Prop where
  | plain (op : Op) : op.isPlain = true → Foreign space kept op
  | exec (name : String) (body : Scripted Op) : (∀ op ∈ body.ops, Foreign space kept op) →
      Foreign space kept (.exec name body)
  | close (name : String) : ¬ kept name → Foreign space kept (.close name)
  | scriptFactory (name : String) (next : List (Scripted Op)) (default : Option (Scripted Op)) :
      (∀ act ∈ next, ∀ op ∈ act.ops, Foreign space kept op) →
      (∀ act ∈ default, ∀ op ∈ act.ops, Foreign space kept op) →
      Foreign space kept (.scriptFactory name next default)
  | scriptCheck (name : String) (serial : Nat) (act : Scripted Op) :
      (∀ op ∈ act.ops, Foreign space kept op) → Foreign space kept (.scriptCheck name serial act)
  | scriptDestructor (name : String) (act : Scripted Op) :
      (∀ op ∈ act.ops, Foreign space kept op) → Foreign space kept (.scriptDestructor name act)
  | register (other key name : String) : Apart other space → ¬ kept name →
      Foreign space kept (.register other key name)
  | lookUp (other key bind : String) : Apart other space →
      Foreign space kept (.lookUp other key bind)
  | lookUpOrBuild (other key bind name : String) (config : Config) : Apart other space →
      Foreign space kept (.lookUpOrBuild other key bind name config)
  | unregister (other key : String) : Apart other space →
      Foreign space kept (.unregister other key)

end Op

variable {space : String} {kept : String → Prop}

def Scripted.Foreign (space : String) (kept : String → Prop) (act : Scripted Op) : Prop :=
  ∀ op ∈ act.ops, op.Foreign space kept

structure Scripts.Foreign (space : String) (kept : String → Prop) (s : Scripts) : Prop where
  queue : ∀ act ∈ s.queue, act.Foreign space kept
  default : s.default.Foreign space kept
  checks : ∀ serial act, s.checks.get? serial = some act → act.Foreign space kept
  destructor : s.destructor.Foreign space kept

namespace Scene

/-- The pools registered in the space are registered nowhere else and go by kept names only, and no
callback meddles with them. -/
structure Secluded (space : String) (kept : String → Prop) (s : Scene) : Prop where
  scripts : ∀ name, (s.scriptsOf name).Foreign space kept
  names : ∀ name k p, s.names.get? name = some p →
    s.registry.get? (namespacedKey space k) = some p → kept name
  registry : ∀ key k p, s.registry.get? key = some p →
    s.registry.get? (namespacedKey space k) = some p → ∃ k', key = namespacedKey space k'
  built : ∀ k p, s.registry.get? (namespacedKey space k) = some p → p < s.pools.length
  loans : ∀ l ∈ s.ready ++ s.waiting, Instr.close ∉ l.job.todo

/-- What everybody else can make of a scene, operation by operation and as time passes. -/
inductive Course (space : String) (kept : String → Prop) (s : Scene) : Scene → Prop where
  | refl : Course space kept s s
  | handle (t : Scene) (op : Op) : Course space kept s t → op.Foreign space kept →
      Course space kept s (t.handle op).2
  | advance (t : Scene) (d : Duration) : Course space kept s t → Course space kept s (t.advance d)

end Scene

end Stockroom.Pool
