import Mathlib.Data.List.Perm.Subperm
import Stockroom.Pool.Runs
import Stockroom.Pool.Scripting

/-!
Scenes of one pool. Whatever is done in such a scene is done to that pool: by operations from outside
and by those of callbacks, by loans that take turns, and by background maintenance.
-/

namespace Stockroom.Pool
set_option autoImplicit false

/-- The script does nothing, and does not crash. -/
def Scripted.Tame (act : Scripted Op) : Prop := act.ops = [] ∧ ∀ text, act.reply ≠ .crash text

namespace Op

def builds : Op → Bool
  | create .. | lookUpOrBuild .. => true
  | _ => false

/-- The operation sets up no destructor but a tame one. -/
def Tame : Op → Prop
  | scriptDestructor _ act => act.Tame
  | _ => True

/-- The operation builds no pool, and sets up no destructor that may crash, unless they may. -/
structure Solo (mayCrash : Callback → Prop) (op : Op) : Prop where
  alone : op.builds = false
  tame : op.Tame ∨ ∀ r, mayCrash (.destructor r)

end Op

/-- The handle that an answer is. -/
def Answer.gives : Answer → List ResourceId
  | resource r => [r]
  | _ => []

/-- A job that is waiting for a callback. -/
def Job.pending (j : Job) : List Job := if j.waitsFor.isSome then [j] else []

namespace Scene

/-- The jobs of loans whose bodies have begun. -/
def lent (s : Scene) : List Job := (s.ready ++ s.waiting).flatMap fun l => l.job.pending

/-- The traffic is that of the first pool of the scene. These jobs are in progress, besides those of
loans, and users have the handles that have names. -/
structure Shows (jobs : List Job) (s : Scene) (t : Traffic) : Prop where
  state : s.state? 0 = some t.state
  now : t.now = s.now
  handles : ∀ handle r, s.handles.get? handle = some r → r ∈ t.handles
  gives : ∀ j ∈ jobs ++ s.lent, j.result.gives ⊆ t.handles
  jobs : (jobs ++ s.lent).Subperm t.jobs

end Scene

end Stockroom.Pool
