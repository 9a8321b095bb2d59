import Stockroom.Pool.Traffic

/-!
Runs of a pool whose resources no other pool touches, with what happened on the way: which
destructors were invoked, what was handed out, and what was given up too late.
-/

namespace Stockroom.Pool
set_option autoImplicit false

/-- Resources whose destruction is settled, though it has not begun. -/
def Instr.condemns : Instr → List ResourceId
  | .destroy r | .dispose r .immediate => [r]
  | _ => []

namespace Job

def condemned (j : Job) : List ResourceId := j.todo.flatMap Instr.condemns

/-- The resource whose destructor the job invoked when it came to `next`. -/
def invoked (j next : Job) : List ResourceId :=
  match next.waitsFor with
  | some (.destructor r) => if j = next then [] else [r]
  | _ => []

/-- What the job gave to its caller, or to a body, when it came to `next`. -/
def handedOut (j next : Job) : List ResourceId := if j.gives = [] then next.gives else []

/-- What the job gave up when it came to `next`. -/
def gaveUp (j next : Job) : List ResourceId :=
  match j.todo with
  | .dispose r .delayed :: _ => if j = next then [] else [r]
  | _ => []

end Job

namespace Traffic

def condemned (t : Traffic) : List ResourceId := t.jobs.flatMap Job.condemned

/-- What the jobs did from `t` to `u`. -/
def between (deed : Job → Job → List ResourceId) (t u : Traffic) : List ResourceId :=
  (t.jobs.zip u.jobs).flatMap fun p => deed p.1 p.2

/-- What an open pool is given up although it was destroyed, or is going to be. -/
def gaveUpLate (t u : Traffic) : List ResourceId :=
  (between Job.gaveUp t u).filter fun r =>
    !t.state.sets.closed && (t.state.stock.isDestroyed r || t.condemned.contains r)

/-- No resource that the pool has made changes unless one of its own jobs goes on. -/
def Undisturbed (t u : Traffic) : Prop :=
  t.jobs = u.jobs → ∀ r ∈ t.made, u.state.stock[r]? = t.state.stock[r]?

instance (t u : Traffic) : Decidable (t.Undisturbed u) :=
  inferInstanceAs (Decidable (t.jobs = u.jobs → ∀ r ∈ t.made, _ = _))

/-- One step after another, of a pool whose handles no other pool is given. -/
inductive Run (mayCrash : Callback → Prop) (t : Traffic) : List (Traffic × Traffic) → Traffic → Prop
    where
  | refl : Run mayCrash t [] t
  | next {path : List (Traffic × Traffic)} {u v : Traffic} : Run mayCrash t path u →
      Next mayCrash u v → u.Undisturbed v → Run mayCrash t (path ++ [(u, v)]) v

/-- The resources whose destructors were invoked, each as often as that. -/
def invoked (path : List (Traffic × Traffic)) : List ResourceId :=
  path.flatMap fun p => between Job.invoked p.1 p.2

def late (path : List (Traffic × Traffic)) : List ResourceId :=
  path.flatMap fun p => gaveUpLate p.1 p.2

end Traffic

end Stockroom.Pool
