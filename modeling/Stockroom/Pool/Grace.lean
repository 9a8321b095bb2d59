import Stockroom.Pool.Runs

/-!
How long a resource waits that was given up. Each job is known by its place among all jobs, and by
the operation that it was started as. Where nothing comes between what a job does but while it waits
for a callback, a resource in pending close stays as it is until the pool is closed, the resource is
given up again, or a sweep finds that its time is over.
-/

namespace Stockroom.Pool
set_option autoImplicit false

/-- It has something to do, and nothing to wait for. -/
def Job.Busy (j : Job) : Prop := j.todo ≠ [] ∧ j.waitsFor = none

instance (j : Job) : Decidable j.Busy := inferInstanceAs (Decidable (_ ∧ _))

namespace Traffic

/-- A job that is busy goes on, or none does. So only one is at a time, and nothing but time comes
between. -/
def Uninterrupted (t u : Traffic) : Prop :=
  t.jobs = u.jobs ∨ ∀ p ∈ t.jobs.zip u.jobs, p.1.Busy → p.1 ≠ p.2

instance (t u : Traffic) : Decidable (t.Uninterrupted u) :=
  inferInstanceAs (Decidable (_ = _ ∨ ∀ p ∈ t.jobs.zip u.jobs, p.1.Busy → p.1 ≠ p.2))

/-- The job at this place carries out this instruction. -/
def Does (i : Nat) (instr : Instr) (t u : Traffic) : Prop :=
  ∃ j rest, t.jobs[i]? = some j ∧ j.todo = instr :: rest ∧ u.jobs[i]? ≠ some j

/-- When the resource was given up, while it is pending close. -/
def since? (t : Traffic) (r : ResourceId) : Option Instant := t.state.sets.pendingClose.get? r

/-- Whether what was given up at `since` has waited too long. -/
def isOver (t : Traffic) (since : Instant) : Bool :=
  Sets.isOver t.state.limits.maxUsage since t.now

variable (path : List (Traffic × Traffic)) (i : Nat) (r : ResourceId)

/-- The job at this place was started as this operation. -/
def StartedAs (op : Operation) : Prop :=
  ∃ p ∈ path, p.1.jobs.length = i ∧ p.2.jobs = p.1.jobs ++ [op.job]

/-- The resource is discarded, or reclaimed and not taken back. -/
def GivesUp (t u : Traffic) : Prop :=
  (StartedAs path i (.discard r) ∨ StartedAs path i .reclaim) ∧ Does i (.dispose r .delayed) t u

/-- The job at this place, a sweep, took the resource when its time was over. -/
def Took : Prop :=
  StartedAs path i .sweep ∧ ∃ p ∈ path, Does i .sweep p.1 p.2 ∧
    ∃ since, p.1.since? r = some since ∧ p.1.isOver since = true

/-- The resource goes on waiting, with the time at which it was given up. It is not lent, and
nothing changes it but a sweep that had taken it before it was given up again. -/
structure Waits (since : Instant) (t u : Traffic) : Prop where
  pending : u.since? r = some since
  unlent : r ∉ between Job.handedOut t u
  untouched : u.state.stock[r]? = t.state.stock[r]? ∨ ∃ i, Took path i r ∧ Does i (.destroy r) t u

/-- What can end the wait of a resource. -/
inductive Released (since : Instant) (t u : Traffic) : Prop where
  | closed (i : Nat) : StartedAs path i .close → Does i .close t u → Released since t u
  /-- It is discarded again: it waits from now on, and nothing else has changed. -/
  | renewed (i : Nat) : StartedAs path i (.discard r) → Does i (.dispose r .delayed) t u →
      u.state = { t.state with sets := t.state.sets.giveUp r t.now } → Released since t u
  | swept (i : Nat) : StartedAs path i .sweep → Does i .sweep t u → t.isOver since = true →
      Released since t u

/-- What the sweep at this place does: it takes what has waited too long and leaves the rest as it
is. What it took, and nothing else, it destroys before it ends. -/
structure Sweeps (mayCrash : Callback → Prop) (i : Nat) (t u : Traffic) : Prop where
  takes : ∀ r, u.since? r = (t.since? r).filter fun since => !t.isOver since
  leaves : u.state = { t.state with
    sets := { t.state.sets with pendingClose := u.state.sets.pendingClose } }
  destroys : ∀ path v, Run mayCrash u path v → ∀ p ∈ path, ∀ r, Does i (.destroy r) p.1 p.2 →
    ∃ since, t.since? r = some since ∧ t.isOver since = true
  ends : ∀ path v j, Run mayCrash u path v → v.jobs[i]? = some j → j.todo = [] →
    ∀ r since, t.since? r = some since → t.isOver since = true → v.state.stock.isDestroyed r = true

end Traffic

end Stockroom.Pool
