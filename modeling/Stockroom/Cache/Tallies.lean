import Stockroom.Cache.Deeds

/-!
What the counts of loads and refreshes stand for. An execution is counted when it is started, before
anything of it has run; its loader is invoked later, if it is. A load that asks the archive first may
end there: the archive has the value, or it crashes.
-/

namespace Stockroom.Cache
set_option autoImplicit false

variable {V : Type}

/-- Whether a loader is invoked for the cause. -/
def Event.invokesFor (cause : Cause) : Event V → Bool
  | .invoked _ _ c => c == cause
  | _ => false

/-- Whether this is an execution for the cause whose loader has not been invoked yet. -/
def Task.pendingFor (cause : Cause) : Task V → Bool
  | .start _ c _ => c == cause
  | .restoring .. => Cause.miss == cause
  | _ => false

namespace World

def invocations (w : World V) (cause : Cause) : Nat := w.events.countP (Event.invokesFor cause)

def pendingFor (w : World V) (cause : Cause) : Nat := w.tasks.countP (Task.pendingFor cause)

/-- Asked for the name, the archive leaves nothing to load: it has the value, or it crashes. -/
def answers (w : World V) (name : String) : Bool :=
  w.archive.restoreCrashes || w.archive.data[name]?.isSome

end World

/-- The execution that the task is asks the archive when it runs, and does not get to its loader. -/
def Task.bypasses (w : World V) : Task V → Bool
  | .start call .miss _ =>
    w.cache.config.persists && !w.archive.holdsRestores && w.answers call.key
  | .restoring call _ => w.answers call.key
  | _ => false

/-- The loader that waits in the task returns an error when it runs: what it waited for has failed. -/
def Task.fails (w : World V) : Task V → Bool
  | .fetching _ _ name slot _ =>
    match (w.cache.flights.progress slot).answer name false with
    | some (.error _) => true
    | _ => false
  | _ => false

/-- The loader returns an error with its next step. -/
def Running.fails (r : Running V) : Bool :=
  match r.script with
  | .fail _ => true
  | _ => false

namespace Moment

/-- The next move is the turn of an execution that ends at the archive. -/
def bypasses (m : Moment V) : Move V → Bool
  | .run i => m.running.isNone && m.world.ready[i]?.any (Task.bypasses m.world)
  | _ => false

/-- With the next move a loader returns an error. -/
def fails (m : Moment V) : Move V → Bool
  | .run i => m.running.isNone && m.world.ready[i]?.any (Task.fails m.world)
  | .goOn => m.running.any Running.fails
  | _ => false

end Moment

end Stockroom.Cache
