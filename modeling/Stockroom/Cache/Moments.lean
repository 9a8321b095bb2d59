import Stockroom.Cache.Session

/-!
A world move by move. Whatever can happen next may happen: a command from outside, a task that
looks again whether it can go on, a task of the ready queue that runs, whichever it is. A loader
that runs is not interrupted, but it is seen between any two of its steps. A round of commands with
its settling is one such run among many.
-/

namespace Stockroom.Cache
set_option autoImplicit false

variable {V : Type}

/-- What can happen next. -/
inductive Move (V : Type) where
  /-- A command, without any settling. -/
  | outside (command : Command V)
  /-- The archive has become what it is now. -/
  | archive (archive : Archive V)
  /-- The parked task at this position becomes ready. -/
  | wake (i : Nat)
  /-- The ready task at this position runs. -/
  | run (i : Nat)
  /-- The loader that runs does its next step. -/
  | goOn

namespace World

/-- What a command does at once. Opening a gate and releasing what waits at the archive lets tasks
go one at a time: each is woken by a move of its own. -/
def effect (w : World V) : Command V → World V
  | .openGate gate => { w with opened := w.opened ++ [gate] }
  | .release _ | .releaseRestores _ => w
  | command => (w.act command).2

theorem effect_perform (w : World V) (op : Op V) (inRuntime : Bool) :
    w.effect (.perform op inRuntime) = (w.perform inRuntime op).2 := by
  simp only [effect, act]
  split <;> rename_i he <;> rw [he]

def wakeAt (w : World V) (i : Nat) : World V :=
  match w.parked[i]? with
  | some t => { w with ready := w.ready ++ [t], parked := w.parked.eraseIdx i }
  | none => w

/-- Let the task at a position of the ready queue go on, up to where a loader runs. -/
def enterAt (w : World V) (i : Nat) : World V × Option (Running V) :=
  match w.ready[i]? with
  | some t => { w with ready := w.ready.eraseIdx i }.enter t
  | none => (w, none)

def tasks (w : World V) : List (Task V) := w.ready ++ w.parked

/-- The calls of the executions that do not run at the moment. -/
def calls (w : World V) : List Call := w.tasks.filterMap Task.call?

/-- The executions whose call is alive: of the loader that runs, and of the tasks. -/
def live (w : World V) (running : Option (Running V)) : List Call :=
  (running.map Running.call).toList ++ w.calls

/-- All executions ever started. -/
def started (w : World V) : Nat := w.cache.counters.loads + w.cache.counters.refreshes

end World

/-- A world, the loader that runs in it, and the executions that have ended, each with what it
left in its slot. -/
structure Moment (V : Type) where
  world : World V
  running : Option (Running V) := none
  ended : List (Call × Progress V) := []

namespace Moment

def new (config : Config V) : Moment V := { world := .new config }

def live (m : Moment V) : List Call := m.world.live m.running

/-- What a move leads to. -/
def next (m : Moment V) : Move V → World V × Option (Running V)
  | .goOn =>
    match m.running with
    | some r => m.world.carryOut r
    | none => (m.world, none)
  | move =>
    match m.running, move with
    | none, .outside command => (m.world.effect command, none)
    | none, .archive archive => ({ m.world with archive }, none)
    | none, .wake i => (m.world.wakeAt i, none)
    | none, .run i => m.world.enterAt i
    | r, _ => (m.world, r)

/-- Make a move and take down the executions that it ended. -/
def step (m : Moment V) (move : Move V) : Moment V :=
  let (world, running) := m.next move
  let gone := m.live.filter fun call => call ∉ world.live running
  { world, running
    ended := m.ended ++ gone.map fun call => (call, world.cache.flights.progress call.slot) }

def run (m : Moment V) (moves : List (Move V)) : Moment V := moves.foldl step m

theorem run_append (m : Moment V) (before after : List (Move V)) :
    m.run (before ++ after) = (m.run before).run after := List.foldl_append

/-- Nothing runs, and nothing can run until something comes from outside. -/
def AtRest (m : Moment V) : Prop := m.running = none ∧ m.world.ready = []

/-- The loader that the next move hands to the cache, with the name that it is for. -/
def offer? (m : Moment V) : Move V → Option (String × Loader V)
  | .run i =>
    match m.running, m.world.ready[i]? with
    | none, some (.request _ name loader _) => some (name, loader)
    | _, _ => none
  | .goOn =>
    match m.running with
    | some ⟨_, _, .fetch name tag loader _, _⟩ => some (name, ⟨tag, loader⟩)
    | _ => none
  | _ => none

end Moment

end Stockroom.Cache
