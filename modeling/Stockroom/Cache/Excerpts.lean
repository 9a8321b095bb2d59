import Stockroom.Cache.Deeds

/-!
A run as it concerns one name. All that is asked under other names is left out of it, with whatever
comes of that: their callers, their executions and the turns of these. The rest happens in the same
order, and the callers that remain are numbered anew.
-/

namespace Stockroom.Cache
set_option autoImplicit false

variable {V : Type}

/-- The name that an operation is about; to empty partitions is about none. -/
def Op.name? : Op V → Option String
  | .set name .. | .get name | .contains name | .isLoading name | .delete name => some name
  | .purge | .purgeShard _ => none

/-- The loader uses the cache under this name only, and so does any loader that it hands on. -/
def Script.KeepsTo (name : String) : Script V → Prop
  | .done _ | .relay | .fail _ | .crash _ => True
  | .await _ rest => rest.KeepsTo name
  | .act op rest => op.name? = some name ∧ rest.KeepsTo name
  | .fetch other _ loader rest => other = name ∧ loader.KeepsTo name ∧ rest.KeepsTo name

/-- Whoever is to be loaded has a loader that keeps to it. -/
def Move.KeepsToNames : Move V → Prop
  | .outside (.request name loader _) => loader.script.KeepsTo name
  | _ => True

def Task.name : Task V → String
  | .request _ name .. | .waiter _ name .. | .save name _ | .saving name _ => name
  | .start call .. | .restoring call _ | .paused call .. | .fetching call .. => call.key

def Task.isOf (name : String) (t : Task V) : Bool := t.name == name

def Event.name : Event V → String
  | .invoked name .. | .restore name _ | .save name _ | .saveEnd name _ => name

/-- The place of a task among those of the name; none for a task of another name. -/
def placeOf? (name : String) (tasks : List (Task V)) (i : Nat) : Option Nat :=
  if tasks[i]?.any (Task.isOf name) then some ((tasks.take i).countP (Task.isOf name)) else none

/-- The command as it is given where only the callers listed are there; none if it is not given. -/
def Command.own? (name : String) (callers : List Nat) : Command V → Option (Command V)
  | .perform op inRuntime =>
    if op.name?.all (· == name) then some (.perform op inRuntime) else none
  | .request other loader token =>
    if other = name then some (.request other loader token) else none
  | .dropCaller caller =>
    if caller ∈ callers then some (.dropCaller (callers.idxOf caller)) else none
  | command => some command

/-- The caller that comes for the name. -/
def World.comer? (name : String) (w : World V) : Command V → Option Nat
  | .request other _ _ => if other = name then some w.callers else none
  | _ => none

/-- What can be seen of a name in a run. -/
inductive Sign (V : Type) where
  | answered (op : Op V) (reply : Except Crash (Reply V))
  /-- An execution was started. -/
  | began (cause : Cause)

namespace Moment

/-- The move as it is made where nothing happens under other names; none if it is not made. While a
loader runs, nothing else can be done. -/
def own? (name : String) (callers : List Nat) (m : Moment V) (move : Move V) : Option (Move V) :=
  match m.running, move with
  | some r, .goOn => if r.call.key = name then some .goOn else none
  | none, .outside command => (command.own? name callers).map .outside
  | none, .archive archive => some (.archive archive)
  | none, .wake i => (placeOf? name m.world.parked i).map .wake
  | none, .run i => (placeOf? name m.world.ready i).map .run
  | _, _ => none

def comer? (name : String) (m : Moment V) : Move V → Option Nat
  | .outside command => if m.running.isNone then m.world.comer? name command else none
  | _ => none

/-- The answer to an operation on the name from outside. -/
def answer? (name : String) (m : Moment V) : Move V → Option (Sign V)
  | .outside (.perform op inRuntime) =>
    if m.running.isNone && op.name? == some name then
      some (.answered op (m.world.perform inRuntime op).1)
    else none
  | _ => none

/-- The load or the refresh of the name that the next move starts, by the counters. -/
def begun (name : String) (m : Moment V) (move : Move V) : List (Sign V) :=
  let before := m.world.cache.counters
  let after := (m.step move).world.cache.counters
  if (m.offer? move).map Prod.fst = some name then
    (if before.loads < after.loads then [.began .miss] else []) ++
      (if before.refreshes < after.refreshes then [.began .refresh] else [])
  else []

def sign (name : String) (m : Moment V) (move : Move V) : List (Sign V) :=
  (m.answer? name move).toList ++ m.begun name move

/-- What a run shows of the name, in order. -/
def signs (name : String) : Moment V → List (Move V) → List (Sign V)
  | _, [] => []
  | m, move :: moves => m.sign name move ++ (m.step move).signs name moves

/-- What is written under the name in these moves fits. -/
def Fitting (name : String) : Moment V → List (Move V) → Prop
  | _, [] => True
  | m, move :: moves =>
    m.deed? move ≠ some (.forfeit name) ∧ (m.step move).Fitting name moves

instance decidableFitting [DecidableEq V] (name : String) :
    (m : Moment V) → (moves : List (Move V)) → Decidable (m.Fitting name moves)
  | _, [] => .isTrue trivial
  | m, move :: moves =>
    have := decidableFitting name (m.step move) moves
    inferInstanceAs (Decidable (_ ∧ _))

end Moment

/-- A run so far, the callers that came for the name, and the moves that concern it. -/
structure Excerpt (V : Type) where
  whole : Moment V
  callers : List Nat := []
  moves : List (Move V) := []

namespace Excerpt

def next (name : String) (x : Excerpt V) (move : Move V) : Excerpt V where
  whole := x.whole.step move
  callers := x.callers ++ (x.whole.comer? name move).toList
  moves := x.moves ++ (x.whole.own? name x.callers move).toList

end Excerpt

/-- What a run comes to when all that is asked under other names is left out. -/
def excerpt (name : String) (m : Moment V) (moves : List (Move V)) : Excerpt V :=
  moves.foldl (Excerpt.next name) { whole := m }

end Stockroom.Cache
