import Stockroom.Namespace
import Stockroom.Pool.Job

/-!
Several pools together, with scripted callbacks: the names and handles under which pools and
resources are held, a registry of pools, asynchronous loans that wait for their turn or at a
gate, and the tickers of background maintenance. All pools draw on one stock, since a resource
can be handed to a pool that did not make it. How operations run is said in
`Stockroom.Pool.Play`, how loans take turns in `Stockroom.Pool.Turns`, and how time passes in
`Stockroom.Pool.Upkeep`.
-/

namespace Stockroom.Pool
set_option autoImplicit false

/-- How a pool is set up, besides its callbacks. -/
structure Config where
  limits : Limits := .choose
  checks : Bool := false
  destructs : Bool := true
  checkInterval : Duration := .ofSeconds 60
  reclaimInterval : Duration := .ofSeconds 10
  sweepInterval : Duration := .ofSeconds 10
  /-- Whether loans that last too long are taken back. -/
  reclaims : Bool := true
  /-- Without a runtime at hand there is no background maintenance. -/
  inRuntime : Bool := true

/-- What a scripted callback does: some operations, and then it ends like this. -/
structure Scripted (α : Type) where
  ops : List α := []
  reply : Reply := .ok
deriving Inhabited

/-- The operations on a scene. A `name` is a name of a pool, a `handle` one of a resource. -/
inductive Op where
  | create (name : String) (config : Config)
  | forget (name : String)
  | limits (name : String)
  | get (name handle : String)
  | put (name handle : String)
  | discard (name handle : String)
  | exec (name : String) (body : Scripted Op)
  | execAsync (name : String) (gate : Option String) (reply : Reply)
  | abort (task : Nat)
  | openGate (gate : String)
  | close (name : String)
  | isClosed (name : String)
  | info (handle : String)
  | same (handle other : String)
  | describe (handle : String)
  /-- Queue what the factory does next, and perhaps what it does when the queue is empty. -/
  | scriptFactory (name : String) (next : List (Scripted Op)) (default : Option (Scripted Op))
  | scriptCheck (name : String) (serial : Nat) (act : Scripted Op)
  | scriptDestructor (name : String) (act : Scripted Op)
  | register (space key name : String)
  | lookUp (space key : String) (bind : String)
  /-- Build and register a pool unless one is registered. -/
  | lookUpOrBuild (space key : String) (bind : String) (name : String) (config : Config)
  | unregister (space key : String)
  | closeAll
  | countRegistered

inductive Answer where
  | done
  | resource (r : ResourceId)
  | told (result : Bool)
  | failed (failure : Failure)
  /-- The body of a loan failed with this text. -/
  | bodyFailed (text : String)
  | crashed (crash : Crash)
  | noHandle
  | noPool
  | started (task : Nat)
  | released (count : Nat)
  | limits (limits : Limits)
  | info (r : ResourceId) (resource : Resource)
  | text (text : String)
  | found (closed : Option Bool)
  | built (isNew closed : Bool)
  | counted (number : Nat)

/-- What callbacks did. -/
inductive Event where
  | create (r : ResourceId)
  | createFailed (pool : String)
  | check (r : ResourceId)
  | destroy (r : ResourceId) (pool : String)
  | exec (r : ResourceId)
  | nested (op : Op) (answer : Answer)

/-- What the callbacks of the pools that are built under one name do. -/
structure Scripts where
  queue : List (Scripted Op) := []
  /-- What the factory does when the queue is empty. -/
  default : Scripted Op := {}
  checks : Table Nat (Scripted Op) := .empty
  destructor : Scripted Op := {}

/-- A kind of background maintenance. -/
inductive Chore where
  | check
  | reclaim
  | sweep
deriving DecidableEq, Repr

/-- Maintenance of a pool that is due at multiples of its period. -/
structure Ticker where
  pool : Nat
  chore : Chore
  due : Instant
  period : Duration

structure Loan where
  task : Nat
  pool : Nat
  gate : Option String
  reply : Reply
  job : Job := .exec

/-- What is done to a registry of pools. -/
inductive Deed where
  /-- A pool is registered, perhaps one that is closed, in the place of the previous one if there
  is one. -/
  | register (key : String) (p : Nat) (closed : Bool) (previous : Option Nat)
  | remove (key : String) (p : Nat)
  | removeAll (ps : List Nat)
deriving DecidableEq, Repr

structure Scene where
  now : Instant := .start
  stock : Stock := []
  /-- All pools ever built. Their stock is that of the scene. -/
  pools : List State := []
  scripts : Table String Scripts := .empty
  /-- The pools held under names, by their place among all pools. -/
  names : Table String Nat := .empty
  handles : Table String ResourceId := .empty
  registry : Table String Nat := .empty
  /-- All that was done to the registry. -/
  deeds : List Deed := []
  tickers : List Ticker := []
  /-- Loans that can go on, first come first served. -/
  ready : List Loan := []
  /-- Loans that wait at their gates, in the order of arrival. -/
  waiting : List Loan := []
  opened : List String := []
  aborted : List Nat := []
  tasks : Nat := 0
  events : List (Instant × Event) := []
  /-- Asynchronous loans that ended with an answer. -/
  finished : List (Nat × Answer) := []

def Resource.label (r : Resource) : String := r.origin ++ "#" ++ toString r.serial

def Resource.describe (r : Resource) : String :=
  "Resource \x7b id: \"ID\", payload: " ++ r.label ++ ", destroyed: " ++
    (if r.destroyed then "true" else "false") ++ " \x7d"

def Loan.isOf (task : Nat) (l : Loan) : Bool := l.task == task

def Loan.waitsAt (gate : String) (l : Loan) : Bool := l.gate == some gate

namespace Chore

def job : Chore → Job
  | check => .checkIdle
  | reclaim => .reclaimOverdue
  | sweep => .sweepPendingClose

end Chore

namespace Config

/-- The least period of a ticker is one millisecond. -/
def period (d : Duration) : Duration := ⟨max d.nanos 1000000⟩

def tickers (c : Config) (pool : Nat) (now : Instant) : List Ticker :=
  let ticker (chore : Chore) (interval : Duration) : Ticker :=
    { pool, chore, due := now.advance (period interval), period := period interval }
  if c.inRuntime then
    (if c.checks then [ticker .check c.checkInterval] else []) ++
      (if c.reclaims then [ticker .reclaim c.reclaimInterval] else []) ++
      [ticker .sweep c.sweepInterval]
  else []

end Config

namespace Scene

def log (s : Scene) (e : Event) : Scene := { s with events := s.events ++ [(s.now, e)] }

/-! ### Pools -/

/-- The state of a pool, with the stock of the scene. -/
def state? (s : Scene) (p : Nat) : Option State :=
  s.pools[p]?.map fun state => { state with stock := s.stock }

def setState (s : Scene) (p : Nat) (state : State) : Scene :=
  { s with stock := state.stock, pools := s.pools.set p { state with stock := [] } }

def isClosed (s : Scene) (p : Nat) : Bool := (s.pools[p]?.map fun state => state.sets.closed).getD true

def isHeld (s : Scene) (p : Nat) : Bool :=
  s.names.values.contains p || s.registry.values.contains p ||
    (s.ready ++ s.waiting).any fun l => l.pool == p

def build (s : Scene) (name : String) (c : Config) : Nat × Scene :=
  let p := s.pools.length
  (p, { s with
    pools := s.pools ++ [{ name, limits := c.limits, destructs := c.destructs }]
    names := s.names.insert name p
    tickers := s.tickers ++ c.tickers p s.now })

def status? (s : Scene) (p : Nat) : Option (Stats × Bool) :=
  s.pools[p]?.map fun state => (state.sets.stats, state.sets.closed)

def nameOf (s : Scene) (p : Nat) : String := (s.pools[p]?.map State.name).getD ""

/-! ### The registry -/

def enroll (s : Scene) (key : String) (p : Nat) : Scene :=
  { s with
    registry := s.registry.insert key p
    deeds := s.deeds ++ [.register key p (s.isClosed p) (s.registry.get? key)] }

def strike (s : Scene) (key : String) (p : Nat) : Scene :=
  { s with registry := s.registry.erase key, deeds := s.deeds ++ [.remove key p] }

def strikeAll (s : Scene) : Scene :=
  { s with registry := .empty, deeds := s.deeds ++ [.removeAll s.registry.values] }

/-! ### Scripts -/

/-- The scripts of a name. Until something else is said, every callback succeeds. -/
def scriptsOf (s : Scene) (name : String) : Scripts := (s.scripts.get? name).getD {}

def modifyScripts (s : Scene) (name : String) (f : Scripts → Scripts) : Scene :=
  { s with scripts := s.scripts.insert name (f (s.scriptsOf name)) }

/-- Take the next action of a factory. -/
def nextAction (s : Scene) (p : Nat) : Scripted Op × Scene :=
  let scripts := s.scriptsOf (s.nameOf p)
  match scripts.queue with
  | [] => (scripts.default, s)
  | a :: rest => (a, s.modifyScripts (s.nameOf p) fun x => { x with queue := rest })

def checkAction (s : Scene) (p : Nat) (r : ResourceId) : Scripted Op :=
  (s.stock[r]?.bind fun x => (s.scriptsOf (s.nameOf p)).checks.get? x.serial).getD {}

def destructorAction (s : Scene) (p : Nat) : Scripted Op := (s.scriptsOf (s.nameOf p)).destructor

/-! ### Loans -/

/-- Start an asynchronous loan. It begins when its turn comes. -/
def start (s : Scene) (p : Nat) (gate : Option String) (reply : Reply) : Nat × Scene :=
  (s.tasks, { s with
    tasks := s.tasks + 1
    ready := s.ready ++ [{ task := s.tasks, pool := p, gate, reply }] })

def wake (s : Scene) (p : Loan → Bool) : Scene :=
  { s with ready := s.ready ++ s.waiting.filter p, waiting := s.waiting.filter fun l => !p l }

def wakeFirst (s : Scene) (p : Loan → Bool) : Scene :=
  match s.waiting.find? p with
  | some l => { s with ready := s.ready ++ [l], waiting := s.waiting.eraseP p }
  | none => s

/-- Drop the loan of a task that has been started. A loan that waits is unwound when its turn
comes. -/
def abort (s : Scene) (task : Nat) : Scene :=
  if task < s.tasks then { s with aborted := s.aborted ++ [task] }.wake (Loan.isOf task) else s

/-- A gate that was opened stays open. Without a gate there is nothing to wait for. -/
def isOpen (s : Scene) (gate : Option String) : Bool := gate.all fun g => s.opened.contains g

end Scene

end Stockroom.Pool
