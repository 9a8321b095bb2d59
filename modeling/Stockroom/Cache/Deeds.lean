import Stockroom.Cache.Moments

/-!
What moves do to the entries of a cache. Whatever else a move does, it does at most one thing to
them: the operation that somebody carries out, the look-up of a call for a value, or the write of a
result that an execution is about to publish. The registry, the permits and the counters of loads
have no part in it.
-/

namespace Stockroom
set_option autoImplicit false

/-- The counts that belong to the entries. -/
def Counters.ofEntries (n : Counters) : Counters :=
  { n with loads := 0, loadFailures := 0, refreshes := 0, persistDropped := 0 }

namespace Cache

variable {V : Type}

/-- What can be done to the entries. -/
inductive Deed (V : Type) where
  | look (name : String)
  | write (name : String) (e : Entry V)
  /-- Take out the entry of a name for one that turns out not to fit. -/
  | forfeit (name : String)
  | delete (name : String)
  | purge
  | purgeShard (index : Nat)
deriving DecidableEq, Repr

def Deed.isLook : Deed V → Bool
  | look _ => true
  | _ => false

def Deed.isWrite : Deed V → Bool
  | write .. => true
  | _ => false

/-- The deed takes an entry out and counts nothing. -/
def Deed.loses (c : Cache V) : Deed V → Bool
  | forfeit name => (c.peek? name).isSome
  | _ => false

def carry (c : Cache V) (now : Instant) : Option (Deed V) → Cache V
  | none => c
  | some (.look name) => (c.lookup now name).2
  | some (.write name e) => c.add name e
  | some (.forfeit name) => c.forfeit name
  | some (.delete name) => (c.delete name).2
  | some .purge => c.purge
  | some (.purgeShard index) => (c.purgeShard index).2

/-- A cache reduced to what deeds read and change. -/
def store (c : Cache V) : Cache V :=
  { c with counters := c.counters.ofEntries, flights := {}, permits := 0 }

/-- A result that is to be stored and then published. -/
structure Yield (V : Type) where
  call : Call
  value : Option V
  ttl : Duration
  /-- Whether the archive is to have it too. -/
  keep : Bool
deriving DecidableEq

namespace World

def writing? (w : World V) (name : String) (value : Option V) (ttl : Duration) :
    Option (Deed V) :=
  match w.cache.entry w.now name value ttl with
  | .ok e => some (if w.cache.Fits name e then .write name e else .forfeit name)
  | .error _ => none

theorem writing?_of_error {w : World V} {name : String} {value : Option V} {ttl : Duration}
    {crash : Crash} (h : w.cache.entry w.now name value ttl = .error crash) :
    w.writing? name value ttl = none := by
  unfold writing?
  rw [h]

theorem writing?_of_ok {w : World V} {name : String} {value : Option V} {ttl : Duration}
    {e : Entry V} (h : w.cache.entry w.now name value ttl = .ok e) :
    w.writing? name value ttl = some (if w.cache.Fits name e then .write name e else .forfeit name) := by
  unfold writing?
  rw [h]

/-- What the archive gives back for a call. -/
def restored? (w : World V) (call : Call) : Option (Yield V) :=
  if w.archive.restoreCrashes then none
  else w.archive.data[call.key]?.map fun v => ⟨call, some v, w.cache.config.defaultTtl, false⟩

end World

def Op.deed? (w : World V) : Op V → Option (Deed V)
  | .set name value ttl => w.writing? name (some value) (ttl.getD w.cache.config.defaultTtl)
  | .get name => some (.look name)
  | .contains _ | .isLoading _ => none
  | .delete name => some (.delete name)
  | .purge => some .purge
  | .purgeShard index => some (.purgeShard index)

def Op.isGet : Op V → Bool
  | .get _ => true
  | _ => false

def Yield.deed? (w : World V) (y : Yield V) : Option (Deed V) :=
  w.writing? y.call.key y.value y.ttl

def Task.yield? (w : World V) : Task V → Option (Yield V)
  | .start call .miss _ =>
    if w.cache.config.persists && !w.archive.holdsRestores then w.restored? call else none
  | .restoring call _ => w.restored? call
  | _ => none

namespace Running

/-- What the loader ends with, when that is its next step. -/
def product? (r : Running V) : Option (Loaded V) :=
  match r.script with
  | .done product => some product
  | .relay => some (.ofOption r.last)
  | _ => none

/-- A refresh that finds no value has nothing to store. -/
def yield? (w : World V) (r : Running V) : Option (Yield V) :=
  r.product?.bind fun product =>
    if r.cause = .refresh ∧ product.value.isNone then none
    else some ⟨r.call, product.value,
      product.lifetime w.cache.config.defaultTtl w.cache.config.emptyTtl, true⟩

def op? (r : Running V) : Option (Op V) :=
  match r.script with
  | .act op _ => some op
  | _ => none

end Running

namespace World

/-- The deed of a move, from the operation, the call for a value and the result in it. -/
def deed? (w : World V) :
    Option (Op V) → Option (String × Loader V) → Option (Yield V) → Option (Deed V)
  | some op, _, _ => op.deed? w
  | none, some (name, _), _ => some (.look name)
  | none, none, some y => y.deed? w
  | none, none, none => none

end World

namespace Moment

/-- The operation that the next move carries out. -/
def op? (m : Moment V) : Move V → Option (Op V)
  | .outside (.perform op _) => if m.running.isNone then some op else none
  | .goOn => m.running.bind Running.op?
  | _ => none

/-- The result that the next move is to store. -/
def yield? (m : Moment V) : Move V → Option (Yield V)
  | .run i => if m.running.isNone then m.world.ready[i]?.bind (Task.yield? m.world) else none
  | .goOn => m.running.bind (Running.yield? m.world)
  | _ => none

def deed? (m : Moment V) (move : Move V) : Option (Deed V) :=
  m.world.deed? (m.op? move) (m.offer? move) (m.yield? move)

/-- How many moves of a run pass a test, each at the moment at which it is made. -/
def count (p : Moment V → Move V → Bool) : Moment V → List (Move V) → Nat
  | _, [] => 0
  | m, move :: moves => (if p m move then 1 else 0) + (m.step move).count p moves

end Moment

end Cache

end Stockroom
