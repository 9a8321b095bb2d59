import Stockroom.Cache.World

/-!
A cache that nobody loads through: values are set, read and removed, the entries are counted and
weighed, and time passes. How much a bounded cache may answer less than an unbounded one is said
errand by errand.
-/

namespace Stockroom.Cache
set_option autoImplicit false

variable {V : Type}

inductive Errand (V : Type) where
  /-- Write a value, inside or outside the runtime that saves run in. -/
  | set (name : String) (value : V) (ttl : Option Duration := none) (inRuntime : Bool := true)
  | get (name : String)
  | contains (name : String)
  | delete (name : String)
  | purge
  /-- How many entries there are. -/
  | len
  /-- What the entries weigh. -/
  | size
  | advance (time : Duration)

namespace World

def serve (w : World V) : Errand V → Except Crash (Reply V) × World V
  | .set name value ttl inRuntime => w.perform inRuntime (.set name value ttl)
  | .get name => w.perform true (.get name)
  | .contains name => w.perform true (.contains name)
  | .delete name => w.perform true (.delete name)
  | .purge => w.perform true .purge
  | .len => (.ok (.counted w.cache.size), w)
  | .size => (w.cache.totalBytes.map fun n => .counted n.toNat, w)
  | .advance time => (.ok .done, { w with now := w.now.advance time })

/-- Errands one after the other, with the answer to each. -/
def serveAll (w : World V) : List (Errand V) → List (Except Crash (Reply V)) × World V
  | [] => ([], w)
  | e :: rest =>
    let r := w.serve e
    let later := r.2.serveAll rest
    (r.1 :: later.1, later.2)

end World

/-- What the value weighs that the errand sets. -/
def Errand.weight (weigh : String → V → Except Crash UInt64) : Errand V → Nat
  | .set name value .. => (weigh name value).toOption.elim 0 UInt64.toNat
  | _ => 0

/-- What the values weigh together that are set. -/
def Errand.weights (weigh : String → V → Except Crash UInt64) : List (Errand V) → Nat
  | [] => 0
  | e :: errands => e.weight weigh + weights weigh errands

/-- An answer beside that of a cache which has never evicted anything: what is missing may not be
found, but nothing else is found and nothing more is there. -/
def Errand.MayLose (full answer : Except Crash (Reply V)) : Errand V → Prop
  | get _ => answer = full ∨ answer = .ok (.found none)
  | contains _ | delete _ => answer = .ok (.told true) → full = .ok (.told true)
  | len | size => True
  | set .. | purge | advance _ => answer = full

end Stockroom.Cache
