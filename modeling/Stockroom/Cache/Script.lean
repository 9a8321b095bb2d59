import Stockroom.Cache.Loaded
import Stockroom.Failure

/-!
What runs around a cache, as data: the operations that anybody can carry out on it at one
instant, and the scripts that loaders follow. A script is finite, so an execution that never
waits for anything ends.
-/

namespace Stockroom.Cache
set_option autoImplicit false

/-- An operation on a cache that waits for nothing. -/
inductive Op (V : Type) where
  /-- Write a value, with the default lifetime if none is given. -/
  | set (name : String) (value : V) (ttl : Option Duration := none)
  | get (name : String)
  | contains (name : String)
  | isLoading (name : String)
  | delete (name : String)
  | purge
  | purgeShard (index : Nat)
deriving DecidableEq, Repr

inductive Reply (V : Type) where
  | done
  /-- Nothing found, or what was found, which may be "no value". -/
  | found (entry : Option (Option V))
  | told (result : Bool)
  | counted (number : Nat)
deriving DecidableEq, Repr

/-- The steps of a loader. -/
inductive Script (V : Type) where
  | done (product : Loaded V)
  /-- End with what the last `fetch` got, without a lifetime of its own. -/
  | relay
  | fail (text : String)
  | crash (text : String)
  /-- Wait until the gate is open. -/
  | await (gate : String) (rest : Script V)
  /-- Operate on the cache; a crash of the operation is a crash of the loader. -/
  | act (op : Op V) (rest : Script V)
  /-- Load a name through the cache with a loader of its own, and fail with its failure. -/
  | fetch (name : String) (tag : Option String) (loader : Script V) (rest : Script V)
deriving Inhabited

/-- A loader: its script, under a tag by which its invocations are told apart. -/
structure Loader (V : Type) where
  tag : Option String := none
  script : Script V
deriving Inhabited

inductive Cause where
  | miss
  | refresh
deriving DecidableEq, Repr

inductive SaveMode where
  | ok
  | fail
  | crash
deriving DecidableEq, Repr

/-- What the callbacks around a cache did, in order. -/
inductive Event (V : Type) where
  | invoked (name : String) (tag : Option String) (cause : Cause)
  | restore (name : String) (found : Bool)
  | save (name : String) (value : V)
  | saveEnd (name : String) (mode : SaveMode)
deriving DecidableEq, Repr

end Stockroom.Cache
