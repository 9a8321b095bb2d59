import Stockroom.Backend.Basic
import Stockroom.Table

/-!
A store of texts that is far away: it may be unreachable, it may turn writes down, and it never
expires anything. Every access is logged, whether it gets through or not.
-/

namespace Stockroom
set_option autoImplicit false

/-- How a remote store behaves. -/
inductive Remote.Mode where
  | up
  /-- Every access fails. -/
  | down
  /-- Writes are turned down without being stored. -/
  | reject
deriving DecidableEq, Repr, Inhabited

inductive Remote.Access where
  | get (key : String)
  | set (key : String)
  | del (key : String)
deriving DecidableEq, Repr

/-- A remote store: its texts with the lifetimes they were written with. -/
structure Remote where
  content : Table String (String × Duration) := .empty
  mode : Remote.Mode := .up
  accesses : List Remote.Access := []

namespace Remote

def log (r : Remote) (a : Access) : Remote := { r with accesses := r.accesses ++ [a] }

def refused : Fault := .failed (.backend "connection refused")

def get (key : String) : Act Remote (Option String) := fun r =>
  let r := r.log (.get key)
  match r.mode with
  | .down => (.error refused, r)
  | _ => (.ok ((r.content.get? key).map Prod.fst), r)

def set (key text : String) (ttl : Duration) : Act Remote Bool := fun r =>
  let r := r.log (.set key)
  match r.mode with
  | .down => (.error refused, r)
  | .reject => (.ok false, r)
  | .up => (.ok true, { r with content := r.content.insert key (text, ttl) })

def del (key : String) : Act Remote Bool := fun r =>
  let r := r.log (.del key)
  match r.mode with
  | .down => (.error refused, r)
  | _ => (.ok (r.content.contains key), { r with content := r.content.erase key })

end Remote

/-- An operation on a part of a state. -/
def Act.on {σ τ α : Type} (p : Part σ τ) (act : Act τ α) : Act σ α := fun s =>
  let r := act (p.get s)
  (r.1, p.set r.2 s)

def Backend.remote {σ : Type} (p : Part σ Remote) : Backend σ String where
  get key := Act.on p (Remote.get key)
  set key text ttl := Act.on p (Remote.set key text ttl)
  del key := Act.on p (Remote.del key)

end Stockroom
