import Stockroom.Failure
import Stockroom.Namespace
import Stockroom.Time

/-!
Key/value stores with a lifetime for every entry. A store is three operations over a state that
other stores may share. That a key is missing is an answer, not a failure.
-/

namespace Stockroom
set_option autoImplicit false

/-- An operation on a state, which may fail or crash. -/
abbrev Act (σ α : Type) := σ → Except Fault α × σ

/-- A store of values over the states `σ`. -/
structure Backend (σ V : Type) where
  get : (key : String) → Act σ (Option V)
  /-- Store a value. The answer says whether the store accepted it. -/
  set : (key : String) → V → (ttl : Duration) → Act σ Bool
  /-- Remove a key. The answer says whether it was there. -/
  del : (key : String) → Act σ Bool

/-- A part of a state that can be read and replaced. -/
structure Part (σ α : Type) where
  get : σ → α
  set : α → σ → σ

def Part.modify {σ α : Type} (p : Part σ α) (f : α → α) (s : σ) : σ := p.set (f (p.get s)) s

/-- The whole of a state. -/
def Part.whole {σ : Type} : Part σ σ := ⟨id, fun a _ => a⟩

/-- A store whose keys are all qualified with a namespace. -/
def Backend.namespaced {σ V : Type} (space : String) (b : Backend σ V) : Backend σ V where
  get key := b.get (namespacedKey space key)
  set key value ttl := b.set (namespacedKey space key) value ttl
  del key := b.del (namespacedKey space key)

end Stockroom
