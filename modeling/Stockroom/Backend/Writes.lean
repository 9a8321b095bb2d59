import Stockroom.Backend.Desk
import Stockroom.Cache.Deeds

/-!
Single writes at a desk, whatever was asked there before. The store of texts may accept a write,
turn it down or fail, as it likes.
-/

namespace Stockroom
set_option autoImplicit false

/-- A store of texts in which a write does not crash. It holds what it accepts, and a write makes no
difference to the other keys, accepted or not. -/
structure Backend.Takes {τ : Type} (far : Backend τ String) (content : τ → String → Option String) :
    Prop where
  not_crashed : ∀ key text ttl s crash, (far.set key text ttl s).1 ≠ .error (.crashed crash)
  accepted : ∀ key text ttl s, (far.set key text ttl s).1 = .ok true →
    content (far.set key text ttl s).2 key = some text
  others : ∀ key text ttl s other, other ≠ key →
    content (far.set key text ttl s).2 other = content s other

namespace Desk

variable {τ V : Type}

/-- The desks that are come to from a new local cache, by requests in any space, as time passes, and
as others use the local cache and the stores of texts. -/
inductive Reached [Wire V] (config : Cache.Config V) : Desk τ V → Prop where
  | start (now : Instant) (wall : UInt64) (far : τ) : Reached config ⟨now, wall, .new config, far⟩
  | asked {d : Desk τ V} (before : Reached config d) (space : String)
      (far : Option (Backend τ String)) (request : Tiered.Request V) :
      Reached config ((Backend.tiered (tiered space far)).serve request d).2
  | await {d : Desk τ V} (before : Reached config d) (pause : Duration) (wall : UInt64) :
      Reached config (d.await pause wall)
  | near {d : Desk τ V} (before : Reached config d) (deed : Cache.Deed V) :
      Reached config { d with near := d.near.carry d.now (some deed) }
  | far {d : Desk τ V} (before : Reached config d) (far : τ) : Reached config { d with far }

/-- The same time is shown and the same is held in both tiers, but perhaps under one key. -/
structure SameBut (content : τ → String → Option String) (key : String) (d d' : Desk τ V) :
    Prop where
  now : d'.now = d.now
  wall : d'.wall = d.wall
  near : ∀ other, other ≠ key → d'.near.peek? other = d.near.peek? other
  far : ∀ other, other ≠ key → content d'.far other = content d.far other

end Desk

end Stockroom
