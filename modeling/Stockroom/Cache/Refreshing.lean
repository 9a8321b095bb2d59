import Stockroom.Cache.Executions

/-!
Refreshes. Whoever asks for a name and hits its entry is answered from the entry at once. If the
entry is close to its end, a refresh of it is started on the way: an execution like any other, that
begins when it comes to its turn and that others may join who miss the name by then.
-/

namespace Stockroom
set_option autoImplicit false

/-- What the end of an execution adds to the count of failures. -/
def Progress.failures {V : Type} : Progress V → Nat
  | published (.error _) => 1
  | _ => 0

namespace Cache

variable {V : Type}

namespace Moment

/-- Whoever hands a loader to the cache with this move has the value after it: a caller is told it,
and is never told anything else, and a loader goes on with it. -/
inductive Serves (m : Moment V) (value : Option V) : Move V → Prop where
  | caller (i caller : Nat) (name : String) (loader : Loader V) (token : Option String) :
      m.running = none → m.world.ready[i]? = some (.request caller name loader token) →
      (∀ later outcome, (caller, outcome) ∈ ((m.step (.run i)).run later).world.results ↔
        outcome = .ok value) → Serves m value (.run i)
  | loader (r : Running V) (name : String) (tag : Option String) (loader rest : Script V) :
      m.running = some r → r.script = .fetch name tag loader rest →
      (m.step .goOn).running = some { r with script := rest, last := value } →
      Serves m value .goOn

/-- The entry of the name is to be loaded again: it expires, it is close enough to its end, and
nobody is loading the name. -/
structure Due (m : Moment V) (name : String) (e : Entry V) : Prop where
  mortal : e.ttl.isZero = false
  near : m.world.cache.config.nearExpiry (e.expiresAt.since m.world.now) e.ttl = true
  idle : m.world.cache.isLoading name = false

/-- The move starts a refresh of the name with the loader, and no other execution. -/
structure StartsRefresh (m : Moment V) (move : Move V) (name : String) (loader : Loader V) : Prop
    where
  fresh : ∃ call, call.key = name ∧ call ∉ m.live ∧
    .start call .refresh loader ∈ (m.step move).world.tasks ∧
    (m.step move).execs.Perm ((call, .refresh) :: m.execs)
  counted : (m.step move).world.cache.counters.refreshes = m.world.cache.counters.refreshes + 1

/-- The move starts no execution and ends none. -/
structure StartsNothing (m : Moment V) (move : Move V) : Prop where
  execs : (m.step move).execs.Perm m.execs
  started : (m.step move).world.started = m.world.started

end Moment

end Cache

end Stockroom
