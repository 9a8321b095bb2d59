import Stockroom.Cache.Executions
import Stockroom.Cache.Saving

/-!
Writes that crash. Before a write changes anything the value is weighed and its deadline worked out,
and either may crash; a weight may also turn out not to fit, when the old entry is gone. Whoever was
to make the write goes down with it; an execution leaves its call without an outcome then.
-/

namespace Stockroom.Cache
set_option autoImplicit false

variable {V : Type}

/-- Why a write would crash at this instant. -/
inductive Unwritable (c : Cache V) (now : Instant) (name : String) (value : Option V)
    (ttl : Duration) : Crash → Prop where
  | weigher (crash : Crash) : c.config.weightOf name value = .error crash →
      Unwritable c now name value ttl crash
  | deadline (weight : UInt64) : c.config.weightOf name value = .ok weight →
      now.after? ttl = none → Unwritable c now name value ttl .deadlineOverflow

namespace Moment

/-- The next move is to store the result of an execution, and the write crashes. -/
def Unwinds (m : Moment V) (move : Move V) (y : Yield V) : Prop :=
  m.yield? move = some y ∧
    ∃ crash, m.world.cache.Unwritable m.world.now y.call.key y.value y.ttl crash

/-- The move ends the execution without an outcome and does nothing else. -/
structure Retires (m : Moment V) (move : Move V) (call : Call) : Prop where
  cache : (m.step move).world.cache =
    { m.world.cache with flights := m.world.cache.flights.settle call .abandoned }
  saves : (m.step move).world.saves.Perm m.world.saves
  outstanding : (m.step move).world.outstanding = m.world.outstanding
  savesEnded : (m.step move).world.savesEnded = m.world.savesEnded
  archive : (m.step move).world.archive = m.world.archive
  now : (m.step move).world.now = m.world.now
  results : (m.step move).world.results = m.world.results
  running : (m.step move).running = none
  live : m.live.Perm (call :: (m.step move).live)
  ended : (m.step move).ended = m.ended ++ [(call, .abandoned)]
  /-- Whoever waited for the execution is to look at its slot again. -/
  woken : ∀ t ∈ (m.step move).world.parked, t.awaitsSlot call.slot = false

/-- Of those who ask for the name in these moves nobody starts an execution. -/
def Unstarted (name : String) : Moment V → List (Move V) → Prop
  | _, [] => True
  | m, move :: moves =>
    (∀ loader, m.offer? move = some (name, loader) →
      (m.step move).world.started = m.world.started) ∧ (m.step move).Unstarted name moves

/-- The move starts a load of the name, with a call of its own. -/
def LoadsAfresh (m : Moment V) (move : Move V) (name : String) (loader : Loader V) : Prop :=
  ∃ call, call.key = name ∧ call ∉ m.live ∧ call ∈ (m.step move).live ∧
    .start call .miss loader ∈ (m.step move).world.tasks ∧
    (m.step move).world.cache.counters.loads = m.world.cache.counters.loads + 1

end Moment

end Stockroom.Cache
