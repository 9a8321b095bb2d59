import Stockroom.Cache.Executions

/-!
That a name has no value is kept like a value. For a while, and unless somebody writes or removes
what is kept under the name, whoever asks for it hits that, and no load starts.
-/

namespace Stockroom.Cache
set_option autoImplicit false

variable {V : Type}

/-- The deed writes or removes what is kept under the name. -/
def Deed.Disturbs (c : Cache V) (name : String) : Deed V → Prop
  | look _ => False
  | write n _ | forfeit n | delete n => n = name
  | purge => True
  | purgeShard index => index = c.shardIndex name

namespace Moment

def Undisturbed (name : String) : Moment V → List (Move V) → Prop
  | _, [] => True
  | m, move :: moves =>
    (∀ d, m.deed? move = some d → ¬ d.Disturbs m.world.cache name) ∧
      (m.step move).Undisturbed name moves

/-- It is kept that the name has no value, and a caller or a loader that asks for it hits that. -/
structure Dampened (m : Moment V) (name : String) : Prop where
  kept : ∃ found, (m.world.cache.lookup m.world.now name).1 = some found ∧ found.value = none
  callers : ∀ i caller loader token, m.running = none →
    m.world.ready[i]? = some (.request caller name loader token) →
    (caller, .ok none) ∈ (m.step (.run i)).world.results ∧
      (m.step (.run i)).world.cache.counters.loads = m.world.cache.counters.loads
  loaders : ∀ (r : Running V) tag loader rest, m.running = some r →
    r.script = .fetch name tag loader rest →
    (m.step .goOn).running = some { r with script := rest, last := none } ∧
      (m.step .goOn).world.cache.counters.loads = m.world.cache.counters.loads

/-- The name stays dampened until the time has passed, unless it is disturbed. -/
def DampenedFor (m : Moment V) (name : String) (time : Duration) : Prop :=
  ∀ later, m.Undisturbed name later →
    (m.run later).world.now.nanos ≤ m.world.now.nanos + time.nanos → (m.run later).Dampened name

/-- In one of the moves the execution publishes that there is no value, and from then on its name is
dampened for the time. -/
def Empties (m : Moment V) (call : Call) (moves : List (Move V)) (time : Duration) : Prop :=
  ∃ first move last, moves = first ++ move :: last ∧ call ∈ (m.run first).live ∧
    (call, .published (.ok none)) ∈ ((m.run first).step move).ended ∧
    ((m.run first).step move).DampenedFor call.key time

end Moment

end Stockroom.Cache
