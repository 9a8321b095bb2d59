import Stockroom.Pool.Grace
import Stockroom.Pool.Scene

/-!
A pool that is maintained. Its tickers start their chores when they are due, and time does not pass
over what is due or over a job that is busy: jobs may wait for callbacks as long as they like, and
callbacks may have operations done, fail or crash. A pool is settled where nothing is left to do
until time passes.
-/

namespace Stockroom.Pool
set_option autoImplicit false

/-- The ticker has ticked and is due one period later. -/
def Ticker.ticked (k : Ticker) : Ticker := { k with due := k.due.advance k.period }

namespace Traffic

/-- The chore is one more job in progress. -/
def begin (t : Traffic) (chore : Chore) : Traffic := { t with jobs := t.jobs ++ [chore.job] }

def builtAt (name : String) (config : Config) (stock : Stock) (now : Instant) : Traffic :=
  { Traffic.new name config.limits config.destructs stock with now }

/-- What can have become of a pool that was built at this time, and of its tickers. While it is
open every ticker ticks at its due time. -/
inductive Tended (mayCrash : Callback → Prop) (name : String) (config : Config) (stock : Stock)
    (built : Instant) : List (Traffic × Traffic) → Traffic → List Ticker → Prop where
  | built :
      Tended mayCrash name config stock built
        [(.new name config.limits config.destructs stock, builtAt name config stock built)]
        (builtAt name config stock built) (config.tickers 0 built)
  | next {path : List (Traffic × Traffic)} {t u : Traffic} {tickers : List Ticker} :
      Tended mayCrash name config stock built path t tickers → Next mayCrash t u →
      t.Undisturbed u → u.now = t.now →
      Tended mayCrash name config stock built (path ++ [(t, u)]) u tickers
  | tick {path : List (Traffic × Traffic)} {t : Traffic} (before after : List Ticker) (k : Ticker) :
      Tended mayCrash name config stock built path t (before ++ k :: after) →
      t.state.sets.closed = false → k.due ≤ t.now →
      Tended mayCrash name config stock built (path ++ [(t, t.begin k.chore)]) (t.begin k.chore)
        (before ++ k.ticked :: after)
  | pass {path : List (Traffic × Traffic)} {t : Traffic} {tickers : List Ticker}
      (later : Instant) :
      Tended mayCrash name config stock built path t tickers → t.now ≤ later →
      (∀ j ∈ t.jobs, ¬ j.Busy) →
      (t.state.sets.closed = false → ∀ k ∈ tickers, t.now < k.due ∧ later ≤ k.due) →
      Tended mayCrash name config stock built (path ++ [(t, { t with now := later })])
        { t with now := later } tickers

/-- Nothing is left to do until time passes. -/
structure Settled (t : Traffic) (tickers : List Ticker) : Prop where
  idle : ∀ j ∈ t.jobs, ¬ j.Busy
  ticked : ∀ k ∈ tickers, t.now < k.due

/-- The last step on the way at which the resource was handed out. -/
def LastHandedOut (path : List (Traffic × Traffic)) (r : ResourceId) (p : Traffic × Traffic) :
    Prop :=
  ∃ before after, path = before ++ p :: after ∧ r ∈ between Job.handedOut p.1 p.2 ∧
    ∀ q ∈ after, r ∉ between Job.handedOut q.1 q.2

/-- The last step on the way at which the resource was discarded or reclaimed. -/
def LastGivenUp (path : List (Traffic × Traffic)) (r : ResourceId) (p : Traffic × Traffic) : Prop :=
  ∃ before after, path = before ++ p :: after ∧ (∃ i, GivesUp path i r p.1 p.2) ∧
    ∀ q ∈ after, ¬ ∃ i, Does i (.dispose r .delayed) q.1 q.2

end Traffic

end Stockroom.Pool
