import Stockroom.Cache.Settle

/-!
Commands to a world from outside: operations on the cache, callers that come and go, gates and
tokens, the archive, and the clock. After the commands of one round the world settles; so unless
a callback waits, everything a round has started is over before the next one.
-/

namespace Stockroom.Cache
set_option autoImplicit false

inductive Command (V : Type) where
  /-- Operate on the cache, inside or outside the runtime that saves run in. -/
  | perform (op : Op V) (inRuntime : Bool := true)
  | request (name : String) (loader : Loader V) (token : Option String := none)
  | cancel (token : String)
  | dropCaller (caller : Nat)
  /-- Open a gate for good. -/
  | openGate (gate : String)
  /-- Change how the archive behaves; what is not given stays. -/
  | setArchive (gated : Option Bool) (saveMode : Option SaveMode) (restoreCrashes : Option Bool)
  /-- Let waiting saves go. -/
  | release (count : Nat)
  /-- Have restores wait, or not. -/
  | holdRestores (held : Bool)
  /-- Let waiting restores go. -/
  | releaseRestores (count : Nat)
  | deposit (name : String) (value : V)
  | advance (time : Duration)

inductive Answer (V : Type) where
  | replied (reply : Reply V)
  | crashed (crash : Crash)
  | started (caller : Nat)
  | released (count : Nat)
  | done

namespace World

variable {V : Type}

/-- Let at most `count` tasks go that pass the test, in the order of arrival, settling after
each. The answer is how many there were. -/
def releaseUpTo (p : Task V → Bool) : (count : Nat) → World V → Nat × World V
  | 0, w => (0, w)
  | count + 1, w =>
    if w.parked.any p then
      let r := releaseUpTo p count (w.wakeFirst p).settle
      (r.1 + 1, r.2)
    else (0, w)

/-- Carry out a command. Nothing settles, but for the releases that a gate or the archive
makes. -/
def act (w : World V) : Command V → Answer V × World V
  | .perform op inRuntime =>
    match w.perform inRuntime op with
    | (.error crash, w') => (.crashed crash, w')
    | (.ok reply, w') => (.replied reply, w')
  | .request name loader token =>
    (.started w.callers,
      { w with callers := w.callers + 1 }.spawn (.request w.callers name loader token))
  | .cancel token =>
    (.done, { w with fired := w.fired ++ [token] }.wake (Task.awaitsToken token))
  | .dropCaller caller =>
    (.done, { w with
      ready := w.ready.filter fun t => t.caller? != some caller
      parked := w.parked.filter fun t => t.caller? != some caller })
  | .openGate gate =>
    let p := Task.awaitsGate (V := V) gate
    let r := releaseUpTo p (w.parked.countP p) { w with opened := w.opened ++ [gate] }
    (.released r.1, r.2)
  | .setArchive gated saveMode restoreCrashes =>
    (.done, { w with
      archive.gated := gated.getD w.archive.gated
      archive.saveMode := saveMode.getD w.archive.saveMode
      archive.restoreCrashes := restoreCrashes.getD w.archive.restoreCrashes })
  | .release count => let r := releaseUpTo Task.awaitsRelease count w; (.released r.1, r.2)
  | .holdRestores held => (.done, { w with archive.holdsRestores := held })
  | .releaseRestores count =>
    let r := releaseUpTo Task.awaitsRestore count w
    (.released r.1, r.2)
  | .deposit name value =>
    (.done, { w with archive.data := w.archive.data.insert name value })
  | .advance d => (.done, { w with now := w.now.advance d })

def actAll (w : World V) : List (Command V) → List (Answer V) × World V
  | [] => ([], w)
  | c :: rest =>
    let r := w.act c
    let s := actAll r.2 rest
    (r.1 :: s.1, s.2)

/-- One round: the commands, then settling. -/
def round (w : World V) (commands : List (Command V)) : List (Answer V) × World V :=
  let r := w.actAll commands
  (r.1, r.2.settle)

/-- The events since an earlier state of the same world, in the order in which they happened. -/
def eventsSince (w before : World V) : List (Event V) :=
  (w.events.take (w.events.length - before.events.length)).reverse

/-- The callers that have finished since an earlier state of the same world, by number. -/
def finishedSince (w before : World V) : List (Nat × Outcome V) :=
  (w.results.take (w.results.length - before.results.length)).mergeSort fun a b => a.1 ≤ b.1

/-- The callers that were started and have not finished, dropped ones included. -/
def unfinished (w : World V) : Nat := w.callers - w.results.length

/-- The content of the archive, by name. -/
def stored (w : World V) : List (String × V) :=
  w.archive.data.toList

end World

end Stockroom.Cache
