import Stockroom.Cache.World

/-!
How a task runs. Polling a task lets it go on until it ends or has to wait for something; nothing
else happens in between. A caller that misses leads the load of its name or follows the one in
flight; a caller that hits may start a refresh. An execution stores what it loaded in the same
step in which it publishes it, and a crash anywhere in it leaves its call without an outcome.
-/

namespace Stockroom.Cache
set_option autoImplicit false

/-- A loader that runs: what it has left to do, and what its last `fetch` got. -/
structure Running (V : Type) where
  call : Call
  cause : Cause
  script : Script V
  last : Option V := none

/-- How a caller stands after its look-up. -/
inductive Started (V : Type) where
  | hit (value : Option V)
  | waiting (slot : Nat)

namespace World

variable {V : Type}

/-! ### Callers -/

/-- Start a refresh if the entry that was hit is close to its end and nothing is in flight for
its name. -/
def considerRefresh (w : World V) (name : String) (found : Snapshot V) (loader : Loader V) :
    World V :=
  match found.remaining with
  | none => w
  | some remaining =>
    if w.cache.config.nearExpiry remaining found.ttl then
      match w.cache.flights.tryLead name with
      | (none, _) => w
      | (some call, flights) =>
        { w with
          cache.flights := flights
          cache.counters.refreshes := w.cache.counters.refreshes + 1 }.spawn
          (.start call .refresh loader)
    else w

/-- Join the load of a name that was missed. -/
def joinLoad (w : World V) (name : String) (loader : Loader V) : Nat × World V :=
  match w.cache.flights.join name with
  | (.follower slot, _) => (slot, w)
  | (.leader call, flights) =>
    (call.slot,
      { w with
        cache.flights := flights
        cache.counters.loads := w.cache.counters.loads + 1 }.spawn (.start call .miss loader))

def getOrLoad (w : World V) (name : String) (loader : Loader V) : Started V × World V :=
  match w.cache.lookup w.now name with
  | (some found, cache) => (.hit found.value, { w with cache }.considerRefresh name found loader)
  | (none, cache) => let r := { w with cache }.joinLoad name loader; (.waiting r.1, r.2)

theorem getOrLoad_eq (w : World V) (name : String) (loader : Loader V) :
    w.getOrLoad name loader =
      let w' := { w with cache := (w.cache.lookup w.now name).2 }
      match (w.cache.lookup w.now name).1 with
      | some found => (.hit found.value, w'.considerRefresh name found loader)
      | none => (.waiting (w'.joinLoad name loader).1, (w'.joinLoad name loader).2) := by
  unfold getOrLoad
  rcases w.cache.lookup w.now name with ⟨_ | found, c⟩ <;> rfl

def checkSlot (w : World V) (caller : Nat) (name : String) (slot : Nat)
    (token : Option String) : World V :=
  match (w.cache.flights.progress slot).answer name (w.isFired token) with
  | some outcome => w.finish caller outcome
  | none => w.park (.waiter caller name slot token)

/-! ### Executions -/

def failLoad (w : World V) (call : Call) (text : String) : World V :=
  { w with cache.counters.loadFailures := w.cache.counters.loadFailures + 1 }.complete call
    (.error (.load text))

/-- Write a result and publish it, or leave the call without an outcome if the write crashes. -/
def storeAndPublish (w : World V) (call : Call) (value : Option V) (ttl : Duration)
    (keep : Bool) : World V :=
  match w.write call.key value ttl keep true with
  | (some _, w') => w'.abandon call
  | (none, w') => w'.complete call (.ok value)

theorem storeAndPublish_eq (w : World V) (call : Call) (value : Option V) (ttl : Duration)
    (keep : Bool) :
    w.storeAndPublish call value ttl keep =
      let r := w.write call.key value ttl keep true
      r.2.settleCall call (if r.1.isSome then .abandoned else .published (.ok value)) := by
  unfold storeAndPublish
  rcases w.write call.key value ttl keep true with ⟨_ | crash, w'⟩ <;> rfl

/-- The loader has produced something. A refresh that finds no value leaves the entry alone. -/
def conclude (w : World V) (call : Call) (cause : Cause) (product : Loaded V) : World V :=
  match cause, product.value with
  | .refresh, none => w.complete call (.ok none)
  | _, value =>
    w.storeAndPublish call value
      (product.lifetime w.cache.config.defaultTtl w.cache.config.emptyTtl) true

/-- Carry out one step of a loader. It goes on unless it has ended or has to wait. -/
def carryOut (w : World V) (r : Running V) : World V × Option (Running V) :=
  match r.script with
  | .done product => (w.conclude r.call r.cause product, none)
  | .relay => (w.conclude r.call r.cause (.ofOption r.last), none)
  | .fail text => (w.failLoad r.call text, none)
  | .crash _ => (w.abandon r.call, none)
  | .await gate rest =>
    if w.opened.contains gate then (w, some { r with script := rest })
    else (w.park (.paused r.call r.cause gate r.last rest), none)
  | .act op rest =>
    match w.perform true op with
    | (.error _, w') => (w'.abandon r.call, none)
    | (.ok _, w') => (w', some { r with script := rest })
  | .fetch name tag loader rest =>
    match w.getOrLoad name ⟨tag, loader⟩ with
    | (.hit value, w') => (w', some { r with script := rest, last := value })
    | (.waiting slot, w') => (w'.park (.fetching r.call r.cause name slot rest), none)

theorem carryOut_act (w : World V) (call : Call) (cause : Cause) (op : Op V) (rest : Script V)
    (last : Option V) :
    w.carryOut ⟨call, cause, .act op rest, last⟩ =
      match (w.perform true op).1 with
      | .error _ => ((w.perform true op).2.abandon call, none)
      | .ok _ => ((w.perform true op).2, some ⟨call, cause, rest, last⟩) := by
  simp only [carryOut]
  rcases w.perform true op with ⟨_ | _, w'⟩ <;> rfl

theorem carryOut_fetch (w : World V) (call : Call) (cause : Cause) (name : String)
    (tag : Option String) (loader rest : Script V) (last : Option V) :
    w.carryOut ⟨call, cause, .fetch name tag loader rest, last⟩ =
      let r := w.getOrLoad name ⟨tag, loader⟩
      match r.1 with
      | .hit value => (r.2, some ⟨call, cause, rest, value⟩)
      | .waiting slot => (r.2.park (.fetching call cause name slot rest), none) := by
  simp only [carryOut]
  rcases w.getOrLoad name ⟨tag, loader⟩ with ⟨_ | _, w'⟩ <;> rfl

/-- Let a loader run until it ends or waits; `last` is what its last `fetch` got. -/
def runScript (call : Call) (cause : Cause) : Script V → Option V → World V → World V
  | .done product, _, w => w.conclude call cause product
  | .relay, last, w => w.conclude call cause (.ofOption last)
  | .fail text, _, w => w.failLoad call text
  | .crash _, _, w => w.abandon call
  | .await gate rest, last, w =>
    if w.opened.contains gate then runScript call cause rest last w
    else w.park (.paused call cause gate last rest)
  | .act op rest, last, w =>
    match w.perform true op with
    | (.error _, w') => w'.abandon call
    | (.ok _, w') => runScript call cause rest last w'
  | .fetch name tag loader rest, _, w =>
    match w.getOrLoad name ⟨tag, loader⟩ with
    | (.hit value, w') => runScript call cause rest value w'
    | (.waiting slot, w') => w'.park (.fetching call cause name slot rest)

/-- What is left to do after an instant of a task: to let the loader run, if there is one. -/
def finishRun : World V × Option (Running V) → World V
  | (w, none) => w
  | (w, some r) => runScript r.call r.cause r.script r.last w

def invoke (w : World V) (call : Call) (cause : Cause) (loader : Loader V) :
    World V × Option (Running V) :=
  (w.log (.invoked call.key loader.tag cause), some ⟨call, cause, loader.script, none⟩)

/-- Ask the archive first. What it restores is stored with the default lifetime and not saved
again. -/
def restore (w : World V) (call : Call) (loader : Loader V) : World V × Option (Running V) :=
  let found := w.archive.data[call.key]?
  let w' := w.log (.restore call.key found.isSome)
  if w.archive.restoreCrashes then (w'.abandon call, none)
  else
    match found with
    | some v => (w'.storeAndPublish call (some v) w.cache.config.defaultTtl false, none)
    | none => w'.invoke call .miss loader

/-- Begin an execution. Only a load after a miss asks the archive. -/
def begin (w : World V) (call : Call) (cause : Cause) (loader : Loader V) :
    World V × Option (Running V) :=
  match cause with
  | .refresh => w.invoke call cause loader
  | .miss =>
    if w.cache.config.persists then
      if w.archive.holdsRestores then (w.park (.restoring call loader), none)
      else w.restore call loader
    else w.invoke call cause loader

/-- A loader that waits for another name looks at that name's slot. -/
def checkFetch (w : World V) (call : Call) (cause : Cause) (name : String) (slot : Nat)
    (rest : Script V) : World V × Option (Running V) :=
  match (w.cache.flights.progress slot).answer name false with
  | some (.ok value) => (w, some ⟨call, cause, rest, value⟩)
  | some (.error failure) => (w.failLoad call failure.message, none)
  | none => (w.park (.fetching call cause name slot rest), none)

/-! ### Saves -/

/-- A save ends, the way the archive is set at that moment, and gives its permit back. -/
def endSave (w : World V) (name : String) (value : V) : World V :=
  let w' := { w.log (.saveEnd name w.archive.saveMode) with cache := w.cache.endSave }
  match w.archive.saveMode with
  | .ok => { w' with archive.data := w.archive.data.insert name value }
  | _ => w'

def beginSave (w : World V) (name : String) (value : V) : World V :=
  let w' := w.log (.save name value)
  if w.archive.gated then w'.park (.saving name value) else w'.endSave name value

/-! ### Scheduling -/

/-- Let a task go on that was taken out of the ready queue, up to where a loader runs. -/
def enter (w : World V) : Task V → World V × Option (Running V)
  | .request caller name loader token =>
    match w.getOrLoad name loader with
    | (.hit value, w') => (w'.finish caller (.ok value), none)
    | (.waiting slot, w') => (w'.checkSlot caller name slot token, none)
  | .waiter caller name slot token => (w.checkSlot caller name slot token, none)
  | .start call cause loader => w.begin call cause loader
  | .restoring call loader => w.restore call loader
  | .paused call cause gate last rest =>
    if w.opened.contains gate then (w, some ⟨call, cause, rest, last⟩)
    else (w.park (.paused call cause gate last rest), none)
  | .fetching call cause name slot rest => w.checkFetch call cause name slot rest
  | .save name value => (w.beginSave name value, none)
  | .saving name value => (w.endSave name value, none)

theorem enter_request (w : World V) (caller : Nat) (name : String) (loader : Loader V)
    (token : Option String) :
    w.enter (.request caller name loader token) =
      let r := w.getOrLoad name loader
      match r.1 with
      | .hit value => (r.2.finish caller (.ok value), none)
      | .waiting slot => (r.2.checkSlot caller name slot token, none) := by
  simp only [enter]
  rcases w.getOrLoad name loader with ⟨_ | _, w'⟩ <;> rfl

def poll (w : World V) (t : Task V) : World V := finishRun (w.enter t)

def runTask (w : World V) (i : Nat) : World V :=
  match w.ready[i]? with
  | some t => { w with ready := w.ready.eraseIdx i }.poll t
  | none => w

end World

end Stockroom.Cache
