import Stockroom.Pool.Scene

/-!
How operations run. An operation drives its job to the end; where the job waits for a callback,
the script of that callback is carried out, operations and all, and the job goes on with its
reply. A crash of an operation inside a callback is a crash of the callback. Scripts may call
for each other without end, so how deep they nest is bounded. Asynchronous loans are only
started, woken and aborted here: their turn comes when the operation is over.
-/

namespace Stockroom.Pool
set_option autoImplicit false

/-- How deep operations may nest. -/
def Scene.depth : Nat := 1000000

/-- The crash of operations that nest too deep. -/
def Crash.tooDeep : Crash := ⟨"operations nest too deep"⟩

/-- The answer to an operation that only has to be carried out. -/
def Job.outcome (j : Job) : Answer :=
  match j.result with
  | .crashed crash => .crashed crash
  | .failed failure => .failed failure
  | .bodyFailed text => .bodyFailed text
  | .got r => .resource r
  | .done => .done

namespace Scene

/-- Log how a factory ended. What it made is the next resource of the stock. -/
def logMade (s : Scene) (p : Nat) : Reply → Scene
  | .ok => s.log (.create s.stock.length)
  | .fail _ => s.log (.createFailed (s.nameOf p))
  | .crash _ => s

mutual

/-- Carry out the operations of a callback, logging each, up to the first that crashes. Unless
one does, the callback ends with its own reply. -/
def nest : (fuel : Nat) → (act : Scripted Op) → Scene → Reply × Scene
  | 0, _, s => (.crash Crash.tooDeep.text, s)
  | fuel + 1, act, s =>
    match act.ops with
    | [] => (act.reply, s)
    | op :: rest =>
      match perform fuel op s with
      | (.crashed crash, s) => (.crash crash.text, s)
      | (answer, s) => nest fuel { act with ops := rest } (s.log (.nested op answer))

def call : (fuel : Nat) → (p : Nat) → (body : Scripted Op) → Callback → Scene → Reply × Scene
  | 0, _, _, _, s => (.crash Crash.tooDeep.text, s)
  | fuel + 1, p, body, callback, s =>
    match callback with
    | .make _ | .makeInstead _ =>
      let next := s.nextAction p
      let r := nest fuel next.1 next.2
      (r.1, r.2.logMade p r.1)
    | .check r => nest fuel (s.checkAction p r) (s.log (.check r))
    | .destructor r => nest fuel (s.destructorAction p) (s.log (.destroy r (s.nameOf p)))
    | .body _ => nest fuel body s

/-- Drive a job of the pool `p` until it ends, or until it comes to a body if there is none. -/
def drive : (fuel : Nat) → (p : Nat) → (body : Option (Scripted Op)) → Job → Scene → Job × Scene
  | 0, _, _, j, s => (j.crash Crash.tooDeep.text, s)
  | fuel + 1, p, body, j, s =>
    match j.todo with
    | [] => (j, s)
    | _ :: _ =>
      match j.waitsFor, body with
      | some (.body _), none => (j, s)
      | some callback, _ =>
        let r := call fuel p (body.getD {}) callback s
        match r.2.state? p with
        | none => (j, r.2)
        | some state =>
          let next := j.reply r.2.now state r.1
          drive fuel p body next.2 (r.2.setState p next.1)
      | none, _ =>
        match s.state? p with
        | none => (j, s)
        | some state =>
          let next := j.step s.now state
          drive fuel p body next.2 (s.setState p next.1)

def onPool : (fuel : Nat) → (name : String) → (body : Scripted Op) → Job → Scene → Answer × Scene
  | 0, _, _, _, s => (.crashed Crash.tooDeep, s)
  | fuel + 1, name, body, j, s =>
    match s.names.get? name with
    | none => (.noPool, s)
    | some p => let r := drive fuel p (some body) j s; (r.1.outcome, r.2)

/-- Close pools one after the other, until one crashes. -/
def closeEach : (fuel : Nat) → List Nat → Scene → Answer × Scene
  | 0, _, s => (.crashed Crash.tooDeep, s)
  | _ + 1, [], s => (.done, s)
  | fuel + 1, p :: rest, s =>
    let r := drive fuel p (some {}) .close s
    match r.1.outcome with
    | .crashed crash => (.crashed crash, r.2)
    | _ => closeEach fuel rest r.2

def perform : (fuel : Nat) → Op → Scene → Answer × Scene
  | 0, _, s => (.crashed Crash.tooDeep, s)
  | fuel + 1, op, s =>
    match op with
    | .create name config => (.done, (s.build name config).2)
    | .forget name => (.told (s.names.contains name), { s with names := s.names.erase name })
    | .limits name =>
      match (s.names.get? name).bind s.state? with
      | none => (.noPool, s)
      | some state => (.limits state.limits, s)
    | .get name handle =>
      let r := onPool fuel name {} .get s
      match r.1 with
      | .resource x => (.resource x, { r.2 with handles := r.2.handles.insert handle x })
      | answer => (answer, r.2)
    | .put name handle =>
      match s.names.get? name, s.handles.get? handle with
      | none, _ => (.noPool, s)
      | some _, none => (.noHandle, s)
      | some _, some r => onPool fuel name {} (.put r) s
    | .discard name handle =>
      match s.names.get? name, s.handles.get? handle with
      | none, _ => (.noPool, s)
      | some _, none => (.noHandle, s)
      | some _, some r => onPool fuel name {} (.discard r) s
    | .exec name body => onPool fuel name body .exec s
    | .execAsync name gate reply =>
      match s.names.get? name with
      | none => (.noPool, s)
      | some p => let r := s.start p gate reply; (.started r.1, r.2)
    | .abort task => (.done, s.abort task)
    | .openGate gate =>
      (.released (s.waiting.countP (Loan.waitsAt gate)),
        { s with opened := s.opened ++ [gate] }.wake (Loan.waitsAt gate))
    | .close name => onPool fuel name {} .close s
    | .isClosed name =>
      match s.names.get? name with
      | none => (.noPool, s)
      | some p => (.told (s.isClosed p), s)
    | .info handle =>
      match (s.handles.get? handle).bind fun r => s.stock[r]?.map fun x => (r, x) with
      | none => (.noHandle, s)
      | some (r, x) => (.info r x, s)
    | .same handle other =>
      match s.handles.get? handle, s.handles.get? other with
      | some a, some b => (.told (a == b), s)
      | _, _ => (.noHandle, s)
    | .describe handle =>
      match (s.handles.get? handle).bind fun r => s.stock[r]? with
      | none => (.noHandle, s)
      | some x => (.text x.describe, s)
    | .scriptFactory name next default =>
      (.done, s.modifyScripts name fun x =>
        { x with queue := x.queue ++ next, default := default.getD x.default })
    | .scriptCheck name serial act =>
      (.done, s.modifyScripts name fun x => { x with checks := x.checks.insert serial act })
    | .scriptDestructor name act =>
      (.done, s.modifyScripts name fun x => { x with destructor := act })
    | .register space key name =>
      match s.names.get? name with
      | none => (.noPool, s)
      | some p =>
        let full := namespacedKey space key
        let previous := s.registry.get? full
        closeEach fuel previous.toList (s.enroll full p)
    | .lookUp space key bind =>
      match s.registry.get? (namespacedKey space key) with
      | none => (.found none, s)
      | some p => (.found (some (s.isClosed p)), { s with names := s.names.insert bind p })
    | .lookUpOrBuild space key bind name config =>
      let full := namespacedKey space key
      match s.registry.get? full with
      | some p => (.built false (s.isClosed p), { s with names := s.names.insert bind p })
      | none =>
        let (p, s) := s.build name config
        (.built true (s.isClosed p), { s.enroll full p with names := s.names.insert bind p })
    | .unregister space key =>
      let full := namespacedKey space key
      match s.registry.get? full with
      | none => (.told false, s)
      | some p =>
        match closeEach fuel [p] (s.strike full p) with
        | (.done, s) => (.told true, s)
        | (answer, s) => (answer, s)
    | .closeAll => closeEach fuel s.registry.values s.strikeAll
    | .countRegistered => (.counted s.registry.size, s)

end

end Scene

end Stockroom.Pool
