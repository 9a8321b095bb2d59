import Stockroom.Pool.Job

/-!
One pool with everything that is going on in it. Any number of jobs are in progress; each goes on
when it likes, one instruction at a time, and a callback that a job waits for may take as long as
it likes and have other jobs done in the meantime. So every way is covered in which operations can
follow one another, run side by side, or run inside each other's callbacks. Other pools share the
stock.
-/

namespace Stockroom.Pool
set_option autoImplicit false

inductive Operation where
  | get
  | put (r : ResourceId)
  | discard (r : ResourceId)
  /-- Lend a resource to a body, which may be dropped where it waits. -/
  | exec
  | close
  | check
  | reclaim
  | sweep
deriving DecidableEq, Repr

namespace Operation

def job : Operation → Job
  | get => .get
  | put r => .put r
  | discard r => .discard r
  | exec => .exec
  | close => .close
  | check => .checkIdle
  | reclaim => .reclaimOverdue
  | sweep => .sweepPendingClose

/-- The handles that are passed with it. -/
def handles : Operation → List ResourceId
  | put r | discard r => [r]
  | _ => []

end Operation

def Result.gives : Result → List ResourceId
  | .got r => [r]
  | _ => []

/-- The handles that a job has given away: to its caller, or to the body that it waits for. -/
def Job.gives (j : Job) : List ResourceId :=
  j.result.gives ++
    match j.waitsFor with
    | some (.body r) => [r]
    | _ => []

/-- A pool, the jobs that were started on it, the handles that users have, and all resources that
its factory has made. -/
structure Traffic where
  state : State
  now : Instant := .start
  jobs : List Job := []
  handles : List ResourceId := []
  made : List ResourceId := []

namespace Traffic

def new (name : String) (limits : Limits) (destructs : Bool) (stock : Stock) : Traffic where
  state := { name, limits, destructs, stock }

/-- One job among others has come to `next`. What the stock has grown by was made for it. -/
def proceed (t : Traffic) (before after : List Job) (next : State × Job) : Traffic :=
  { t with
    state := next.1
    jobs := before ++ next.2 :: after
    handles := next.2.gives ++ t.handles
    made := t.made ++
      List.range' t.state.stock.length (next.1.stock.length - t.state.stock.length) }

/-- What can happen next, where only callbacks that `mayCrash` do crash. Users pass no handles
but those that they have been given. -/
inductive Next (mayCrash : Callback → Prop) (t : Traffic) : Traffic → Prop where
  | start (op : Operation) : (∀ r ∈ op.handles, r ∈ t.handles) →
      Next mayCrash t { t with jobs := t.jobs ++ [op.job] }
  | step (before after : List Job) (j : Job) : t.jobs = before ++ j :: after →
      Next mayCrash t (t.proceed before after (j.step t.now t.state))
  | reply (before after : List Job) (j : Job) (callback : Callback) (r : Reply) :
      t.jobs = before ++ j :: after → j.waitsFor = some callback →
      (∀ text, r = .crash text → mayCrash callback) →
      Next mayCrash t (t.proceed before after (j.reply t.now t.state r))
  /-- A loan is dropped while its body waits. -/
  | drop (before after : List Job) (j : Job) (r : ResourceId) :
      t.jobs = before ++ j :: after → j.waitsFor = some (.body r) →
      Next mayCrash t (t.proceed before after (t.state, j.unwind))
  | pass (later : Instant) : t.now ≤ later → Next mayCrash t { t with now := later }
  /-- Another pool changes the stock: it may add, lend and destroy resources. -/
  | elsewhere (stock : Stock) : t.state.stock.length ≤ stock.length →
      (∀ r < t.state.stock.length, t.state.stock.isDestroyed r = true →
        stock.isDestroyed r = true) →
      Next mayCrash t { t with state := { t.state with stock } }

/-- What can have become of a new pool. -/
inductive Reachable (mayCrash : Callback → Prop) : Traffic → Prop where
  | new (name : String) (limits : Limits) (destructs : Bool) (stock : Stock) :
      Reachable mayCrash (.new name limits destructs stock)
  | next {t u : Traffic} : Reachable mayCrash t → Next mayCrash t u → Reachable mayCrash u

/-- No operation is in progress. -/
def Quiet (t : Traffic) : Prop := ∀ j ∈ t.jobs, j.todo = []

end Traffic

end Stockroom.Pool
