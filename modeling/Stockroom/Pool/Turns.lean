import Stockroom.Pool.Play

/-!
How asynchronous loans take turns. A loan whose turn it is goes on until it has ended or its
body waits at a closed gate; nothing else runs in the meantime, and what it starts, wakes or
aborts gets its own turn later. After every operation from outside the scene settles: turns are
given, first come first served, until no loan can go on.
-/

namespace Stockroom.Pool
set_option autoImplicit false

namespace Scene

/-- Drive a job of the pool `p` as far as it goes without a body. -/
def proceed (s : Scene) (p : Nat) (j : Job) : Job × Scene := drive depth p none j s

/-- An asynchronous loan has ended. One that crashed is never heard of again. -/
def finishLoan (s : Scene) (task : Nat) (j : Job) : Scene :=
  match j.outcome with
  | .crashed _ => s
  | answer => { s with finished := s.finished ++ [(task, answer)] }

/-- A loan is dropped: only the resource is given back. -/
def dropLoan (s : Scene) (l : Loan) : Scene := (s.proceed l.pool l.job.unwind).2

/-- The body of a loan ends, and the loan with it. -/
def endBody (s : Scene) (l : Loan) : Scene :=
  match s.state? l.pool with
  | none => s
  | some state =>
    let next := l.job.reply s.now state l.reply
    let r := (s.setState l.pool next.1).proceed l.pool next.2
    r.2.finishLoan l.task r.1

/-- The body of a loan has begun. It goes on if nothing stops it; it is dropped where it would
have to wait if the task was aborted on the way. -/
def enterBody (s : Scene) (l : Loan) : Scene :=
  if s.isOpen l.gate then s.endBody l
  else if s.aborted.contains l.task then s.dropLoan l
  else { s with waiting := s.waiting ++ [l] }

/-- A loan checks a resource out and begins its body, unless it ends before. -/
def beginLoan (s : Scene) (l : Loan) : Scene :=
  let r := s.proceed l.pool l.job
  match r.1.waitsFor with
  | some (.body x) => (r.2.log (.exec x)).enterBody { l with job := r.1 }
  | _ => r.2.finishLoan l.task r.1

def takeTurn (s : Scene) (l : Loan) : Scene :=
  if s.aborted.contains l.task then s.dropLoan l
  else
    match l.job.waitsFor with
    | some (.body _) => s.endBody l
    | _ => s.beginLoan l

/-- Give turns until no loan can go on. Callbacks may start loans without end, so the number of
turns is bounded. -/
def giveTurns : (fuel : Nat) → Scene → Scene
  | 0, s => s
  | fuel + 1, s =>
    match s.ready with
    | [] => s
    | l :: rest => giveTurns fuel ({ s with ready := rest }.takeTurn l)

def settle (s : Scene) : Scene := giveTurns depth s

theorem giveTurns_of_ready_eq_nil (fuel : Nat) {s : Scene} (h : s.ready = []) :
    giveTurns fuel s = s := by
  cases fuel with
  | zero => rfl
  | succ fuel => simp [giveTurns, h]

/-- Let at most `count` loans go on that pass the test, in the order of arrival, settling after
each. The answer is how many there were. -/
def releaseUpTo (p : Loan → Bool) : (count : Nat) → Scene → Nat × Scene
  | 0, s => (0, s)
  | count + 1, s =>
    if s.waiting.any p then
      let r := releaseUpTo p count (s.wakeFirst p).settle
      (r.1 + 1, r.2)
    else (0, s)

/-- Carry out an operation from outside. A gate lets the loans that wait at it go one by one,
so that one of them can still abort another. -/
def handle (s : Scene) : Op → Answer × Scene
  | .openGate gate =>
    let p := Loan.waitsAt gate
    let r := releaseUpTo p (s.waiting.countP p) { s with opened := s.opened ++ [gate] }
    (.released r.1, r.2)
  | op => let r := perform depth op s; (r.1, r.2.settle)

end Scene

end Stockroom.Pool
