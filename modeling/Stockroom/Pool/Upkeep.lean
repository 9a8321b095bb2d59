import Stockroom.Pool.Turns

/-!
How time passes in a scene. Every ticker is due at multiples of its period, to the nanosecond,
but timers count whole milliseconds: it ticks at the first one that is not before its due time.
The clock goes from one instant at which something ticks to the next, and pools that are built
on the way tick along.
-/

namespace Stockroom.Pool
set_option autoImplicit false

/-- The first whole millisecond that is not before `t`. -/
def roundUp (t : Instant) : Instant := ⟨(t.nanos + 999999) / 1000000 * 1000000⟩

theorem le_roundUp (t : Instant) : t ≤ roundUp t := by
  simp only [Instant.le_def, roundUp]
  omega

def Ticker.ticksAt (t : Ticker) : Instant := roundUp t.due

namespace Scene

/-- Whether a ticker still ticks: its pool is open and somebody holds it. -/
def ticks (s : Scene) (t : Ticker) : Bool := !s.isClosed t.pool && s.isHeld t.pool

/-- The ticker at a place ticks, if its time has come. -/
def tick (s : Scene) (place : Nat) : Scene :=
  match s.tickers[place]? with
  | none => s
  | some t =>
    if t.ticksAt ≤ s.now && s.ticks t then
      let s := { s with tickers := s.tickers.set place { t with due := t.due.advance t.period } }
      (s.proceed t.pool t.chore.job).2.settle
    else s

/-- Let everything tick whose time has come, the ticker made first before the others. -/
def tickAll (s : Scene) : Scene := (List.range s.tickers.length).foldl tick s

def nextTick? (s : Scene) : Option Instant :=
  ((s.tickers.filter s.ticks).map fun t => t.ticksAt.nanos).min?.map Instant.mk

/-- Go from instant to instant until nothing is left that ticks by `target`. -/
def tickUntil (target : Instant) : (fuel : Nat) → Scene → Scene
  | 0, s => s
  | fuel + 1, s =>
    match s.nextTick? with
    | none => s
    | some t =>
      if t ≤ target then tickUntil target fuel { s with now := max s.now t }.tickAll else s

/-- Move the clock on, letting everything tick at its own time. There are no more instants to
visit than whole milliseconds on the way. -/
def advance (s : Scene) (d : Duration) : Scene :=
  let target := s.now.advance d
  { tickUntil target (d.millis + 1) s with now := target }

end Scene

end Stockroom.Pool
