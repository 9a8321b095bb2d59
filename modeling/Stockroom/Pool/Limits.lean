import Stockroom.Time

/-!
The two limits of a pool: how many resources may be lent at once, and how long a loan may last.
The second is also how long a resource waits between being given up and being destroyed.
-/

namespace Stockroom.Pool
set_option autoImplicit false

structure Limits where
  maxSize : Nat
  maxUsage : Duration
deriving DecidableEq, Repr, Inhabited

namespace Limits

def defaultSize : Nat := 10

def defaultUsage : Duration := .ofSeconds 60

/-- Limits as asked for; zero, like nothing, selects the default. -/
def choose (maxSize : Nat := 0) (maxUsage : Duration := .zero) : Limits where
  maxSize := if maxSize = 0 then defaultSize else maxSize
  maxUsage := if maxUsage.isZero then defaultUsage else maxUsage

theorem choose_maxSize_pos (n : Nat) (d : Duration) : 0 < (choose n d).maxSize := by
  unfold choose
  dsimp only
  split
  · decide
  · omega

end Limits

end Stockroom.Pool
