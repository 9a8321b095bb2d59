/-!
How many partitions a cache has, what part of the byte budget each gets, and which of them a
hash belongs to. The count is a power of two, so that the low bits of a hash pick a partition.
A budget of zero stands for "no bound", so a bounded cache must never split its budget into
nothing.
-/

namespace Stockroom.Sharding
set_option autoImplicit false

/-- The least budget of a partition when the count is chosen automatically. -/
def minimumBudget : Nat := 4096

def defaultCount : Nat := 64

def maximumCount : Nat := 65536

/-- The least power of two that is at least `n`. -/
def powerAtLeast (n : Nat) : Nat := if n ≤ 1 then 1 else 1 <<< (Nat.log2 (n - 1) + 1)

/-- The greatest power of two that is at most `n`, for positive `n`. -/
def powerAtMost (n : Nat) : Nat := 1 <<< Nat.log2 n

/-- The number of partitions for a budget and, if one was made, a request. -/
def count (capacity : UInt64) : (requested : Option Nat) → Nat
  | some request =>
    let wanted := powerAtLeast (min (max request 1) maximumCount)
    if 0 < capacity.toNat ∧ capacity.toNat < wanted then powerAtMost capacity.toNat else wanted
  | none =>
    if capacity = 0 then defaultCount
    else powerAtLeast (min defaultCount (max 1 (capacity.toNat / minimumBudget)))

/-- The budget of each of `n` partitions. -/
def budget (capacity : UInt64) (n : Nat) : UInt64 := capacity / n.toUInt64

/-- The partition, of `n`, that a hash belongs to. -/
def index (hash : UInt64) (n : Nat) : Nat := hash.toNat &&& (n - 1)

theorem isPowerOfTwo_shiftLeft (k : Nat) : (1 <<< k).isPowerOfTwo := ⟨k, Nat.one_shiftLeft k⟩

theorem isPowerOfTwo_powerAtLeast (n : Nat) : (powerAtLeast n).isPowerOfTwo := by
  unfold powerAtLeast
  split
  · exact isPowerOfTwo_shiftLeft 0
  · exact isPowerOfTwo_shiftLeft _

/-- The count is a power of two, whatever was asked for. -/
theorem isPowerOfTwo_count (capacity : UInt64) (requested : Option Nat) :
    (count capacity requested).isPowerOfTwo := by
  unfold count
  split
  · dsimp only
    split
    · exact isPowerOfTwo_shiftLeft _
    · exact isPowerOfTwo_powerAtLeast _
  · split
    · exact isPowerOfTwo_shiftLeft 6
    · exact isPowerOfTwo_powerAtLeast _

theorem count_pos (capacity : UInt64) (requested : Option Nat) : 0 < count capacity requested := by
  obtain ⟨k, hk⟩ := isPowerOfTwo_count capacity requested
  rw [hk]
  exact Nat.two_pow_pos k

theorem powerAtLeast_le_shiftLeft {n k : Nat} (h : n ≤ 1 <<< k) : powerAtLeast n ≤ 1 <<< k := by
  rw [Nat.one_shiftLeft] at h ⊢
  unfold powerAtLeast
  split
  · exact Nat.one_le_two_pow
  · have hlog : Nat.log2 (n - 1) < k := (Nat.log2_lt (by omega)).mpr (by omega)
    rw [Nat.one_shiftLeft]
    exact Nat.pow_le_pow_right (by omega) hlog

theorem powerAtLeast_le_two_mul {n : Nat} (h : 0 < n) : powerAtLeast n ≤ 2 * n := by
  unfold powerAtLeast
  split
  · omega
  · have hlog := Nat.log2_self_le (n := n - 1) (by omega)
    rw [Nat.one_shiftLeft, Nat.pow_succ]
    omega

theorem powerAtMost_le {n : Nat} (h : 0 < n) : powerAtMost n ≤ n := by
  rw [powerAtMost, Nat.one_shiftLeft]
  exact Nat.log2_self_le (by omega)

theorem count_le_maximumCount (capacity : UInt64) (requested : Option Nat) :
    count capacity requested ≤ maximumCount := by
  have hmax {n : Nat} (h : n ≤ maximumCount) : powerAtLeast n ≤ maximumCount :=
    powerAtLeast_le_shiftLeft (k := 16) h
  unfold count
  split
  · rename_i request
    have hwanted := hmax (Nat.min_le_right (max request 1) maximumCount)
    dsimp only
    split
    · rename_i hless
      have := powerAtMost_le hless.1
      omega
    · exact hwanted
  · split
    · decide
    · exact hmax (Nat.le_trans (Nat.min_le_left _ _) (by decide))

/-- A bounded budget gives each partition something. -/
theorem count_le_capacity {capacity : UInt64} (h : 0 < capacity.toNat) (requested : Option Nat) :
    count capacity requested ≤ capacity.toNat := by
  unfold count
  split
  · dsimp only
    split
    · exact powerAtMost_le h
    · omega
  · split
    · rename_i hzero
      rw [hzero] at h
      cases h
    · have hdiv := Nat.div_mul_le_self capacity.toNat minimumBudget
      by_cases hone : capacity.toNat / minimumBudget ≤ 1
      · rw [Nat.max_eq_left hone, powerAtLeast, if_pos (Nat.min_le_right _ _)]
        exact h
      · have htwo := powerAtLeast_le_two_mul
          (n := min defaultCount (max 1 (capacity.toNat / minimumBudget)))
          (by rw [defaultCount]; omega)
        rw [minimumBudget] at *
        omega

theorem toNat_budget (capacity : UInt64) {n : Nat} (h : n ≤ maximumCount) :
    (budget capacity n).toNat = capacity.toNat / n := by
  rw [budget, UInt64.toNat_div, Nat.toUInt64, UInt64.toNat_ofNat_of_lt']
  exact Nat.lt_of_le_of_lt h (by decide)

/-- A hash always belongs to an existing partition. -/
theorem index_lt (hash : UInt64) {n : Nat} (hn : 0 < n) : index hash n < n := by
  have := @Nat.and_le_right hash.toNat (n - 1)
  unfold index
  omega

end Stockroom.Sharding
