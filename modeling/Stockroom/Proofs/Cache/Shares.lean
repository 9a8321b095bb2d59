import Stockroom.Cache.Basic

/-! The shares of a budget for which no number of partitions was asked. There are as many partitions
as the budget has minimum shares, at most 64, rounded up to a power of two. So where rounding changes
the number, every share is below the minimum, though above half of it. -/

namespace Stockroom
set_option autoImplicit false

namespace Sharding

/-! ### Rounding up -/

theorem powerAtLeast_of_two_le {n : Nat} (h : 2 ≤ n) :
    powerAtLeast n = 2 * (1 <<< Nat.log2 (n - 1)) := by
  unfold powerAtLeast
  rw [if_neg (by omega), Nat.one_shiftLeft, Nat.one_shiftLeft, Nat.pow_succ, Nat.mul_comm]

theorem le_powerAtLeast (n : Nat) : n ≤ powerAtLeast n := by
  by_cases h : 2 ≤ n
  · have hlog := Nat.lt_log2_self (n := n - 1)
    rw [Nat.pow_succ] at hlog
    rw [powerAtLeast_of_two_le h, Nat.one_shiftLeft]
    omega
  · rw [powerAtLeast, if_pos (by omega)]
    omega

theorem powerAtLeast_add_two_le {n : Nat} (h : 2 ≤ n) : powerAtLeast n + 2 ≤ 2 * n := by
  have hlog := Nat.log2_self_le (n := n - 1) (by omega)
  rw [powerAtLeast_of_two_le h, Nat.one_shiftLeft]
  omega

/-- Rounding leaves exactly the powers of two as they are. -/
theorem powerAtLeast_eq_self_iff {n : Nat} : powerAtLeast n = n ↔ n.isPowerOfTwo := by
  constructor
  · intro h
    rw [← h]
    exact isPowerOfTwo_powerAtLeast n
  · rintro ⟨k, rfl⟩
    apply Nat.le_antisymm
    · have hle := powerAtLeast_le_shiftLeft (Nat.le_of_eq (Nat.one_shiftLeft k).symm)
      rwa [Nat.one_shiftLeft] at hle
    · exact le_powerAtLeast _

/-! ### Automatic counts -/

variable {capacity : UInt64}

/-- From one minimum share on, the number of minimum shares is rounded up, and cut off at 64. -/
theorem count_automatic (h : minimumBudget ≤ capacity.toNat) :
    count capacity none = powerAtLeast (min 64 (capacity.toNat / minimumBudget)) := by
  have hne : capacity ≠ 0 := by
    rintro rfl
    exact absurd h (by decide)
  have hpages : 1 ≤ capacity.toNat / minimumBudget := Nat.div_pos h (by decide)
  simp only [count, if_neg hne, defaultCount, Nat.max_eq_right hpages]

theorem count_automatic_le (h : minimumBudget ≤ capacity.toNat) : count capacity none ≤ 64 := by
  rw [count_automatic h]
  exact powerAtLeast_le_shiftLeft (k := 6) (Nat.min_le_left _ _)

/-- A partition gets the minimum exactly if rounding changes nothing. -/
theorem minimumBudget_le_share_iff (h : minimumBudget ≤ capacity.toNat) :
    minimumBudget ≤ capacity.toNat / count capacity none ↔
      (capacity.toNat / minimumBudget).isPowerOfTwo ∨ 64 ≤ capacity.toNat / minimumBudget := by
  have hcount := count_automatic h
  have hshare : minimumBudget ≤ capacity.toNat / count capacity none ↔
      count capacity none ≤ capacity.toNat / minimumBudget := by
    rw [Nat.le_div_iff_mul_le (count_pos capacity none), Nat.mul_comm,
      ← Nat.le_div_iff_mul_le (by decide)]
  rw [hshare]
  by_cases hfull : 64 ≤ capacity.toNat / minimumBudget
  · have hle := count_automatic_le h
    exact ⟨fun _ => Or.inr hfull, fun _ => by omega⟩
  · rw [Nat.min_eq_right (by omega)] at hcount
    have hle := le_powerAtLeast (capacity.toNat / minimumBudget)
    rw [hcount, ← powerAtLeast_eq_self_iff]
    omega

/-- Rounding never takes as much as half of the minimum away. -/
theorem le_share (h : minimumBudget ≤ capacity.toNat) :
    2112 ≤ capacity.toNat / count capacity none := by
  have hcount := count_automatic h
  have hle := count_automatic_le h
  have hpages := Nat.div_mul_le_self capacity.toNat minimumBudget
  rw [Nat.le_div_iff_mul_le (count_pos capacity none)]
  rw [minimumBudget] at *
  by_cases hfull : 64 ≤ capacity.toNat / 4096
  · omega
  · rw [Nat.min_eq_right (by omega)] at hcount
    by_cases hone : 2 ≤ capacity.toNat / 4096
    · have htwo := powerAtLeast_add_two_le hone
      omega
    · have hcount : count capacity none = 1 := by
        rw [hcount, powerAtLeast, if_pos (by omega)]
      omega

end Sharding

namespace Cache

variable {V : Type}

/-- Where no number of partitions is asked for, shares may fall below the least share by less than
half, because the number is rounded up to a power of two. -/
theorem automatic_share_bounds (config : Config V) (hshards : config.shards = none)
    (hcapacity : 4096 ≤ config.capacity.toNat) {c : Cache V} (hbuilt : build config = .ok c) :
    let n := c.shardCount
    1 ≤ n ∧ n ≤ 64 ∧ n.isPowerOfTwo ∧
    ∀ s ∈ c.shards, s.capacity.toNat = config.capacity.toNat / n ∧ 2112 ≤ s.capacity.toNat ∧
      (4096 ≤ s.capacity.toNat ↔ (config.capacity.toNat / 4096).isPowerOfTwo ∨
        64 ≤ config.capacity.toNat / 4096) := by
  obtain ⟨-, rfl⟩ := build_eq_ok_iff.mp hbuilt
  have hcount : config.shardCount = Sharding.count config.capacity none := by
    rw [Config.shardCount, hshards]
  have hsize : (new config).shardCount = Sharding.count config.capacity none := by
    rw [← hcount]
    exact Array.size_replicate
  intro n
  have hn : n = Sharding.count config.capacity none := hsize
  rw [hn]
  refine ⟨Sharding.count_pos _ _, Sharding.count_automatic_le hcapacity,
    Sharding.isPowerOfTwo_count _ _, ?_⟩
  intro s hs
  have hs : s = .new (Sharding.budget config.capacity config.shardCount) :=
    Array.eq_of_mem_replicate hs
  have hshare : s.capacity.toNat = config.capacity.toNat / Sharding.count config.capacity none := by
    rw [hs, hcount]
    exact Sharding.toNat_budget _ (Sharding.count_le_maximumCount _ _)
  rw [hshare]
  exact ⟨rfl, Sharding.le_share hcapacity, Sharding.minimumBudget_le_share_iff hcapacity⟩

/-- A budget of 33 minimum shares is split into 64 parts, the smallest that there are. -/
def thirtyThree : Config Nat := { capacity := 135168, weigh := fun _ _ => .ok 1 }

theorem automatic_share_bounds_thirty_three :
    thirtyThree.shards = none ∧ 4096 ≤ thirtyThree.capacity.toNat ∧
      build thirtyThree = .ok (new thirtyThree) ∧ (new thirtyThree).shardCount = 64 ∧
      ∀ s ∈ (new thirtyThree).shards, s.capacity.toNat = 2112 := by
  have hbuilt : build thirtyThree = .ok (new thirtyThree) := rfl
  have hcount : (new thirtyThree).shardCount = 64 := by decide
  obtain ⟨-, -, -, hshares⟩ := automatic_share_bounds thirtyThree rfl (by decide) hbuilt
  refine ⟨rfl, by decide, hbuilt, hcount, ?_⟩
  intro s hs
  rw [(hshares s hs).1, hcount]
  rfl

/-- Three minimum shares are split into four parts, each of three quarters of one. -/
theorem exists_share_below_minimum :
    let config : Config Nat := { capacity := 12288, weigh := fun _ _ => .ok 1 }
    config.shards = none ∧ 4096 ≤ config.capacity.toNat ∧
      ∃ c, build config = .ok c ∧ c.shardCount = 4 ∧ ∃ s ∈ c.shards, s.capacity = 3072 := by
  refine ⟨rfl, by decide, _, rfl, by decide, .new 3072, ?_, rfl⟩
  exact Array.mem_replicate.mpr ⟨by decide, rfl⟩

end Cache

end Stockroom
