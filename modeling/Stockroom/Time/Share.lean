import Stockroom.Time

/-!
A share of a duration, for a factor that is a binary64 number. The product is formed in binary64
on seconds and then read exactly: the nearest whole nanosecond, a tie going to the even one.
-/

namespace Stockroom.Duration
set_option autoImplicit false

/-- A finite number from zero up, as a quotient of whole numbers. The sign is not looked at. -/
def fraction (x : Float) : Nat × Nat :=
  let bits := x.toBits.toNat
  let exponent := (bits >>> 52) % (1 <<< 11)
  let digits := bits % (1 <<< 52)
  let mantissa := if exponent = 0 then digits else digits + (1 <<< 52)
  let scale := max exponent 1
  if 1075 ≤ scale then (mantissa <<< (scale - 1075), 1) else (mantissa, 1 <<< (1075 - scale))

/-- The whole number nearest to `num / den`; of two, the even one. -/
def nearest (num den : Nat) : Nat :=
  let q := num / den
  let r := num % den
  if 2 * r < den then q
  else if 2 * r = den then q + q % 2
  else q + 1

def ofSecondsFloat (x : Float) : Duration :=
  let f := fraction x
  ⟨nearest (f.1 * 1000000000) f.2⟩

def toSecondsFloat (d : Duration) : Float :=
  d.seconds.toUInt64.toFloat + d.subsecond.toUInt64.toFloat / 1000000000

def share (d : Duration) (factor : Float) : Duration := ofSecondsFloat (factor * d.toSecondsFloat)

/-- Rounding moves a quotient by at most one half. -/
theorem nearest_within_half (num : Nat) {den : Nat} (h : 0 < den) :
    2 * nearest num den * den ≤ 2 * num + den ∧ 2 * num ≤ 2 * nearest num den * den + den := by
  have hdiv := Nat.div_add_mod num den
  have hlt := Nat.mod_lt num h
  unfold nearest
  dsimp only
  generalize hq : num / den = q at *
  generalize hr : num % den = r at *
  have hq1 : 2 * (q + 1) * den = 2 * (den * q) + 2 * den := by
    rw [Nat.mul_comm den q, Nat.mul_assoc, Nat.add_mul, Nat.mul_add, Nat.one_mul]
  have hq0 : 2 * q * den = 2 * (den * q) := by rw [Nat.mul_comm den q, Nat.mul_assoc]
  split
  · rw [hq0]; omega
  · split
    · rcases Nat.mod_two_eq_zero_or_one q with hp | hp
      · rw [hp, Nat.add_zero, hq0]; omega
      · rw [hp, hq1]; omega
    · rw [hq1]; omega

end Stockroom.Duration
