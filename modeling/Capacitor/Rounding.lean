import Mathlib.Tactic

/-!
# Sums that are rounded

A sum of rationals is rounded as soon as it is formed, and `Rounding` is the rounding in force. A
sum that is `Exact` comes out as it is. `nearest` is the rounding of `float64`: to the nearest
number of 53 binary digits, and between two of them to the one whose last digit is zero. Overflow is
left out, gradual underflow is not. Integers up to `2 ^ 53` are exact.
-/

/-- The rounding of sums that is in force. -/
class Rounding where
  round : ℚ → ℚ

namespace Rounding

/-- Every number is taken as it is. -/
instance unrounded : Rounding := ⟨id⟩

def Exact [Rounding] (q : ℚ) : Prop := round q = q

instance [Rounding] (q : ℚ) : Decidable (Exact q) := inferInstanceAs (Decidable (round q = q))

@[simp] theorem round_unrounded (q : ℚ) : round q = q := rfl

/-- The unit of the last of 53 binary digits. -/
def lastPlace (q : ℚ) : ℚ :=
  2 ^ ((q.num.natAbs * 2 ^ 1074 / q.den).log2 - 52) / 2 ^ 1074

def halfEven (q : ℚ) : ℤ :=
  if 2 * (q - ⌊q⌋) < 1 ∨ 2 * (q - ⌊q⌋) = 1 ∧ ⌊q⌋ % 2 = 0 then ⌊q⌋ else ⌊q⌋ + 1

/-- Round to nearest, ties to even. -/
@[reducible] def nearest : Rounding := ⟨fun q => halfEven (q / lastPlace q) * lastPlace q⟩

theorem halfEven_intCast (z : ℤ) : halfEven z = z := by
  simp [halfEven]

theorem log2_cases {n : ℕ} (h : n ≤ 2 ^ 53) (e : ℕ) :
    (n * 2 ^ e).log2 - 52 ≤ e ∨ n = 2 ^ 53 ∧ (n * 2 ^ e).log2 - 52 = e + 1 := by
  have hpow : (2 : ℕ) ^ 53 * 2 ^ e = 2 ^ (53 + e) := (pow_add _ _ _).symm
  rcases h.lt_or_eq with hlt | rfl
  · left
    rcases Nat.eq_zero_or_pos n with rfl | hpos
    · rw [Nat.zero_mul, Nat.log2_zero, Nat.zero_sub]
      exact Nat.zero_le _
    · have hlog : (n * 2 ^ e).log2 < 53 + e := by
        rw [Nat.log2_lt (by positivity), ← hpow]
        exact Nat.mul_lt_mul_of_pos_right hlt (by positivity)
      omega
  · right
    rw [hpow, Nat.log2_two_pow]
    exact ⟨rfl, by omega⟩

theorem exists_mul_lastPlace {z : ℤ} (h : z.natAbs ≤ 2 ^ 53) :
    ∃ m : ℤ, (z : ℚ) = m * lastPlace z := by
  have hplace : lastPlace z = 2 ^ ((z.natAbs * 2 ^ 1074).log2 - 52) / 2 ^ 1074 := by
    simp only [lastPlace, Rat.num_intCast, Rat.den_intCast, Nat.div_one]
  rw [hplace]
  rcases log2_cases h 1074 with hle | ⟨hz, hlog⟩
  · refine ⟨z * 2 ^ (1074 - ((z.natAbs * 2 ^ 1074).log2 - 52)), ?_⟩
    rw [Int.cast_mul, Int.cast_pow, Int.cast_ofNat, ← mul_div_assoc, mul_assoc, ← pow_add,
      Nat.sub_add_cancel hle, mul_div_cancel_right₀ _ (by positivity)]
  · obtain ⟨m, hm⟩ : (2 : ℤ) ∣ z := Int.natAbs_dvd_natAbs.1 (by rw [hz]; exact ⟨2 ^ 52, rfl⟩)
    refine ⟨m, ?_⟩
    rw [hlog, hm, Int.cast_mul, Int.cast_ofNat, pow_succ, mul_comm ((2 : ℚ) ^ 1074),
      mul_div_cancel_right₀ _ (by positivity), mul_comm]

theorem lastPlace_pos (q : ℚ) : 0 < lastPlace q := by
  unfold lastPlace
  positivity

/-- Integers up to `2 ^ 53` are not rounded. -/
theorem exact_nearest {z : ℤ} (h : z.natAbs ≤ 2 ^ 53) : nearest.round z = z := by
  obtain ⟨m, hm⟩ := exists_mul_lastPlace h
  have hquotient : (z : ℚ) / lastPlace z = m := by
    rw [div_eq_iff (lastPlace_pos _).ne']
    exact hm
  change (halfEven (z / lastPlace z) : ℚ) * lastPlace z = z
  rw [hquotient, halfEven_intCast]
  exact hm.symm

example : nearest.round (2 ^ 53 + 1) = 2 ^ 53 := by decide +kernel

example :
    let a := nearest.round (1 / 10)
    let b := nearest.round (2 / 10)
    let c := nearest.round (3 / 10)
    nearest.round (nearest.round (a + b) + c) ≠ nearest.round (a + nearest.round (b + c)) := by
  decide +kernel

end Rounding
