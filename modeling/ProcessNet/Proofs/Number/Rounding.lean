import Mathlib.Algebra.Order.Group.Nat
import Mathlib.Data.Nat.Log
import ProcessNet.Number.Rounding

/-!
How far rounding can go. Below a power of two a magnitude has a rank below a bound, and a rank below a
bound has a magnitude below a power of two, so that rounding loses one binary place at most. Numbers
far below the largest double therefore stay finite, whatever is rounded on the way.
-/

namespace ProcessNet.Binary64

theorem roundQuotient_le (n d : ℕ) : roundQuotient n d ≤ n / d + 1 := by
  rw [roundQuotient]
  split <;> omega

theorem nearestRank_le {n d k : ℕ} (places : 53 ≤ k) (h : n / d < 2 ^ k) :
    nearestRank n d ≤ (k - 51) * 2 ^ 52 := by
  have cut : (n / d).log2 - 52 ≤ k - 53 := by
    by_cases zero : n / d = 0
    · simp [zero]
    · have := (Nat.log2_lt zero).2 h
      omega
  have quotient : roundQuotient n (d * 2 ^ ((n / d).log2 - 52)) ≤ 2 ^ 53 := by
    have bound : n / d < 2 ^ 53 * 2 ^ ((n / d).log2 - 52) := by
      rw [← Nat.pow_add]
      exact Nat.lt_of_lt_of_le Nat.lt_log2_self (Nat.pow_le_pow_right Nat.two_pos (by omega))
    have := roundQuotient_le n (d * 2 ^ ((n / d).log2 - 52))
    rw [← Nat.div_div_eq_div_mul] at this
    have := Nat.div_lt_of_lt_mul (Nat.mul_comm _ _ ▸ bound)
    omega
  refine (Nat.min_le_left _ _).trans ?_
  calc ((n / d).log2 - 52) * 2 ^ 52 + roundQuotient n (d * 2 ^ ((n / d).log2 - 52))
    _ ≤ (k - 53) * 2 ^ 52 + 2 ^ 53 := Nat.add_le_add (Nat.mul_le_mul_right _ cut) quotient
    _ = (k - 51) * 2 ^ 52 := by omega

theorem unitsOfRank_lt {rank k : ℕ} (h : rank ≤ k * 2 ^ 52) : unitsOfRank rank < 2 ^ (k + 53) := by
  rw [unitsOfRank]
  have places : 2 ^ 53 ≤ 2 ^ (k + 53) := Nat.pow_le_pow_right Nat.two_pos (Nat.le_add_left _ _)
  have pow : Nat.pow 2 52 = 2 ^ 52 := rfl
  rw [pow]
  split
  · omega
  · have significand : 2 ^ 52 + rank % 2 ^ 52 < 2 ^ 53 := by omega
    have exponent : rank / 2 ^ 52 - 1 ≤ k := by omega
    calc (2 ^ 52 + rank % 2 ^ 52) * Nat.pow 2 (rank / 2 ^ 52 - 1)
      _ < 2 ^ 53 * Nat.pow 2 (rank / 2 ^ 52 - 1) :=
        Nat.mul_lt_mul_of_pos_right significand (Nat.pow_pos Nat.two_pos)
      _ ≤ 2 ^ 53 * 2 ^ k := Nat.mul_le_mul_left _ (Nat.pow_le_pow_right Nat.two_pos exponent)
      _ = 2 ^ (k + 53) := by rw [← Nat.pow_add, Nat.add_comm]

end ProcessNet.Binary64
