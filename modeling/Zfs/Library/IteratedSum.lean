import Mathlib.Tactic

/-!
# Iterated sums

Accumulators that add up one another, as sums with binomial weights.  The first three determine the
terms in which two short sequences differ, if these are at most three.
-/

namespace IteratedSum

open Finset

/-- The `k`-th accumulator sums the sums of the one before it. -/
def iteratedSum (x : ℕ → ℕ) (k n : ℕ) : ℕ := ∑ i ∈ range n, (n - i + k - 1).choose k * x i

theorem iteratedSum_zero (x : ℕ → ℕ) (n : ℕ) :
    iteratedSum x 0 (n + 1) = iteratedSum x 0 n + x n := by
  simp [iteratedSum, sum_range_succ]

theorem iteratedSum_succ (x : ℕ → ℕ) (k n : ℕ) :
    iteratedSum x (k + 1) (n + 1) = iteratedSum x (k + 1) n + iteratedSum x k (n + 1) := by
  have last : iteratedSum x (k + 1) n =
      ∑ i ∈ range (n + 1), (n - i + (k + 1) - 1).choose (k + 1) * x i := by
    rw [sum_range_succ, Nat.sub_self, Nat.choose_eq_zero_of_lt (by omega), Nat.zero_mul]
    rfl
  rw [last, iteratedSum, iteratedSum, ← sum_add_distrib]
  apply sum_congr rfl
  intro i member
  have inside := mem_range.mp member
  rw [← Nat.add_mul, show n + 1 - i + (k + 1) - 1 = n - i + k + 1 by omega, Nat.choose_succ_succ,
    show n + 1 - i + k - 1 = n - i + k by omega, Nat.add_comm (Nat.choose _ k)]
  rfl

variable {x y : ℕ → ℕ} {n : ℕ}

/-- The difference of two iterated sums is a sum over the changed places. -/
theorem iteratedSum_sub (x y : ℕ → ℕ) (k n : ℕ) :
    (iteratedSum x k n : ℤ) - iteratedSum y k n =
      ∑ i ∈ range n with x i ≠ y i, ((n - i + k - 1).choose k : ℤ) * (x i - y i) := by
  rw [sum_filter_of_ne]
  · simp only [iteratedSum, Nat.cast_sum, Nat.cast_mul, ← sum_sub_distrib, mul_sub]
  · intro i _ product same
    exact product (by simp [same])

/-- Sums with at most three changed terms that agree modulo a large number. -/
theorem sum_changed_eq_zero {k bound modulus : ℕ} (order : k ≤ 2)
    (terms : ∀ i, x i < bound ∧ y i < bound) (few : #{i ∈ range n | x i ≠ y i} ≤ 3)
    (large : 3 * ((n + 1) ^ 2 * bound) < modulus)
    (same : iteratedSum x k n ≡ iteratedSum y k n [MOD modulus]) :
    ∑ i ∈ range n with x i ≠ y i, ((n - i + k - 1).choose k : ℤ) * (x i - y i) = 0 := by
  have divides := Nat.modEq_iff_dvd.mp same.symm
  rw [iteratedSum_sub] at divides
  refine Int.eq_zero_of_abs_lt_dvd divides ?_
  have term : ∀ i ∈ ({i ∈ range n | x i ≠ y i} : Finset ℕ),
      |((n - i + k - 1).choose k : ℤ) * (x i - y i)| ≤ (n + 1) ^ 2 * bound := by
    intro i _
    have weight : (n - i + k - 1).choose k ≤ (n + 1) ^ 2 := by
      calc (n - i + k - 1).choose k ≤ (n - i + k - 1) ^ k := Nat.choose_le_pow _ _
        _ ≤ (n + 1) ^ k := Nat.pow_le_pow_left (by omega) _
        _ ≤ (n + 1) ^ 2 := Nat.pow_le_pow_right (by omega) order
    have change : |(x i : ℤ) - y i| ≤ bound := by
      have := terms i
      rw [abs_le]
      omega
    rw [abs_mul, Nat.abs_cast]
    exact mul_le_mul (by exact_mod_cast weight) change (abs_nonneg _) (by positivity)
  calc _ ≤ ∑ i ∈ range n with x i ≠ y i, |((n - i + k - 1).choose k : ℤ) * (x i - y i)| :=
        abs_sum_le_sum_abs ..
    _ ≤ #{i ∈ range n | x i ≠ y i} • ((n + 1) ^ 2 * bound : ℤ) := sum_le_card_nsmul _ _ _ term
    _ ≤ 3 • ((n + 1) ^ 2 * bound : ℤ) := nsmul_le_nsmul_left (by positivity) few
    _ < modulus := by
      rw [nsmul_eq_mul]
      exact_mod_cast large

/-- One of at most three places, and two others among which the rest are. -/
theorem exists_three {places : Finset ℕ} (some_place : 1 ≤ (#places)) (few : (#places) ≤ 3) :
    ∃ i ∈ places, ∃ j k, j ≠ i ∧ k ≠ i ∧ ∀ t ∈ places, t = i ∨ t = j ∨ t = k := by
  obtain one | two | three : (#places) = 1 ∨ (#places) = 2 ∨ (#places) = 3 := by omega
  · obtain ⟨i, rfl⟩ := card_eq_one.mp one
    exact ⟨i, by simp, i + 1, i + 1, by simp⟩
  · obtain ⟨i, j, different, rfl⟩ := card_eq_two.mp two
    exact ⟨i, by simp, j, j, by simp [different.symm]⟩
  · obtain ⟨i, j, k, different, different', -, rfl⟩ := card_eq_three.mp three
    exact ⟨i, by simp, j, k, by simp [different.symm, different'.symm]⟩

/-- A quadratic that vanishes at all places but one picks it out. -/
theorem changed_eq_zero {places : Finset ℕ} {change : ℕ → ℤ} {i j k : ℕ} (here : i ∈ places)
    (others : ∀ t ∈ places, t = i ∨ t = j ∨ t = k) (inside : ∀ t ∈ places, t < n)
    (sums : ∀ p ≤ 2, ∑ t ∈ places, ((n - t + p - 1).choose p : ℤ) * change t = 0) :
    ((j : ℤ) - i) * (k - i) * change i = 0 := by
  have vanishes : ∑ t ∈ places, ((j : ℤ) - t) * (k - t) * change t = 0 := by
    have weights : ∀ t ∈ places, ((j : ℤ) - t) * (k - t) * change t =
        2 * (((n - t + 2 - 1).choose 2 : ℤ) * change t) +
          ((j + k - 2 * n - 1 : ℤ) * (((n - t + 1 - 1).choose 1 : ℤ) * change t) +
            (n - j : ℤ) * (n - k) * (((n - t + 0 - 1).choose 0 : ℤ) * change t)) := by
      intro t member
      have below := inside t member
      have pairs : ((n - t + 2 - 1).choose 2 : ℤ) * 2 = (n - t + 1) * (n - t) := by
        have := Nat.add_one_mul_choose_eq (n - t) 1
        simp only [Nat.choose_one_right] at this
        rw [← Nat.cast_sub below.le]
        exact_mod_cast this.symm
      simp only [Nat.add_sub_cancel, Nat.choose_one_right, Nat.choose_zero_right,
        Nat.cast_sub below.le, Nat.cast_one]
      linear_combination (-change t) * pairs
    rw [sum_congr rfl weights, sum_add_distrib, sum_add_distrib, ← mul_sum, ← mul_sum, ← mul_sum,
      sums 0 (by decide), sums 1 (by decide), sums 2 le_rfl]
    simp
  rw [sum_eq_single_of_mem i here] at vanishes
  · exact vanishes
  · intro t member other
    rcases others t member with rfl | rfl | rfl
    · exact absurd rfl other
    · simp
    · simp

end IteratedSum
