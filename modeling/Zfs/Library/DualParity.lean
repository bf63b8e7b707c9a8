import Mathlib.Algebra.BigOperators.Group.Finset.Basic
import Mathlib.Algebra.BigOperators.Intervals
import Mathlib.Algebra.Group.Hom.Basic
import Mathlib.Tactic

/-!
# Single and double parity

Two parities of a row of values in a commutative group of exponent two: the sum, and the weighted
sum that Horner's rule computes with an additive map of finite order.  A lost value is recovered
from either of them, and two lost values from both.
-/

namespace DualParity

open Finset Function

/-- An additive map of finite order on a group of exponent two. -/
structure Turn (V : Type*) [AddCommGroup V] where
  map : V →+ V
  /-- Its order, or a multiple of it. -/
  period : ℕ
  /-- The order is finite. -/
  period_pos : 0 < period
  /-- After a period the map is the identity. -/
  iterate_period : ∀ value, map^[period] value = value
  /-- Every value is its own inverse. -/
  double : ∀ value : V, value + value = 0

variable {V : Type*} [AddCommGroup V] (turn : Turn V)

/-- The sum of a row. -/
def sumParity (row : ℕ → V) (first last : ℕ) : V := ∑ c ∈ Ico first last, row c

/-- The weighted sum of a row: the last value has weight one. -/
def turnParity (row : ℕ → V) (first last : ℕ) : V :=
  ∑ c ∈ Ico first last, turn.map^[last - 1 - c] (row c)

namespace Turn

include turn in
theorem add_cancel (left right : V) : left + right + left = right := by
  rw [add_right_comm, turn.double, zero_add]

theorem iterate_mul_period (times : ℕ) (value : V) :
    turn.map^[times * turn.period] value = value := by
  induction times with
  | zero => rw [Nat.zero_mul, iterate_zero_apply]
  | succ times ih => rw [Nat.succ_mul, iterate_add_apply, turn.iterate_period, ih]

theorem iterate_injective (exp : ℕ) {left right : V}
    (same : turn.map^[exp] left = turn.map^[exp] right) : left = right := by
  have undo : ∀ value, turn.map^[exp * (turn.period - 1)] (turn.map^[exp] value) = value := by
    intro value
    have whole : exp * (turn.period - 1) + exp = exp * turn.period := by
      rw [← Nat.mul_succ, Nat.succ_eq_add_one, Nat.sub_add_cancel turn.period_pos]
    rw [← iterate_add_apply, whole, iterate_mul_period]
  rw [← undo left, same, undo right]

end Turn

theorem sumParity_succ (row : ℕ → V) {first last : ℕ} (order : first ≤ last) :
    sumParity row first (last + 1) = sumParity row first last + row last :=
  sum_Ico_succ_top order row

theorem turnParity_succ (row : ℕ → V) {first last : ℕ} (order : first ≤ last) :
    turnParity turn row first (last + 1) =
      turn.map (turnParity turn row first last) + row last := by
  rw [turnParity, sum_Ico_succ_top order, turnParity, map_sum]
  congr 1
  · refine sum_congr rfl fun c member => ?_
    rw [mem_Ico] at member
    rw [show last + 1 - 1 - c = last - 1 - c + 1 by omega, iterate_succ_apply']
  · rw [Nat.add_sub_cancel, Nat.sub_self, iterate_zero_apply]

theorem sumParity_congr {row row' : ℕ → V} {first last : ℕ}
    (same : ∀ c, first ≤ c → c < last → row c = row' c) :
    sumParity row first last = sumParity row' first last :=
  sum_congr rfl fun c member => same c (mem_Ico.mp member).1 (mem_Ico.mp member).2

theorem turnParity_congr {row row' : ℕ → V} {first last : ℕ}
    (same : ∀ c, first ≤ c → c < last → row c = row' c) :
    turnParity turn row first last = turnParity turn row' first last := by
  refine sum_congr rfl fun c member => ?_
  rw [same c (mem_Ico.mp member).1 (mem_Ico.mp member).2]

variable {row : ℕ → V} {first last x y : ℕ}

section

variable (lower : first ≤ x)

include lower

theorem sumParity_eq (upper : x < last) :
    sumParity row first last = sumParity (update row x 0) first last + row x := by
  have member : x ∈ Ico first last := mem_Ico.mpr ⟨lower, upper⟩
  rw [sumParity, sumParity, sum_update_of_mem member, zero_add, ← erase_eq,
    sum_erase_add _ _ member]

theorem turnParity_eq (upper : x < last) :
    turnParity turn row first last = turnParity turn (update row x 0) first last +
      turn.map^[last - 1 - x] (row x) := by
  have member : x ∈ Ico first last := mem_Ico.mpr ⟨lower, upper⟩
  rw [turnParity, turnParity, ← sum_erase_add _ _ member, ← sum_erase_add (Ico first last) _ member]
  rw [update_self, iterate_map_zero, add_zero]
  congr 1
  refine sum_congr rfl fun c other => ?_
  rw [update_of_ne (ne_of_mem_erase other)]

include turn in
theorem sumParity_add_update₂ (order : x < y) (upper : y < last) :
    sumParity row first last +
        sumParity (update (update row x 0) y 0) first last = row y + row x := by
  rw [sumParity_eq lower (order.trans upper), sumParity_eq (lower.trans order.le) upper,
    update_of_ne order.ne', add_assoc (sumParity _ _ _), turn.add_cancel]

theorem turnParity_add_update₂ (order : x < y) (upper : y < last) :
    turnParity turn row first last +
        turnParity turn (update (update row x 0) y 0) first last =
      turn.map^[last - 1 - y] (row y) + turn.map^[last - 1 - x] (row x) := by
  rw [turnParity_eq turn lower (order.trans upper), turnParity_eq turn (lower.trans order.le) upper,
    update_of_ne order.ne', add_assoc (turnParity _ _ _ _), turn.add_cancel]

include turn in
theorem recover_sum (upper : x < last) :
    sumParity row first last + sumParity (update row x 0) first last = row x := by
  rw [sumParity_eq lower upper, turn.add_cancel]

theorem recover_turn (upper : x < last) {exp : ℕ}
    (inverse : ∀ value, turn.map^[exp + (last - 1 - x)] value = value) :
    turn.map^[exp] (turnParity turn row first last +
      turnParity turn (update row x 0) first last) = row x := by
  rw [turnParity_eq turn lower upper, turn.add_cancel, ← iterate_add_apply, inverse]

/-- Two values from both sums; `log` is a logarithm from the quotient of their weights. -/
theorem recover_both (order : x < y) (upper : y < last) (short : y - x ≤ turn.period)
    {log aexp bexp : ℕ}
    (log_eq : ∀ value, turn.map^[log] value = turn.map^[turn.period - (y - x)] value + value)
    (a_eq : ∀ value, turn.map^[aexp + log] value = turn.map^[turn.period - (y - x)] value)
    (b_eq : ∀ value, turn.map^[bexp + log + (last - 1 - x)] value = value) :
    turn.map^[aexp] (sumParity row first last +
        sumParity (update (update row x 0) y 0) first last) +
      turn.map^[bexp] (turnParity turn row first last +
        turnParity turn (update (update row x 0) y 0) first last) = row x := by
  rw [sumParity_add_update₂ turn lower order upper, turnParity_add_update₂ turn lower order upper]
  have b_eq' : ∀ value, turn.map^[bexp + log + (last - 1 - y)] value =
      turn.map^[turn.period - (y - x)] value := by
    intro value
    have whole : bexp + log + (last - 1 - x) + (turn.period - (y - x)) =
        bexp + log + (last - 1 - y) + turn.period := by omega
    rw [← b_eq (turn.map^[turn.period - (y - x)] value), ← iterate_add_apply, whole,
      iterate_add_apply _ _ turn.period, turn.iterate_period]
  refine turn.iterate_injective log ?_
  have inner : ∀ exp value, turn.map^[log] (turn.map^[exp] value) = turn.map^[exp + log] value := by
    intro exp value
    rw [← iterate_add_apply, add_comm]
  have whole : ∀ exp value, turn.map^[bexp + log] (turn.map^[exp] value) =
      turn.map^[bexp + log + exp] value := fun exp value => (iterate_add_apply _ _ _ _).symm
  calc turn.map^[log] (turn.map^[aexp] (row y + row x) +
        turn.map^[bexp] (turn.map^[last - 1 - y] (row y) + turn.map^[last - 1 - x] (row x)))
      = turn.map^[turn.period - (y - x)] (row y) + turn.map^[turn.period - (y - x)] (row x) +
          (turn.map^[turn.period - (y - x)] (row y) + row x) := by
        rw [iterate_map_add turn.map log, inner, inner, iterate_map_add turn.map,
          iterate_map_add turn.map (bexp + log), whole, whole, a_eq, a_eq, b_eq', b_eq]
    _ = turn.map^[turn.period - (y - x)] (row x) + row x := by
        rw [← add_assoc, turn.add_cancel]
    _ = turn.map^[log] (row x) := (log_eq _).symm

end

end DualParity
