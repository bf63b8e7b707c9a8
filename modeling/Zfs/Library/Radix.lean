import Mathlib

/-!
# Numbering the nodes of a radix tree

Each node has `2 ^ width` children.  Nodes of a level are numbered from left to right, and the
number of the ancestor of a leaf is the number of the leaf without its low digits.
-/

namespace Radix

variable {width level leaf other node child : ℕ}

/-- The number of the node of a level that lies above a leaf. -/
def ancestor (width level leaf : ℕ) : ℕ := leaf >>> (level * width)

@[simp]
theorem ancestor_zero : ancestor width 0 leaf = leaf := by simp [ancestor]

theorem ancestor_eq_div : ancestor width level leaf = leaf / 2 ^ (level * width) :=
  Nat.shiftRight_eq_div_pow _ _

theorem ancestor_succ : ancestor width (level + 1) leaf = ancestor width level leaf >>> width := by
  rw [ancestor, ancestor, Nat.succ_mul, Nat.shiftRight_add]

theorem ancestor_mono (order : leaf ≤ other) :
    ancestor width level leaf ≤ ancestor width level other := by
  rw [ancestor_eq_div, ancestor_eq_div]
  exact Nat.div_le_div_right order

theorem lt_of_ancestor_lt (order : ancestor width level leaf < ancestor width level other) :
    leaf < other :=
  lt_of_not_ge fun reverse => absurd (ancestor_mono reverse) (not_le.mpr order)

theorem ancestor_le_self : ancestor width level leaf ≤ leaf := by
  rw [ancestor_eq_div]
  exact Nat.div_le_self _ _

theorem shiftRight_eq_iff :
    child >>> width = node ↔ node * 2 ^ width ≤ child ∧ child < (node + 1) * 2 ^ width := by
  rw [Nat.shiftRight_eq_div_pow, Nat.div_eq_iff (Nat.two_pow_pos width), Nat.le_sub_one_iff_lt
    (by positivity), Nat.succ_mul]

end Radix
