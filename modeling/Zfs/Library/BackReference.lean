import Mathlib.Tactic

/-!
# Back references

Copying forwards within a sequence, one element at a time, so that the copy may overlap what it
writes.  A reference that was checked against a text extends a prefix of the text.
-/

namespace BackReference

open Function

variable {α : Type*}

/-- Copy elements forwards from one position to another. -/
def copyForward (buffer : ℕ → α) (dst src : ℕ) : ℕ → ℕ → α
  | 0 => buffer
  | count + 1 => copyForward (update buffer dst (buffer src)) (dst + 1) (src + 1) count

/-- A buffer starts with a prefix of a text. -/
def Prefix (buffer text : ℕ → α) (length : ℕ) : Prop := ∀ i < length, buffer i = text i

theorem Prefix.snoc {buffer text : ℕ → α} {length : ℕ} (agrees : Prefix buffer text length) :
    Prefix (update buffer length (text length)) text (length + 1) := by
  intro i inside
  by_cases last : i = length
  · rw [last, update_self]
  · rw [update_of_ne last, agrees i (by omega)]

theorem copyForward_of_ge (buffer : ℕ → α) (dst src count : ℕ) {i : ℕ} (behind : dst + count ≤ i) :
    copyForward buffer dst src count i = buffer i := by
  induction count generalizing buffer dst src with
  | zero => rfl
  | succ count ih =>
    rw [copyForward, ih _ _ _ (by omega), update_of_ne (by omega)]

/-- A checked reference extends a prefix of the text. -/
theorem Prefix.copyForward {buffer text : ℕ → α} {dst src count : ℕ}
    (agrees : Prefix buffer text dst) (before : src < dst)
    (repeats : ∀ k < count, text (dst + k) = text (src + k)) :
    Prefix (copyForward buffer dst src count) text (dst + count) := by
  induction count generalizing buffer dst src with
  | zero => exact agrees
  | succ count ih =>
    have value : buffer src = text dst := by
      rw [agrees src before]
      exact (repeats 0 (Nat.succ_pos count)).symm
    have extended : Prefix (BackReference.copyForward (update buffer dst (text dst))
        (dst + 1) (src + 1) count) text (dst + 1 + count) := by
      refine ih agrees.snoc (by omega) fun k small => ?_
      have shifted := repeats (k + 1) (by omega)
      rwa [← Nat.succ_add_eq_add_succ, ← Nat.succ_add_eq_add_succ] at shifted
    rwa [BackReference.copyForward, value, show dst + (count + 1) = dst + 1 + count by omega]

end BackReference
