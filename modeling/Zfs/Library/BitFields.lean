import Mathlib.Tactic
import Mathlib.Data.Nat.Bitwise

/-!
# Fields of bits in a word

A field is a run of `length` bits starting at bit `low`.  Fields that do not overlap can be combined
with a bitwise or and read back one by one.
-/

namespace BitFields

open Nat

variable (value low length : ℕ)

/-- A value placed in a field; bits that do not fit are dropped. -/
def put : ℕ := (value % 2 ^ length) <<< low

/-- The content of a field. -/
def get (word low length : ℕ) : ℕ := (word >>> low) % 2 ^ length

theorem testBit_put (i : ℕ) :
    (put value low length).testBit i =
      (decide (low ≤ i) && (decide (i - low < length) && value.testBit (i - low))) := by
  rw [put, testBit_shiftLeft, Nat.testBit_mod_two_pow]

theorem testBit_get (word low length i : ℕ) :
    (get word low length).testBit i = (decide (i < length) && word.testBit (low + i)) := by
  rw [get, Nat.testBit_mod_two_pow, testBit_shiftRight]

@[simp] theorem get_or (first second low length : ℕ) :
    get (first ||| second) low length = get first low length ||| get second low length := by
  apply eq_of_testBit_eq
  intro i
  rw [testBit_or, testBit_get, testBit_get, testBit_get, testBit_or, Bool.and_or_distrib_left]

theorem get_put : get (put value low length) low length = value % 2 ^ length := by
  apply eq_of_testBit_eq
  intro i
  rw [testBit_get, testBit_put, Nat.testBit_mod_two_pow, Nat.add_sub_cancel_left]
  by_cases inside : i < length
  · simp [inside]
  · simp [inside]

theorem get_put_of_lt {value length : ℕ} (fits : value < 2 ^ length) :
    get (put value low length) low length = value := by
  rw [get_put, mod_eq_of_lt fits]

/-- A field is not visible in another one that it does not overlap. -/
theorem get_put_apart {low length low' length' : ℕ}
    (apart : low + length ≤ low' ∨ low' + length' ≤ low) :
    get (put value low length) low' length' = 0 := by
  apply eq_of_testBit_eq
  intro i
  rw [testBit_get, testBit_put, zero_testBit]
  by_cases inside : i < length'
  · by_cases above : low ≤ low' + i
    · have outside : ¬low' + i - low < length := by omega
      simp [outside]
    · simp [above]
  · simp [inside]

end BitFields
