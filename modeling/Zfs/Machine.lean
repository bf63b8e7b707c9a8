import Mathlib.Tactic
import Zfs.Library.BitFields

/-!
# 64-bit arithmetic and halting

Unsigned 64-bit quantities are natural numbers below `2 ^ 64`; sums and differences are reduced
explicitly where the code can wrap around.  A call either returns, or stops in a failed `VERIFY`,
or uses up the step bound that stands for a loop of the source.
-/

namespace Zfs

open Nat

/-- Why a call does not return. -/
inductive Halt where
  | panic
  | fuel
  deriving DecidableEq, Repr

theorem bind_ok {ε α β : Type} {first : Except ε α} {rest : α → Except ε β} {result : β}
    (ok : first >>= rest = .ok result) : ∃ value, first = .ok value ∧ rest value = .ok result := by
  cases first with
  | error error => cases ok
  | ok value => exact ⟨value, rfl, ok⟩

/-- A call stops in a panic or returns something good. -/
def Settles {α : Type} (Good : α → Prop) : Except Halt α → Prop
  | .error halt => halt = .panic
  | .ok value => Good value

theorem Settles.bind {α β : Type} {First : α → Prop} {Good : β → Prop} {call : Except Halt α}
    {rest : α → Except Halt β} (first : Settles First call)
    (then_ : ∀ value, First value → Settles Good (rest value)) : Settles Good (call >>= rest) := by
  cases call with
  | error halt => exact first
  | ok value => exact then_ value first

inductive Vtype where
  | vnon | vreg | vdir | vblk | vchr | vlnk | vfifo | vdoor | vproc | vsock | vport | vbad
  deriving DecidableEq

def eperm : ℕ := 1

def enoent : ℕ := 2

def esrch : ℕ := 3

def eio : ℕ := 5

def eacces : ℕ := 13

def einval : ℕ := 22

def enospc : ℕ := 28

def erestart : ℕ := 85

/-- A 64-bit sum. -/
def add64 (first second : ℕ) : ℕ := (first + second) % 2 ^ 64

/-- A 64-bit difference. -/
def sub64 (first second : ℕ) : ℕ := (first + (2 ^ 64 - second % 2 ^ 64)) % 2 ^ 64

def p2phase (value align : ℕ) : ℕ := value &&& (align - 1)

def p2align (value align : ℕ) : ℕ := value &&& sub64 0 align

def p2roundup (value align : ℕ) : ℕ := sub64 0 (sub64 0 value &&& sub64 0 align)

def bf64Encode (value low length : ℕ) : ℕ := p2phase value (1 <<< length) <<< low

def bf64Decode (word low length : ℕ) : ℕ := p2phase (word >>> low) (1 <<< length)

variable {first second value k : ℕ}

theorem add64_eq (bound : first + second < 2 ^ 64) : add64 first second = first + second :=
  mod_eq_of_lt bound

theorem sub64_eq (order : second ≤ first) (bound : first < 2 ^ 64) :
    sub64 first second = first - second := by
  rw [sub64, mod_eq_of_lt (by omega : second < 2 ^ 64)]
  omega

theorem sub64_zero (positive : value ≠ 0) (bounded : value < 2 ^ 64) :
    sub64 0 value = 2 ^ 64 - value := by
  rw [sub64, mod_eq_of_lt bounded]
  omega

theorem p2phase_two_pow (value shift : ℕ) : p2phase value (1 <<< shift) = value % 2 ^ shift := by
  rw [p2phase, one_shiftLeft, and_two_pow_sub_one_eq_mod]

theorem and_high {word : ℕ} (bounded : word < 2 ^ 64) (narrow : k ≤ 64) :
    word &&& (2 ^ 64 - 2 ^ k) = word / 2 ^ k * 2 ^ k := by
  have mask : 2 ^ 64 - 2 ^ k = (2 ^ (64 - k) - 1) <<< k := by
    rw [Nat.shiftLeft_eq, Nat.sub_mul, ← pow_add, Nat.sub_add_cancel narrow, Nat.one_mul]
  rw [mask, ← Nat.shiftRight_eq_div_pow, ← Nat.shiftLeft_eq]
  apply Nat.eq_of_testBit_eq
  intro i
  rw [testBit_and, testBit_shiftLeft, testBit_shiftLeft, testBit_two_pow_sub_one,
    testBit_shiftRight]
  by_cases low : k ≤ i
  · have position : k + (i - k) = i := by omega
    by_cases high : i < 64
    · simp [low, position, (by omega : i - k < 64 - k)]
    · have zero : word.testBit i = false :=
        Nat.testBit_lt_two_pow (bounded.trans_le (Nat.pow_le_pow_right (by decide) (by omega)))
      simp [position, zero]
  · simp [low]

theorem p2align_two_pow (bounded : value < 2 ^ 64) (narrow : k < 64) :
    p2align value (2 ^ k) = value / 2 ^ k * 2 ^ k := by
  have unit_pos : 0 < 2 ^ k := by positivity
  have unit_lt : 2 ^ k < 2 ^ 64 := Nat.pow_lt_pow_right Nat.one_lt_two narrow
  rw [p2align, sub64_zero unit_pos.ne' unit_lt, and_high bounded narrow.le]

/-- Rounding up wraps around only to zero. -/
theorem p2roundup_two_pow (positive : 0 < value) (bounded : value < 2 ^ 64) (narrow : k < 64) :
    ∃ rounded, value ≤ rounded ∧ rounded < value + 2 ^ k ∧ rounded ≤ 2 ^ 64 ∧
      2 ^ k ∣ rounded ∧ p2roundup value (2 ^ k) = rounded % 2 ^ 64 := by
  have unit_pos : 0 < 2 ^ k := by positivity
  have unit_lt : 2 ^ k < 2 ^ 64 := Nat.pow_lt_pow_right Nat.one_lt_two narrow
  have quotient_le : (2 ^ 64 - value) / 2 ^ k * 2 ^ k ≤ 2 ^ 64 - value := Nat.div_mul_le_self _ _
  have quotient_gt : 2 ^ 64 - value < (2 ^ 64 - value) / 2 ^ k * 2 ^ k + 2 ^ k :=
    Nat.lt_div_mul_add unit_pos
  refine ⟨2 ^ 64 - (2 ^ 64 - value) / 2 ^ k * 2 ^ k, by omega, by omega, by omega,
    dvd_sub (pow_dvd_pow 2 narrow.le) (dvd_mul_left _ _), ?_⟩
  rw [p2roundup, sub64_zero positive.ne' bounded, sub64_zero unit_pos.ne' unit_lt,
    and_high (by omega) narrow.le, sub64, zero_add,
    mod_eq_of_lt (by omega : (2 ^ 64 - value) / 2 ^ k * 2 ^ k < 2 ^ 64)]

theorem p2roundup_bounds (room : value + 2 ^ k < 2 ^ 64) :
    value ≤ p2roundup value (2 ^ k) ∧ p2roundup value (2 ^ k) < value + 2 ^ k ∧
    2 ^ k ∣ p2roundup value (2 ^ k) := by
  have unit_pos : 0 < 2 ^ k := by positivity
  have narrow : k < 64 := (Nat.pow_lt_pow_iff_right Nat.one_lt_two).mp (by omega)
  by_cases zero : value = 0
  · have none : p2roundup 0 (2 ^ k) = 0 := by
      rw [p2roundup, show sub64 0 0 = 0 from rfl, zero_and]
      rfl
    rw [zero, none]
    exact ⟨le_rfl, by omega, dvd_zero _⟩
  · obtain ⟨rounded, lower, upper, -, aligned, eq⟩ :=
      p2roundup_two_pow (Nat.pos_of_ne_zero zero) (by omega) narrow
    rw [eq, mod_eq_of_lt (by omega)]
    exact ⟨lower, upper, aligned⟩

theorem bf64Encode_eq (value low length : ℕ) :
    bf64Encode value low length = BitFields.put value low length := by
  rw [bf64Encode, p2phase_two_pow, BitFields.put]

theorem bf64Decode_eq (word low length : ℕ) :
    bf64Decode word low length = BitFields.get word low length := by
  rw [bf64Decode, p2phase_two_pow, BitFields.get]

def txgSize : ℕ := 4

def txgMask : ℕ := txgSize - 1

theorem and_txgMask (txg : ℕ) : txg &&& txgMask = txg % txgSize :=
  and_two_pow_sub_one_eq_mod txg 2

end Zfs
