import Mathlib.Data.List.GetD
import Zfs.Library.ByteBuffer
import Zfs.Library.DualParity

/-!
# The Galois field of RAID-Z

Bytes as elements of GF(2^8): addition is exclusive or, and every power of 2 is an iterate of the
multiplication by 2.  The tables of `vdev_raidz.c` compute these iterates, and so does its word
operation, eight bytes at a time.
-/

namespace Zfs

open ByteBuffer Function List

/-- `vdev_raidz_pow2`. -/
def vdevRaidzPow2Table : List (BitVec 8) :=
  [
    0x01, 0x02, 0x04, 0x08, 0x10, 0x20, 0x40, 0x80, 0x1d, 0x3a, 0x74, 0xe8, 0xcd, 0x87, 0x13, 0x26,
    0x4c, 0x98, 0x2d, 0x5a, 0xb4, 0x75, 0xea, 0xc9, 0x8f, 0x03, 0x06, 0x0c, 0x18, 0x30, 0x60, 0xc0,
    0x9d, 0x27, 0x4e, 0x9c, 0x25, 0x4a, 0x94, 0x35, 0x6a, 0xd4, 0xb5, 0x77, 0xee, 0xc1, 0x9f, 0x23,
    0x46, 0x8c, 0x05, 0x0a, 0x14, 0x28, 0x50, 0xa0, 0x5d, 0xba, 0x69, 0xd2, 0xb9, 0x6f, 0xde, 0xa1,
    0x5f, 0xbe, 0x61, 0xc2, 0x99, 0x2f, 0x5e, 0xbc, 0x65, 0xca, 0x89, 0x0f, 0x1e, 0x3c, 0x78, 0xf0,
    0xfd, 0xe7, 0xd3, 0xbb, 0x6b, 0xd6, 0xb1, 0x7f, 0xfe, 0xe1, 0xdf, 0xa3, 0x5b, 0xb6, 0x71, 0xe2,
    0xd9, 0xaf, 0x43, 0x86, 0x11, 0x22, 0x44, 0x88, 0x0d, 0x1a, 0x34, 0x68, 0xd0, 0xbd, 0x67, 0xce,
    0x81, 0x1f, 0x3e, 0x7c, 0xf8, 0xed, 0xc7, 0x93, 0x3b, 0x76, 0xec, 0xc5, 0x97, 0x33, 0x66, 0xcc,
    0x85, 0x17, 0x2e, 0x5c, 0xb8, 0x6d, 0xda, 0xa9, 0x4f, 0x9e, 0x21, 0x42, 0x84, 0x15, 0x2a, 0x54,
    0xa8, 0x4d, 0x9a, 0x29, 0x52, 0xa4, 0x55, 0xaa, 0x49, 0x92, 0x39, 0x72, 0xe4, 0xd5, 0xb7, 0x73,
    0xe6, 0xd1, 0xbf, 0x63, 0xc6, 0x91, 0x3f, 0x7e, 0xfc, 0xe5, 0xd7, 0xb3, 0x7b, 0xf6, 0xf1, 0xff,
    0xe3, 0xdb, 0xab, 0x4b, 0x96, 0x31, 0x62, 0xc4, 0x95, 0x37, 0x6e, 0xdc, 0xa5, 0x57, 0xae, 0x41,
    0x82, 0x19, 0x32, 0x64, 0xc8, 0x8d, 0x07, 0x0e, 0x1c, 0x38, 0x70, 0xe0, 0xdd, 0xa7, 0x53, 0xa6,
    0x51, 0xa2, 0x59, 0xb2, 0x79, 0xf2, 0xf9, 0xef, 0xc3, 0x9b, 0x2b, 0x56, 0xac, 0x45, 0x8a, 0x09,
    0x12, 0x24, 0x48, 0x90, 0x3d, 0x7a, 0xf4, 0xf5, 0xf7, 0xf3, 0xfb, 0xeb, 0xcb, 0x8b, 0x0b, 0x16,
    0x2c, 0x58, 0xb0, 0x7d, 0xfa, 0xe9, 0xcf, 0x83, 0x1b, 0x36, 0x6c, 0xd8, 0xad, 0x47, 0x8e, 0x01]

/-- `vdev_raidz_log2`. -/
def vdevRaidzLog2Table : List (BitVec 8) :=
  [
    0x00, 0x00, 0x01, 0x19, 0x02, 0x32, 0x1a, 0xc6, 0x03, 0xdf, 0x33, 0xee, 0x1b, 0x68, 0xc7, 0x4b,
    0x04, 0x64, 0xe0, 0x0e, 0x34, 0x8d, 0xef, 0x81, 0x1c, 0xc1, 0x69, 0xf8, 0xc8, 0x08, 0x4c, 0x71,
    0x05, 0x8a, 0x65, 0x2f, 0xe1, 0x24, 0x0f, 0x21, 0x35, 0x93, 0x8e, 0xda, 0xf0, 0x12, 0x82, 0x45,
    0x1d, 0xb5, 0xc2, 0x7d, 0x6a, 0x27, 0xf9, 0xb9, 0xc9, 0x9a, 0x09, 0x78, 0x4d, 0xe4, 0x72, 0xa6,
    0x06, 0xbf, 0x8b, 0x62, 0x66, 0xdd, 0x30, 0xfd, 0xe2, 0x98, 0x25, 0xb3, 0x10, 0x91, 0x22, 0x88,
    0x36, 0xd0, 0x94, 0xce, 0x8f, 0x96, 0xdb, 0xbd, 0xf1, 0xd2, 0x13, 0x5c, 0x83, 0x38, 0x46, 0x40,
    0x1e, 0x42, 0xb6, 0xa3, 0xc3, 0x48, 0x7e, 0x6e, 0x6b, 0x3a, 0x28, 0x54, 0xfa, 0x85, 0xba, 0x3d,
    0xca, 0x5e, 0x9b, 0x9f, 0x0a, 0x15, 0x79, 0x2b, 0x4e, 0xd4, 0xe5, 0xac, 0x73, 0xf3, 0xa7, 0x57,
    0x07, 0x70, 0xc0, 0xf7, 0x8c, 0x80, 0x63, 0x0d, 0x67, 0x4a, 0xde, 0xed, 0x31, 0xc5, 0xfe, 0x18,
    0xe3, 0xa5, 0x99, 0x77, 0x26, 0xb8, 0xb4, 0x7c, 0x11, 0x44, 0x92, 0xd9, 0x23, 0x20, 0x89, 0x2e,
    0x37, 0x3f, 0xd1, 0x5b, 0x95, 0xbc, 0xcf, 0xcd, 0x90, 0x87, 0x97, 0xb2, 0xdc, 0xfc, 0xbe, 0x61,
    0xf2, 0x56, 0xd3, 0xab, 0x14, 0x2a, 0x5d, 0x9e, 0x84, 0x3c, 0x39, 0x53, 0x47, 0x6d, 0x41, 0xa2,
    0x1f, 0x2d, 0x43, 0xd8, 0xb7, 0x7b, 0xa4, 0x76, 0xc4, 0x17, 0x49, 0xec, 0x7f, 0x0c, 0x6f, 0xf6,
    0x6c, 0xa1, 0x3b, 0x52, 0x29, 0x9d, 0x55, 0xaa, 0xfb, 0x60, 0x86, 0xb1, 0xbb, 0xcc, 0x3e, 0x5a,
    0xcb, 0x59, 0x5f, 0xb0, 0x9c, 0xa9, 0xa0, 0x51, 0x0b, 0xf5, 0x16, 0xeb, 0x7a, 0x75, 0x2c, 0xd7,
    0x4f, 0xae, 0xd5, 0xe9, 0xe6, 0xe7, 0xad, 0xe8, 0x74, 0xd6, 0xf4, 0xea, 0xa8, 0x50, 0x58, 0xaf]

variable (a : BitVec 8) (exp : ℕ)

/-- An entry of `vdev_raidz_pow2`. -/
def vdevRaidzPow2 : BitVec 8 := vdevRaidzPow2Table.getD exp 0

/-- An entry of `vdev_raidz_log2`. -/
def vdevRaidzLog2 : ℕ := (vdevRaidzLog2Table.getD a.toNat 0).toNat

def vdevRaidzExp2 : BitVec 8 :=
  if a = 0 then
    0
  else
    let exp := exp + vdevRaidzLog2 a
    let exp := if 255 < exp then exp - 255 else exp
    vdevRaidzPow2 exp

def vdevRaidzMul2 : BitVec 8 := (a <<< 1) ^^^ (if a.msb then 0x1d else 0)

/-- The word operation that multiplies eight bytes by 2. -/
def vdevRaidzMul2Word (word : BitVec 64) : BitVec 64 :=
  let mask := word &&& 0x8080808080808080
  let mask := (mask <<< 1) - (mask >>> 7)
  ((word <<< 1) &&& 0xfefefefefefefefe) ^^^ (mask &&& 0x1d1d1d1d1d1d1d1d)

theorem length_pow2Table : vdevRaidzPow2Table.length = 256 := by decide +kernel

theorem length_log2Table : vdevRaidzLog2Table.length = 256 := by decide +kernel

theorem pow2Table_next : ((vdevRaidzPow2Table.tail.zip vdevRaidzPow2Table).all fun entry =>
    entry.1 = vdevRaidzMul2 entry.2) = true := by decide +kernel

theorem pow2Table_ne_one :
    ((vdevRaidzPow2Table.take 255).tail.all fun entry => entry ≠ 1) = true := by
  decide +kernel

theorem log2Table_small : (vdevRaidzLog2Table.all fun log => log.toNat < 255) = true := by
  decide +kernel

theorem log2Table_inverse : ∀ entry ∈ (vdevRaidzLog2Table.zip (range 256)).tail,
    (vdevRaidzPow2 entry.1.toNat).toNat = entry.2 := by decide +kernel

theorem pow2_period : vdevRaidzPow2 255 = 1 := by decide +kernel

theorem pow2_succ {exp : ℕ} (small : exp < 255) :
    vdevRaidzPow2 (exp + 1) = vdevRaidzMul2 (vdevRaidzPow2 exp) := by
  have length := length_pow2Table
  have here : exp < vdevRaidzPow2Table.length := by omega
  have next : exp + 1 < vdevRaidzPow2Table.length := by omega
  refine of_decide_eq_true
    (all_eq_true.mp pow2Table_next (vdevRaidzPow2 (exp + 1), vdevRaidzPow2 exp) ?_)
  apply mem_of_getElem? (i := exp)
  rw [getElem?_zip_eq_some, getElem?_tail, vdevRaidzPow2, vdevRaidzPow2,
    getD_eq_getElem _ _ here, getD_eq_getElem _ _ next]
  exact ⟨getElem?_eq_getElem next, getElem?_eq_getElem here⟩

theorem pow2_ne_one {exp : ℕ} (positive : 0 < exp) (small : exp < 255) : vdevRaidzPow2 exp ≠ 1 := by
  have length := length_pow2Table
  have here : exp < vdevRaidzPow2Table.length := by omega
  refine of_decide_eq_true (all_eq_true.mp pow2Table_ne_one (vdevRaidzPow2 exp) ?_)
  apply mem_of_getElem? (i := exp - 1)
  rw [getElem?_tail, Nat.sub_add_cancel positive, getElem?_take_of_lt small, vdevRaidzPow2,
    getD_eq_getElem _ _ here]
  exact getElem?_eq_getElem here

theorem log2_lt : vdevRaidzLog2 a < 255 := by
  have here : a.toNat < vdevRaidzLog2Table.length := by rw [length_log2Table]; exact a.isLt
  rw [vdevRaidzLog2, getD_eq_getElem _ _ here]
  exact of_decide_eq_true (all_eq_true.mp log2Table_small _ (getElem_mem here))

theorem pow2_log2 {a : BitVec 8} (nonzero : a ≠ 0) : vdevRaidzPow2 (vdevRaidzLog2 a) = a := by
  have here : a.toNat < vdevRaidzLog2Table.length := by rw [length_log2Table]; exact a.isLt
  have positive : 0 < a.toNat := by
    rw [Nat.pos_iff_ne_zero]
    exact fun zero => nonzero (BitVec.eq_of_toNat_eq zero)
  apply BitVec.eq_of_toNat_eq
  refine log2Table_inverse (vdevRaidzLog2Table.getD a.toNat 0, a.toNat) ?_
  apply mem_of_getElem? (i := a.toNat - 1)
  rw [getElem?_tail, Nat.sub_add_cancel positive, getElem?_zip_eq_some,
    getD_eq_getElem _ _ here, getElem?_range a.isLt]
  exact ⟨getElem?_eq_getElem here, rfl⟩

/-- The field, with exclusive or as its addition. -/
def Gf256 := BitVec 8

namespace Gf256

instance : Zero Gf256 := ⟨(0 : BitVec 8)⟩

instance : Add Gf256 := ⟨BitVec.xor⟩

instance : Neg Gf256 := ⟨id⟩

instance : AddCommGroup Gf256 where
  nsmul := nsmulRec
  zsmul := zsmulRec
  add_assoc := BitVec.xor_assoc
  zero_add _ := BitVec.zero_xor
  add_zero _ := BitVec.xor_zero
  neg_add_cancel _ := BitVec.xor_self
  add_comm := BitVec.xor_comm

end Gf256

theorem mul2_zero : vdevRaidzMul2 0 = 0 := by decide

theorem mul2_xor (left right : BitVec 8) :
    vdevRaidzMul2 (left ^^^ right) = vdevRaidzMul2 left ^^^ vdevRaidzMul2 right := by
  rw [vdevRaidzMul2, vdevRaidzMul2, vdevRaidzMul2, BitVec.shiftLeft_xor_distrib, BitVec.msb_xor]
  cases left.msb with
  | false => cases right.msb <;> simp [BitVec.xor_assoc]
  | true =>
    cases right.msb with
    | false => simp [BitVec.xor_assoc, BitVec.xor_comm (right <<< 1)]
    | true =>
      simp only [Bool.xor_self, Bool.false_eq_true, if_false, if_true]
      rw [BitVec.xor_assoc (left <<< 1) 0x1d, BitVec.xor_comm (right <<< 1) 0x1d,
        ← BitVec.xor_assoc 0x1d, BitVec.xor_self, BitVec.zero_xor]
      exact BitVec.xor_zero

theorem iterate_mul2_zero (exp : ℕ) : vdevRaidzMul2^[exp] 0 = 0 :=
  iterate_fixed mul2_zero exp

theorem pow2_eq_iterate {exp : ℕ} (small : exp ≤ 255) :
    vdevRaidzPow2 exp = vdevRaidzMul2^[exp] 1 := by
  induction exp with
  | zero => rfl
  | succ exp ih => rw [pow2_succ (by omega), ih (by omega), iterate_succ_apply']

theorem eq_iterate_log2 {a : BitVec 8} (nonzero : a ≠ 0) :
    a = vdevRaidzMul2^[vdevRaidzLog2 a] 1 := by
  rw [← pow2_eq_iterate (log2_lt a).le, pow2_log2 nonzero]

variable (word : BitVec 64) (a tops : BitVec 8)

theorem iterate_mul2_period : vdevRaidzMul2^[255] a = a := by
  by_cases nonzero : a = 0
  · rw [nonzero, iterate_mul2_zero]
  · rw [eq_iterate_log2 nonzero, ← iterate_add_apply, Nat.add_comm,
      iterate_add_apply, ← pow2_eq_iterate le_rfl, pow2_period]

/-- Multiplying by 2 has order 255. -/
def raidzTurn : DualParity.Turn Gf256 where
  map := { toFun := vdevRaidzMul2, map_zero' := mul2_zero, map_add' := mul2_xor }
  period := 255
  period_pos := by decide
  iterate_period := iterate_mul2_period
  double _ := BitVec.xor_self

/-- `vdev_raidz_exp2` multiplies by a power of 2. -/
theorem exp2_eq_iterate {exp : ℕ} (small : exp ≤ 255) :
    vdevRaidzExp2 a exp = vdevRaidzMul2^[exp] a := by
  have log_lt := log2_lt a
  simp only [vdevRaidzExp2]
  split_ifs with zero large
  · rw [zero, iterate_mul2_zero]
  · rw [pow2_eq_iterate (by omega)]
    conv_rhs => rw [eq_iterate_log2 zero, ← iterate_add_apply]
    rw [show exp + vdevRaidzLog2 a = exp + vdevRaidzLog2 a - 255 + 255 by omega, Nat.add_sub_cancel,
      iterate_add_apply, iterate_mul2_period]
  · rw [pow2_eq_iterate (by omega)]
    conv_rhs => rw [eq_iterate_log2 zero, ← iterate_add_apply]

theorem iterate_mul2_comm (left right : ℕ) (a : BitVec 8) :
    vdevRaidzMul2^[left] (vdevRaidzMul2^[right] a) =
      vdevRaidzMul2^[right] (vdevRaidzMul2^[left] a) := by
  rw [← iterate_add_apply, Nat.add_comm, iterate_add_apply]

theorem iterate_mul2_xor (exp : ℕ) (left right : BitVec 8) :
    vdevRaidzMul2^[exp] (left ^^^ right) =
      vdevRaidzMul2^[exp] left ^^^ vdevRaidzMul2^[exp] right := by
  induction exp generalizing left right with
  | zero => rfl
  | succ exp ih => rw [iterate_succ_apply, mul2_xor, ih]; rfl

theorem iterate_mul2_of_one {left right : ℕ}
    (same : vdevRaidzMul2^[left] 1 = vdevRaidzMul2^[right] 1) (a : BitVec 8) :
    vdevRaidzMul2^[left] a = vdevRaidzMul2^[right] a := by
  by_cases zero : a = 0
  · rw [zero, iterate_mul2_zero, iterate_mul2_zero]
  · rw [eq_iterate_log2 zero, iterate_mul2_comm left, same, iterate_mul2_comm right]

/-- A logarithm of a sum of powers of 2. -/
theorem iterate_log2_add_one {exp : ℕ} (positive : 0 < exp) (small : exp < 255) (a : BitVec 8) :
    vdevRaidzMul2^[vdevRaidzLog2 (vdevRaidzPow2 exp ^^^ 1)] a = vdevRaidzMul2^[exp] a ^^^ a := by
  have nonzero : vdevRaidzPow2 exp ^^^ 1 ≠ 0 := fun zero =>
    pow2_ne_one positive small (BitVec.xor_eq_zero_iff.mp zero)
  have one : vdevRaidzMul2^[vdevRaidzLog2 (vdevRaidzPow2 exp ^^^ 1)] 1 =
      vdevRaidzMul2^[exp] 1 ^^^ 1 := by
    rw [← eq_iterate_log2 nonzero, pow2_eq_iterate small.le]
  by_cases zero : a = 0
  · rw [zero, iterate_mul2_zero, iterate_mul2_zero]
    rfl
  · rw [eq_iterate_log2 zero, iterate_mul2_comm, one, iterate_mul2_comm exp, iterate_mul2_xor]

/-- Looking a power up and multiplying it with another one. -/
theorem iterate_log2_exp2 {exp tmp : ℕ} (exp_small : exp ≤ 255) (tmp_small : tmp ≤ 255)
    (a : BitVec 8) :
    vdevRaidzMul2^[vdevRaidzLog2 (vdevRaidzExp2 (vdevRaidzPow2 exp) tmp)] a =
      vdevRaidzMul2^[tmp + exp] a := by
  have power : vdevRaidzExp2 (vdevRaidzPow2 exp) tmp = vdevRaidzMul2^[tmp + exp] 1 := by
    rw [exp2_eq_iterate _ tmp_small, pow2_eq_iterate exp_small, iterate_add_apply]
  have nonzero : vdevRaidzMul2^[tmp + exp] 1 ≠ 0 := by
    intro zero
    have one_zero : (1 : BitVec 8) = 0 :=
      raidzTurn.iterate_injective (tmp + exp) (zero.trans (iterate_mul2_zero (tmp + exp)).symm)
    exact absurd one_zero (by decide)
  refine iterate_mul2_of_one ?_ a
  rw [power, ← eq_iterate_log2 nonzero]

/-- The word with a byte's bits at the tops of its bytes. -/
def spreadTops : BitVec 64 :=
  ofBytes fun j => if tops.getLsbD j then 0x80 else 0

/-- The word whose bytes are all ones or zeros, by the bits. -/
def fillBytes : BitVec 64 := ofBytes fun j => if tops.getLsbD j then 0xff else 0

theorem fill_table : ((range 256).all fun tops =>
    (spreadTops (BitVec.ofNat 8 tops) <<< 1) - (spreadTops (BitVec.ofNat 8 tops) >>> 7) =
      fillBytes (BitVec.ofNat 8 tops)) = true := by decide +kernel

theorem shift_sub_shift :
    (spreadTops tops <<< 1) - (spreadTops tops >>> 7) = fillBytes tops := by
  have entry := all_eq_true.mp fill_table tops.toNat (mem_range.mpr tops.isLt)
  simpa using entry

theorem getLsbD_repeated : ∀ j < 8, ∀ bit < 8,
    (0x8080808080808080 : BitVec 64).getLsbD (8 * j + bit) = (0x80 : BitVec 8).getLsbD bit ∧
    (0xfefefefefefefefe : BitVec 64).getLsbD (8 * j + bit) = (0xfe : BitVec 8).getLsbD bit ∧
    (0x1d1d1d1d1d1d1d1d : BitVec 64).getLsbD (8 * j + bit) = (0x1d : BitVec 8).getLsbD bit := by
  decide

theorem getLsbD_ofBytes (bytes : ℕ → BitVec 8) {j bit : ℕ} (j_small : j < 8) (bit_small : bit < 8) :
    (ofBytes bytes).getLsbD (8 * j + bit) = (bytes j).getLsbD bit := by
  rw [← getLsbD_wordByte _ bit_small, wordByte_ofBytes _ j_small]

theorem eq_of_bytes {left right : BitVec 64}
    (same : ∀ j < 8, ∀ bit < 8, left.getLsbD (8 * j + bit) = right.getLsbD (8 * j + bit)) :
    left = right := by
  apply BitVec.eq_of_getLsbD_eq
  intro place inside
  have bits := same (place / 8) (by omega) (place % 8) (Nat.mod_lt _ (by decide))
  rwa [show 8 * (place / 8) + place % 8 = place by omega] at bits

/-- The bits at the tops of the bytes of a word. -/
theorem exists_tops : ∃ tops : BitVec 8,
    word &&& 0x8080808080808080 = spreadTops tops ∧
    ∀ j < 8, tops.getLsbD j = word.getLsbD (8 * j + 7) := by
  let tops : BitVec 8 := BitVec.ofBoolListLE [word.getLsbD 7, word.getLsbD 15, word.getLsbD 23,
    word.getLsbD 31, word.getLsbD 39, word.getLsbD 47, word.getLsbD 55, word.getLsbD 63]
  have tops_eq : ∀ j < 8, tops.getLsbD j = word.getLsbD (8 * j + 7) := by
    intro j small
    rw [BitVec.getLsbD_ofBoolListLE]
    interval_cases j <;> rfl
  refine ⟨tops, eq_of_bytes fun j j_small bit bit_small => ?_, tops_eq⟩
  rw [BitVec.getLsbD_and, (getLsbD_repeated j j_small bit bit_small).1, spreadTops,
    getLsbD_ofBytes _ j_small bit_small, tops_eq j j_small]
  interval_cases bit <;> cases word.getLsbD (8 * j + 7) <;> simp

/-- The word operation multiplies every byte by 2. -/
theorem wordByte_mul2Word {j : ℕ} (small : j < 8) :
    wordByte (vdevRaidzMul2Word word) j = vdevRaidzMul2 (wordByte word j) := by
  obtain ⟨tops, mask_eq, tops_eq⟩ := exists_tops word
  apply BitVec.eq_of_getLsbD_eq
  intro bit bit_small
  have repeated := getLsbD_repeated j small bit bit_small
  rw [getLsbD_wordByte _ bit_small, vdevRaidzMul2Word]
  simp only [mask_eq, shift_sub_shift]
  rw [BitVec.getLsbD_xor, BitVec.getLsbD_and, BitVec.getLsbD_and, repeated.2.1, repeated.2.2,
    fillBytes, getLsbD_ofBytes _ small bit_small, tops_eq j small]
  have top : (wordByte word j).msb = word.getLsbD (8 * j + 7) := by
    rw [BitVec.msb_eq_getLsbD_last]
    exact getLsbD_wordByte word (by decide)
  rw [vdevRaidzMul2, top, BitVec.getLsbD_xor]
  have filled : ∀ flag : Bool, ((if flag then (0xff : BitVec 8) else 0).getLsbD bit &&
      (0x1d : BitVec 8).getLsbD bit) = (if flag then (0x1d : BitVec 8) else 0).getLsbD bit := by
    intro flag
    interval_cases bit <;> cases flag <;> rfl
  have shifted : ((word <<< 1).getLsbD (8 * j + bit) && (0xfe : BitVec 8).getLsbD bit) =
      (wordByte word j <<< 1).getLsbD bit := by
    rw [BitVec.getLsbD_shiftLeft, BitVec.getLsbD_shiftLeft]
    cases bit with
    | zero => simp
    | succ bit =>
      rw [Nat.add_sub_cancel, getLsbD_wordByte _ (by omega), ← Nat.add_assoc, Nat.add_sub_cancel]
      have high : (0xfe : BitVec 8).getLsbD (bit + 1) = true := by
        have small : bit < 7 := by omega
        interval_cases bit <;> rfl
      rw [high, Bool.and_true, decide_eq_true (by omega : 8 * j + bit + 1 < 64),
        decide_eq_true bit_small, decide_eq_false (by omega), decide_eq_false (by omega)]
  rw [filled, shifted]

end Zfs
