import Mathlib.Algebra.CharP.Two
import Mathlib.RingTheory.AdjoinRoot
import Zfs.Raidz.Parity

/-!
# Bytes as polynomials

The field of RAID-Z is that of the polynomials over two elements modulo `x^8 + x^4 + x^3 + x^2 + 1`.
-/

namespace Zfs

open AdjoinRoot Finset Function Polynomial

noncomputable def raidzModulus : (ZMod 2)[X] := X ^ 8 + X ^ 4 + X ^ 3 + X ^ 2 + 1

variable (a : BitVec 8)

/-- The polynomial with the bits of a byte as its coefficients. -/
noncomputable def bytePoly : (ZMod 2)[X] := ∑ i ∈ range 8, if a.getLsbD i then X ^ i else 0

theorem degree_bytePoly_lt : (bytePoly a).degree < raidzModulus.degree := by
  have modulus : raidzModulus.degree = 8 := by
    unfold raidzModulus
    compute_degree!
  rw [modulus]
  refine (degree_sum_le _ _).trans_lt ((Finset.sup_lt_iff (WithBot.bot_lt_coe 8)).mpr ?_)
  intro i member
  split_ifs
  · rw [degree_X_pow]
    exact_mod_cast mem_range.mp member
  · rw [degree_zero]
    exact WithBot.bot_lt_coe 8

theorem bytePoly_xor (b : BitVec 8) : bytePoly (a ^^^ b) = bytePoly a + bytePoly b := by
  rw [bytePoly, bytePoly, bytePoly, ← sum_add_distrib]
  refine sum_congr rfl fun i _ => ?_
  rw [BitVec.getLsbD_xor]
  cases a.getLsbD i <;> cases b.getLsbD i <;> simp [CharTwo.add_self_eq_zero]

/-- Multiplying by 2 is multiplying by `x`, up to the modulus. -/
theorem bytePoly_mul2 :
    X * bytePoly a = bytePoly (vdevRaidzMul2 a) + if a.msb then raidzModulus else 0 := by
  have shifted : bytePoly (a <<< 1) + (if a.msb then X ^ 8 else 0) = X * bytePoly a := by
    rw [bytePoly, sum_range_succ', bytePoly, mul_sum, sum_range_succ (fun i => X * _) 7]
    simp only [BitVec.getLsbD_shiftLeft, BitVec.msb_eq_getLsbD_last, mul_ite, mul_zero, ← pow_succ']
    congr 1
    rw [if_neg (by simp), add_zero]
    refine sum_congr rfl fun i member => ?_
    simp [Nat.succ_lt_succ (mem_range.mp member)]
  have reduced : bytePoly (if a.msb then 0x1d else 0) =
      if a.msb then X ^ 4 + X ^ 3 + X ^ 2 + 1 else 0 := by
    split_ifs
    · simp [bytePoly, sum_range_succ]
      ring
    · simp [bytePoly]
  have double : (2 : (ZMod 2)[X]) = 0 := CharTwo.two_eq_zero
  rw [vdevRaidzMul2, bytePoly_xor, reduced, ← shifted, raidzModulus]
  split_ifs
  · linear_combination -(X ^ 4 + X ^ 3 + X ^ 2 + 1) * double
  · ring

/-- The element of the field that a byte stands for. -/
noncomputable def byteClass : Gf256 →+ AdjoinRoot raidzModulus where
  toFun a := mk raidzModulus (bytePoly a)
  map_zero' := (congrArg _ (by simp [bytePoly] : bytePoly (0 : BitVec 8) = 0)).trans (map_zero _)
  map_add' a b := by rw [← map_add]; exact congrArg _ (bytePoly_xor a b)

theorem byteClass_iterate (exp : ℕ) :
    byteClass (vdevRaidzMul2^[exp] a) = mk raidzModulus (bytePoly a * X ^ exp) := by
  induction exp with
  | zero => rw [pow_zero, mul_one]; rfl
  | succ exp ih =>
    have step := congrArg (mk raidzModulus) (bytePoly_mul2 (vdevRaidzMul2^[exp] a))
    have multiple :
        mk raidzModulus (if (vdevRaidzMul2^[exp] a).msb then raidzModulus else 0) = 0 := by
      split_ifs
      · exact mk_self
      · exact map_zero _
    rw [map_add, multiple, add_zero] at step
    rw [iterate_succ_apply', pow_succ, ← mul_assoc, map_mul, ← ih, mul_comm]
    exact step.symm.trans (map_mul _ _ _)

/-- A byte is the remainder of a polynomial that stands for the same element. -/
theorem bytePoly_eq {poly : (ZMod 2)[X]} (same : byteClass a = mk raidzModulus poly) :
    bytePoly a = poly %ₘ raidzModulus := by
  have monic : raidzModulus.Monic := by
    unfold raidzModulus
    monicity!
  have divides := mk_eq_mk.mp same
  rw [← (modByMonic_eq_self_iff monic).mpr (degree_bytePoly_lt a)]
  exact modByMonic_eq_of_dvd_sub monic divides

/-- The Q parity of every row and `vdev_raidz_exp2` in the field. -/
theorem raidz_galois_field :
    (∀ rm : RaidzMap, rm.Words → rm.rmFirstdatacol < rm.rmCols → ∀ k < (rm.rmCol 0).rcSize,
      bytePoly (((vdevRaidzGenerateParityPq rm).rmCol 1).rcData k) =
        (∑ c ∈ Ico rm.rmFirstdatacol rm.rmCols,
          bytePoly (rm.byteAt k c) * X ^ (rm.rmCols - 1 - c)) %ₘ raidzModulus) ∧
    ∀ a exp, exp ≤ 255 →
      bytePoly (vdevRaidzExp2 a exp) = (bytePoly a * X ^ exp) %ₘ raidzModulus := by
  constructor
  · intro rm words some_data k inside
    rw [vdevRaidzGenerateParityPq, RaidzMap.setData_self,
      (generatedPq_apply words some_data inside).2]
    apply bytePoly_eq
    rw [RaidzMap.rowQ, DualParity.turnParity, map_sum, map_sum]
    exact sum_congr rfl fun c _ => byteClass_iterate (rm.byteAt k c) _
  · intro a exp small
    rw [exp2_eq_iterate a small]
    exact bytePoly_eq _ (byteClass_iterate a exp)

/-- Two columns of parity, and two of data with the bytes 0x80 and 0xc0. -/
def twoDataColumns : RaidzMap where
  rmCols := 4
  rmBigcols := 0
  rmAsize := 32
  rmMissingdata := 0
  rmMissingparity := 0
  rmFirstdatacol := 2
  rmCol c := ⟨c, 0, 8, fun _ => .ofNat 8 (64 * c), 0, false, false⟩

theorem raidz_galois_field_twoDataColumns :
    bytePoly (((vdevRaidzGenerateParityPq twoDataColumns).rmCol 1).rcData 5) =
        (bytePoly 0x80 * X + bytePoly 0xc0) %ₘ raidzModulus ∧
    bytePoly (vdevRaidzExp2 0x80 9) = (bytePoly 0x80 * X ^ 9) %ₘ raidzModulus := by
  obtain ⟨parity, exp2⟩ := raidz_galois_field
  refine ⟨?_, exp2 0x80 9 (by decide)⟩
  have words : twoDataColumns.Words := ⟨dvd_rfl, fun _ _ _ => ⟨dvd_rfl, le_rfl⟩⟩
  have row := parity twoDataColumns words (by decide) 5 (by decide)
  rw [show Ico twoDataColumns.rmFirstdatacol twoDataColumns.rmCols = {2, 3} from rfl,
    sum_pair (by decide)] at row
  simpa [twoDataColumns, RaidzMap.byteAt] using row

end Zfs
