import Zfs.Library.BalancedTree

/-!
# AVL nodes

The node layout of `avl_impl.h` on 64-bit machines.  A node holds its two children and one word
that packs the parent pointer, the index of the node in its parent and the balance plus one, so
parents are eight-byte aligned and balances lie in `{-1, 0, 1}`.
-/

namespace Zfs.Avl

open BalancedTree BitVec

/-- A machine address; zero is the null pointer. -/
abbrev Ptr := BitVec 64

/-- `struct avl_node` on an LP64 machine. -/
structure AvlNode where
  avlChild : Side → Ptr
  /-- Parent pointer in the high bits, child index in bit two, balance plus one below. -/
  avlPcb : BitVec 64

/-- The index of a side in `avl_child[]`. -/
def childIndex : Side → BitVec 64
  | .left => 0
  | .right => 1

namespace AvlNode

variable (node : AvlNode) (side : Side)

def xparent : Ptr := node.avlPcb &&& ~~~7#64

def setparent (parent : Ptr) : AvlNode :=
  { node with avlPcb := (node.avlPcb &&& 7#64) ||| parent }

def xchild : Side :=
  if (node.avlPcb >>> 2) &&& 1#64 = 0 then .left else .right

def setchild : AvlNode :=
  { node with avlPcb := (node.avlPcb &&& ~~~4#64) ||| (childIndex side <<< 2) }

def xbalance : ℤ := ((node.avlPcb &&& 3#64).toNat : ℤ) - 1

def setbalance (balance : ℤ) : AvlNode :=
  { node with avlPcb := (node.avlPcb &&& ~~~3#64) ||| BitVec.ofInt 64 (balance + 1) }

/-- Assignment to `avl_child[side]`. -/
def putchild (child : Ptr) : AvlNode :=
  { node with avlChild := Function.update node.avlChild side child }

end AvlNode

/-- The low three bits of an address are clear. -/
def Aligned (address : Ptr) : Prop := address &&& 7#64 = 0

instance (address : Ptr) : Decidable (Aligned address) := inferInstanceAs (Decidable (_ = _))

theorem aligned_zero : Aligned 0 := by decide

private theorem bit_seven (i : ℕ) : (7#64).getLsbD i = decide (i < 3) := by
  by_cases bound : i < 64
  · interval_cases i <;> rfl
  · rw [getLsbD_of_ge _ _ (by omega)]
    simp
    omega

private theorem bit_four (i : ℕ) : (4#64).getLsbD i = decide (i = 2) := by
  by_cases bound : i < 64
  · interval_cases i <;> rfl
  · rw [getLsbD_of_ge _ _ (by omega)]
    simp
    omega

private theorem bit_three (i : ℕ) : (3#64).getLsbD i = decide (i < 2) := by
  by_cases bound : i < 64
  · interval_cases i <;> rfl
  · rw [getLsbD_of_ge _ _ (by omega)]
    simp
    omega

private theorem bit_childIndex (side : Side) (i : ℕ) :
    (childIndex side <<< 2).getLsbD i = (decide (i = 2) && decide (side = .right)) := by
  cases side with
  | left => simp [childIndex]
  | right =>
    have value : childIndex .right <<< 2 = 4#64 := by decide
    rw [value, bit_four]
    simp

variable {i : ℕ} {balance : ℤ}

theorem Aligned.bit {address : Ptr} (aligned : Aligned address) (low : i < 3) :
    address.getLsbD i = false := by
  have bits := congrArg (fun word => getLsbD word i) aligned
  simpa [bit_seven, low] using bits

/-- The balances a node may hold. -/
def SmallBalance (balance : ℤ) : Prop := -1 ≤ balance ∧ balance ≤ 1

theorem smallBalance_zero : SmallBalance 0 := ⟨by decide, by decide⟩

theorem SmallBalance.cases (small : SmallBalance balance) :
    balance = -1 ∨ balance = 0 ∨ balance = 1 := by
  obtain ⟨lower, upper⟩ := small
  omega

namespace AvlNode

section

variable (node : AvlNode)

variable (side : Side) (parent child : Ptr)

@[simp] theorem avlChild_setparent :
    (node.setparent parent).avlChild = node.avlChild := rfl

@[simp] theorem avlChild_setchild :
    (node.setchild side).avlChild = node.avlChild := rfl

@[simp] theorem avlChild_setbalance (balance : ℤ) :
    (node.setbalance balance).avlChild = node.avlChild := rfl

@[simp] theorem avlChild_putchild :
    (node.putchild side child).avlChild = Function.update node.avlChild side child := rfl

@[simp] theorem xparent_putchild :
    (node.putchild side child).xparent = node.xparent := rfl

@[simp] theorem xchild_putchild :
    (node.putchild side child).xchild = node.xchild := rfl

@[simp] theorem xbalance_putchild :
    (node.putchild side child).xbalance = node.xbalance := rfl

private theorem xparent_bit (bound : i < 64) :
    node.xparent.getLsbD i = (node.avlPcb.getLsbD i && decide (3 ≤ i)) := by
  rw [xparent, getLsbD_and, getLsbD_not, bit_seven]
  by_cases low : i < 3
  · simp [low]
  · simp [low, bound, Nat.le_of_not_lt low]

private theorem xchild_eq :
    node.xchild = if node.avlPcb.getLsbD 2 then .right else .left := by
  have bit_zero : (node.avlPcb >>> 2) &&& 1#64 = 0 ↔ node.avlPcb.getLsbD 2 = false := by
    constructor
    · intro masked
      have bits := congrArg (fun word => getLsbD word 0) masked
      simpa using bits
    · intro clear
      apply eq_of_getLsbD_eq
      intro i bound
      by_cases first : i = 0
      · subst first
        simpa using clear
      · simp [first]
  by_cases clear : node.avlPcb.getLsbD 2 = false
  · simp only [xchild, bit_zero.mpr clear, clear, if_true, Bool.false_eq_true, if_false]
  · have set : node.avlPcb.getLsbD 2 = true := by simpa using clear
    rw [xchild, if_neg (fun masked => clear (bit_zero.mp masked)), set, if_pos rfl]

private theorem xbalance_eq :
    node.xbalance =
      ((node.avlPcb.getLsbD 0).toNat : ℤ) + 2 * ((node.avlPcb.getLsbD 1).toNat : ℤ) - 1 := by
  have masked : (node.avlPcb &&& 3#64).toNat = node.avlPcb.toNat % 4 := by
    rw [toNat_and]
    exact Nat.and_two_pow_sub_one_eq_mod _ 2
  rw [xbalance, masked]
  simp only [getLsbD, Nat.testBit_eq_decide_div_mod_eq]
  have first : node.avlPcb.toNat % 2 = 0 ∨ node.avlPcb.toNat % 2 = 1 := by omega
  have second : node.avlPcb.toNat / 2 % 2 = 0 ∨ node.avlPcb.toNat / 2 % 2 = 1 := by omega
  rcases first with first | first <;> rcases second with second | second <;>
    simp [first, second] <;> omega

private theorem setparent_bit (i : ℕ) :
    (node.setparent parent).avlPcb.getLsbD i =
      ((node.avlPcb.getLsbD i && decide (i < 3)) || parent.getLsbD i) := by
  rw [setparent, getLsbD_or, getLsbD_and, bit_seven]

private theorem setchild_bit (bound : i < 64) :
    (node.setchild side).avlPcb.getLsbD i =
      ((node.avlPcb.getLsbD i && !decide (i = 2)) ||
        (decide (i = 2) && decide (side = .right))) := by
  rw [setchild, getLsbD_or, getLsbD_and, getLsbD_not, bit_four,
    bit_childIndex]
  simp [bound]

private theorem setbalance_bit (balance : ℤ) (bound : i < 64) :
    (node.setbalance balance).avlPcb.getLsbD i =
      ((node.avlPcb.getLsbD i && !decide (i < 2)) ||
        (BitVec.ofInt 64 (balance + 1)).getLsbD i) := by
  rw [setbalance, BitVec.getLsbD_or, BitVec.getLsbD_and, BitVec.getLsbD_not, bit_three]
  simp [bound]

end

private theorem balance_bit (small : SmallBalance balance) (high : 2 ≤ i) :
    (BitVec.ofInt 64 (balance + 1)).getLsbD i = false := by
  have small_word : (BitVec.ofInt 64 (balance + 1)).toNat < 4 := by
    rcases small.cases with rfl | rfl | rfl <;> decide
  exact Nat.testBit_lt_two_pow
    (small_word.trans_le (Nat.pow_le_pow_right (by omega : 0 < 2) high))

variable (node : AvlNode)

theorem xparent_setparent {parent : Ptr} (aligned : Aligned parent) :
    (node.setparent parent).xparent = parent := by
  apply eq_of_getLsbD_eq
  intro i bound
  rw [xparent_bit _ bound, setparent_bit]
  by_cases low : i < 3
  · rw [aligned.bit low]
    simp [low, Nat.not_le.mpr low]
  · simp [low, Nat.le_of_not_lt low]

theorem xchild_setparent {parent : Ptr} (aligned : Aligned parent) :
    (node.setparent parent).xchild = node.xchild := by
  rw [xchild_eq, xchild_eq, setparent_bit, aligned.bit (by omega)]
  simp

theorem xbalance_setparent {parent : Ptr} (aligned : Aligned parent) :
    (node.setparent parent).xbalance = node.xbalance := by
  rw [xbalance_eq, xbalance_eq, setparent_bit, setparent_bit, aligned.bit (by omega),
    aligned.bit (by omega)]
  simp

@[simp] theorem xparent_setchild (side : Side) :
    (node.setchild side).xparent = node.xparent := by
  apply eq_of_getLsbD_eq
  intro i bound
  rw [xparent_bit _ bound, xparent_bit _ bound, setchild_bit _ _ bound]
  by_cases second : i = 2
  · simp [second]
  · simp [second]

@[simp] theorem xchild_setchild (side : Side) :
    (node.setchild side).xchild = side := by
  rw [xchild_eq, setchild_bit _ _ (by omega)]
  cases side <;> simp

@[simp] theorem xbalance_setchild (side : Side) :
    (node.setchild side).xbalance = node.xbalance := by
  rw [xbalance_eq, xbalance_eq, setchild_bit _ _ (by omega), setchild_bit _ _ (by omega)]
  simp

theorem xparent_setbalance (small : SmallBalance balance) :
    (node.setbalance balance).xparent = node.xparent := by
  apply BitVec.eq_of_getLsbD_eq
  intro i bound
  rw [xparent_bit _ bound, xparent_bit _ bound, setbalance_bit _ _ bound]
  by_cases high : 3 ≤ i
  · rw [balance_bit small (by omega)]
    simp [high, Nat.not_lt.mpr (by omega : 2 ≤ i)]
  · simp [high]

theorem xchild_setbalance (small : SmallBalance balance) :
    (node.setbalance balance).xchild = node.xchild := by
  rw [xchild_eq, xchild_eq, setbalance_bit _ _ (by omega), balance_bit small (by omega)]
  simp

theorem xbalance_setbalance (small : SmallBalance balance) :
    (node.setbalance balance).xbalance = balance := by
  rw [xbalance_eq, setbalance_bit _ _ (by omega), setbalance_bit _ _ (by omega)]
  rcases small.cases with rfl | rfl | rfl <;> simp

end AvlNode

end Zfs.Avl
