import Zfs.Library.ByteBuffer
import Zfs.Library.IteratedSum

/-!
# Fletcher checksums

The checksum functions of `fletcher.c` on buffers of bytes, which a host reads as words in its own
byte order.
-/

namespace Zfs

open ByteBuffer Finset IteratedSum

/-- The order in which a host stores the bytes of a word. -/
inductive ByteOrder where
  | little
  | big
  deriving DecidableEq, Repr

namespace ByteOrder

/-- Where a byte of a word of `width` bytes is. -/
def place (width j : ℕ) : ByteOrder → ℕ
  | little => j
  | big => width - 1 - j

def other : ByteOrder → ByteOrder
  | little => big
  | big => little

variable (order : ByteOrder) (buf : Buffer) (i : ℕ)

/-- A word of 32 bits as the host reads it. -/
def load32 : BitVec 32 := (ofLowBytes 4 fun j => buf (4 * i + order.place 4 j)).setWidth 32

end ByteOrder

/-- The bytes of every word of `width` bytes in the opposite order. -/
def swapWords (width : ℕ) (buf : Buffer) : Buffer := fun k =>
  buf (width * (k / width) + (width - 1 - k % width))

section Swap

variable {w : ℕ} (x : BitVec w)

def bswap8 : BitVec w := x &&& 0xff

def bswap16 : BitVec w := bswap8 x <<< 8 ||| bswap8 (x >>> 8)

def bswap32 : BitVec w := bswap16 x <<< 16 ||| bswap16 (x >>> 16)

/-- A function reverses the `n` lowest bytes and drops the others. -/
def Swaps (n : ℕ) (swap : BitVec w → BitVec w) : Prop :=
  ∀ x bit, bit < w → (swap x).getLsbD bit =
    (decide (bit < 8 * n) && x.getLsbD (8 * (n - 1 - bit / 8) + bit % 8))

theorem swaps_bswap8 : Swaps 1 (bswap8 (w := w)) := by
  intro x bit inside
  have mask : (0xff : BitVec w) = BitVec.ofNat w (2 ^ 8 - 1) := rfl
  rw [bswap8, BitVec.getLsbD_and, mask, BitVec.getLsbD_ofNat, Nat.testBit_two_pow_sub_one]
  by_cases low : bit < 8
  · simp [low, inside, Nat.div_eq_of_lt low, Nat.mod_eq_of_lt low]
  · simp [low]

theorem Swaps.double {n m k : ℕ} {swap : BitVec w → BitVec w} (swaps : Swaps n swap)
    (positive : 0 < n) (bits : m = 8 * n) (double : k = 2 * n) :
    Swaps k fun x => swap x <<< m ||| swap (x >>> m) := by
  subst bits double
  intro x bit inside
  rw [BitVec.getLsbD_or, BitVec.getLsbD_shiftLeft, swaps _ bit inside, swaps _ _ (by omega),
    BitVec.getLsbD_ushiftRight]
  by_cases low : bit < 8 * n
  · rw [show 8 * n + (8 * (n - 1 - bit / 8) + bit % 8) =
      8 * (2 * n - 1 - bit / 8) + bit % 8 by omega]
    simp [low, show bit < 8 * (2 * n) by omega]
  · rw [show 8 * (n - 1 - (bit - 8 * n) / 8) + (bit - 8 * n) % 8 =
      8 * (2 * n - 1 - bit / 8) + bit % 8 by omega]
    simp [low, inside, show bit - 8 * n < 8 * n ↔ bit < 8 * (2 * n) by omega]

theorem swaps_bswap32 : Swaps 4 (bswap32 (w := w)) :=
  (swaps_bswap8.double (m := 8) (k := 2) (by decide) (by decide) (by decide)).double
    (by decide) (by decide) (by decide)

end Swap

section Load

variable (order : ByteOrder) (buf : Buffer) (i : ℕ)

/-- The host of the other byte order reads the swapped word. -/
theorem Swaps.load {n w : ℕ} {swap : BitVec w → BitVec w} (swaps : Swaps n swap) (width : w = 8 * n)
    (small : w ≤ 64) :
    (ofLowBytes n fun j => buf (n * i + order.other.place n j)).setWidth w =
      swap ((ofLowBytes n fun j => buf (n * i + order.place n j)).setWidth w) := by
  apply BitVec.eq_of_getLsbD_eq
  intro bit inside
  have place : order.other.place n (bit / 8) = order.place n (n - 1 - bit / 8) := by
    cases order
    · rfl
    · simp only [ByteOrder.other, ByteOrder.place]
      omega
  rw [swaps _ bit inside, BitVec.getLsbD_setWidth, BitVec.getLsbD_setWidth,
    getLsbD_ofLowBytes _ _ (by omega) (by omega), getLsbD_ofLowBytes _ _ (by omega) (by omega),
    show (8 * (n - 1 - bit / 8) + bit % 8) / 8 = n - 1 - bit / 8 by omega,
    show (8 * (n - 1 - bit / 8) + bit % 8) % 8 = bit % 8 by omega, place]
  simp only [inside, show bit < 8 * n by omega,
    show 8 * (n - 1 - bit / 8) + bit % 8 < w by omega, decide_true, Bool.true_and]

theorem load32_other : order.other.load32 buf i = bswap32 (order.load32 buf i) :=
  swaps_bswap32.load order buf i rfl (by decide)

theorem load32_swapWords : order.load32 (swapWords 4 buf) i = order.other.load32 buf i := by
  have bytes : ∀ j < 4, swapWords 4 buf (4 * i + order.place 4 j) =
      buf (4 * i + order.other.place 4 j) := by
    intro j small
    rw [swapWords]
    congr 1
    cases order <;> simp only [ByteOrder.other, ByteOrder.place] <;> omega
  simp only [ByteOrder.load32, ofLowBytes, bytes 0 (by decide), bytes (0 + 1) (by decide),
    bytes (0 + 1 + 1) (by decide), bytes (0 + 1 + 1 + 1) (by decide)]

end Load

structure ZioCksum where
  /-- The sum of the words. -/
  zcWord0 : BitVec 64
  /-- The sum of the first word's values. -/
  zcWord1 : BitVec 64
  /-- The sum of the second word's values. -/
  zcWord2 : BitVec 64
  /-- The sum of the third word's values. -/
  zcWord3 : BitVec 64
  deriving DecidableEq

/-- An iteration of Fletcher's checksum with four accumulators. -/
def fletcher4Step (cksum : ZioCksum) (word : BitVec 32) : ZioCksum :=
  let a := cksum.zcWord0 + word.setWidth 64
  let b := cksum.zcWord1 + a
  let c := cksum.zcWord2 + b
  ⟨a, b, c, cksum.zcWord3 + c⟩

section Loops

variable (order : ByteOrder) (buf : Buffer) (size : ℕ)

/-- The loop over the words of a buffer. -/
def fletcher4Loop (word : BitVec 32 → BitVec 32) (cksum : ZioCksum) : ZioCksum :=
  (List.range (size / 4)).foldl
    (fun cksum i => fletcher4Step cksum (word (order.load32 buf i))) cksum

def fletcher4Native : ZioCksum := fletcher4Loop order buf size id ⟨0, 0, 0, 0⟩

def fletcher4Byteswap : ZioCksum := fletcher4Loop order buf size bswap32 ⟨0, 0, 0, 0⟩

def fletcher4IncrementalNative (zcp : ZioCksum) : ZioCksum := fletcher4Loop order buf size id zcp

def fletcher4IncrementalByteswap (zcp : ZioCksum) : ZioCksum :=
  fletcher4Loop order buf size bswap32 zcp

end Loops

/-- Add the consecutive pieces of a buffer to a checksum. -/
def foldPieces (incremental : Buffer → ℕ → ZioCksum → ZioCksum) :
    List ℕ → Buffer → ZioCksum → ZioCksum
  | [], _, zcp => zcp
  | size :: sizes, buf, zcp =>
    foldPieces incremental sizes (fun k => buf (size + k)) (incremental buf size zcp)

variable {order : ByteOrder}

theorem load32_add (buf : Buffer) (words i : ℕ) :
    order.load32 (fun k => buf (4 * words + k)) i = order.load32 buf (words + i) := by
  simp only [ByteOrder.load32, Nat.mul_add, Nat.add_assoc]

theorem fletcher4Loop_add (buf : Buffer) {size : ℕ} (whole : 4 ∣ size) (rest : ℕ)
    (word : BitVec 32 → BitVec 32) (cksum : ZioCksum) :
    fletcher4Loop order buf (size + rest) word cksum =
      fletcher4Loop order (fun k => buf (size + k)) rest word
        (fletcher4Loop order buf size word cksum) := by
  obtain ⟨words, rfl⟩ := whole
  have split : (4 * words + rest) / 4 = words + rest / 4 := by omega
  rw [fletcher4Loop, split, List.range_add, List.foldl_append, List.foldl_map]
  simp only [fletcher4Loop, load32_add, Nat.mul_div_cancel_left _ (by decide : 0 < 4)]

theorem foldPieces_loop (word : BitVec 32 → BitVec 32) (sizes : List ℕ)
    (whole : ∀ size ∈ sizes, 4 ∣ size) (buf : Buffer) (cksum : ZioCksum) :
    foldPieces (fun buf size => fletcher4Loop order buf size word) sizes buf cksum =
      fletcher4Loop order buf sizes.sum word cksum := by
  induction sizes generalizing buf cksum with
  | nil => rfl
  | cons size sizes ih =>
    rw [foldPieces, ih fun other member => whole other (by simp [member]), List.sum_cons,
      fletcher4Loop_add buf (whole size (by simp))]

/-- Pieces may be added one by one, and a swapped checksum is that of the swapped buffer. -/
theorem fletcher_4_incremental (order : ByteOrder) (buf : Buffer) (sizes : List ℕ)
    (whole : ∀ size ∈ sizes, 4 ∣ size) :
    foldPieces (fletcher4IncrementalNative order) sizes buf ⟨0, 0, 0, 0⟩ =
        fletcher4Native order buf sizes.sum ∧
      foldPieces (fletcher4IncrementalByteswap order) sizes buf ⟨0, 0, 0, 0⟩ =
        fletcher4Byteswap order buf sizes.sum ∧
      fletcher4Byteswap order buf sizes.sum =
        fletcher4Native order (swapWords 4 buf) sizes.sum := by
  refine ⟨foldPieces_loop id sizes whole buf _, foldPieces_loop bswap32 sizes whole buf _, ?_⟩
  simp only [fletcher4Byteswap, fletcher4Native, fletcher4Loop, load32_swapWords, load32_other, id]

theorem fletcher_4_incremental_two :
    foldPieces (fletcher4IncrementalNative .little) [4, 8] (BitVec.ofNat 8) ⟨0, 0, 0, 0⟩ =
      fletcher4Native .little (BitVec.ofNat 8) 12 :=
  (fletcher_4_incremental .little _ [4, 8] (by decide)).1

theorem fletcher4Native_eq (order : ByteOrder) (buf : Buffer) (size : ℕ) :
    let sum := fun k => BitVec.ofNat 64
      (iteratedSum (fun i => (order.load32 buf i).toNat) k (size / 4))
    fletcher4Native order buf size = ⟨sum 0, sum 1, sum 2, sum 3⟩ := by
  rw [fletcher4Native, fletcher4Loop]
  generalize size / 4 = n
  induction n with
  | zero => simp [iteratedSum]
  | succ n ih =>
    rw [List.range_succ, List.foldl_append, ih]
    simp only [List.foldl_cons, List.foldl_nil, fletcher4Step, iteratedSum_succ, iteratedSum_zero,
      BitVec.ofNat_add, id, BitVec.ofNat_toNat]

/-- The words in which two buffers differ. -/
def changedWords (order : ByteOrder) (buf buf' : Buffer) (size : ℕ) : Finset ℕ :=
  {i ∈ range (size / 4) | order.load32 buf i ≠ order.load32 buf' i}

/-- Up to 128K, one to three changed words change the checksum. -/
theorem fletcher_4_detects (order : ByteOrder) (buf buf' : Buffer) (size : ℕ)
    (small : size ≤ 128 * 1024) (some_word : 1 ≤ (changedWords order buf buf' size).card)
    (few : (changedWords order buf buf' size).card ≤ 3) :
    fletcher4Native order buf size ≠ fletcher4Native order buf' size := by
  intro same
  simp only [fletcher4Native_eq, ZioCksum.mk.injEq] at same
  set x := fun i => (order.load32 buf i).toNat
  set y := fun i => (order.load32 buf' i).toNat
  have changed : changedWords order buf buf' size = {i ∈ range (size / 4) | x i ≠ y i} := by
    simp only [changedWords, ne_eq, x, y, BitVec.toNat_inj]
  rw [changed] at some_word few
  have sums : ∀ p ≤ 2, ∑ t ∈ range (size / 4) with x t ≠ y t,
      ((size / 4 - t + p - 1).choose p : ℤ) * (x t - y t) = 0 := by
    intro p order
    have length : size / 4 + 1 ≤ 2 ^ 15 + 1 := by omega
    have large : 3 * ((size / 4 + 1) ^ 2 * 2 ^ 32) < 2 ^ 64 :=
      (Nat.mul_le_mul_left 3 (Nat.mul_le_mul_right _ (Nat.pow_le_pow_left length 2))).trans_lt
        (by norm_num)
    refine sum_changed_eq_zero order (fun i => ⟨BitVec.isLt _, BitVec.isLt _⟩) few large ?_
    rw [Nat.ModEq, ← BitVec.toNat_ofNat, ← BitVec.toNat_ofNat]
    interval_cases p
    · exact congrArg BitVec.toNat same.1
    · exact congrArg BitVec.toNat same.2.1
    · exact congrArg BitVec.toNat same.2.2.1
  obtain ⟨i, here, j, k, other, other', others⟩ := exists_three some_word few
  have zero := changed_eq_zero here others (fun t member => by simp at member; exact member.1) sums
  have differ := (mem_filter.mp here).2
  rw [mul_eq_zero, mul_eq_zero] at zero
  omega

theorem fletcher_4_detects_threeWords :
    (changedWords .little (fun _ => 0) (fun k => if k ∈ [1, 6, 11] then 1 else 0) 16).card = 3 ∧
    fletcher4Native .little (fun _ => 0) 16 ≠
      fletcher4Native .little (fun k => if k ∈ [1, 6, 11] then 1 else 0) 16 :=
  ⟨by decide, fletcher_4_detects .little _ _ 16 (by decide) (by decide) (by decide)⟩

end Zfs
