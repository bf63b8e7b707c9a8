import Mathlib.Tactic

/-!
# Byte buffers with word access

Buffers of bytes that loops read and write eight bytes at a time.  A loop whose body treats the
bytes of a word alike is a loop over the bytes.
-/

namespace ByteBuffer

open BitVec

/-- The bytes from an address on. -/
abbrev Buffer := ℕ → BitVec 8

/-- A byte of a word. -/
def wordByte (word : BitVec 64) (j : ℕ) : BitVec 8 := word.extractLsb' (8 * j) 8

/-- A word from its lowest bytes. -/
def ofLowBytes : ℕ → (ℕ → BitVec 8) → BitVec 64
  | 0, _ => 0
  | count + 1, bytes => ofLowBytes count (fun j => bytes (j + 1)) <<< 8 ||| (bytes 0).setWidth 64

/-- The word of eight bytes. -/
def ofBytes (bytes : ℕ → BitVec 8) : BitVec 64 := ofLowBytes 8 bytes

variable (func : BitVec 8 → BitVec 8) (buffer : Buffer) (body : ℕ → BitVec 64 → BitVec 64)

/-- Apply a function to every byte of a word. -/
def mapBytes (word : BitVec 64) : BitVec 64 :=
  ofBytes fun j => func (wordByte word j)

/-- Read a word. -/
def loadWord (i : ℕ) : BitVec 64 := ofBytes fun j => buffer (8 * i + j)

/-- Write a word. -/
def storeWord (i : ℕ) (word : BitVec 64) : Buffer := fun k =>
  if k / 8 = i then wordByte word (k % 8) else buffer k

/-- `for (i = start; i < stop; i++) buffer[i] = body(i, buffer[i])` over words. -/
def forWords (start stop : ℕ) (body : ℕ → BitVec 64 → BitVec 64) (buffer : Buffer) : Buffer :=
  (List.range' start (stop - start)).foldl
    (fun buffer i => storeWord buffer i (body i (loadWord buffer i))) buffer

theorem getLsbD_wordByte (word : BitVec 64) {j bit : ℕ} (small : bit < 8) :
    (wordByte word j).getLsbD bit = word.getLsbD (8 * j + bit) := by
  simp [wordByte, small]

theorem eq_of_wordByte {first second : BitVec 64}
    (same : ∀ j < 8, wordByte first j = wordByte second j) : first = second := by
  apply eq_of_getLsbD_eq
  intro bit inside
  have byte := congrArg (·.getLsbD (bit % 8)) (same (bit / 8) (by omega))
  simp only [getLsbD_wordByte _ (Nat.mod_lt bit (by decide : 0 < 8))] at byte
  rwa [show 8 * (bit / 8) + bit % 8 = bit by omega] at byte

theorem getLsbD_ofLowBytes (count : ℕ) (bytes : ℕ → BitVec 8) {bit : ℕ} (inside : bit < 64)
    (low : bit < 8 * count) :
    (ofLowBytes count bytes).getLsbD bit = (bytes (bit / 8)).getLsbD (bit % 8) := by
  induction count generalizing bytes bit with
  | zero => omega
  | succ count ih =>
    rw [ofLowBytes, getLsbD_or, getLsbD_shiftLeft, getLsbD_setWidth]
    by_cases first : bit < 8
    · simp [first, inside, Nat.div_eq_of_lt, Nat.mod_eq_of_lt]
    · rw [ih _ (by omega) (by omega), (bytes 0).getLsbD_of_ge bit (by omega)]
      simp [first, inside, show (bit - 8) / 8 + 1 = bit / 8 by omega,
        show (bit - 8) % 8 = bit % 8 by omega]

theorem wordByte_ofBytes (bytes : ℕ → BitVec 8) {j : ℕ} (small : j < 8) :
    wordByte (ofBytes bytes) j = bytes j := by
  apply eq_of_getLsbD_eq
  intro bit bit_small
  rw [getLsbD_wordByte _ bit_small, ofBytes, getLsbD_ofLowBytes _ _ (by omega) (by omega),
    show (8 * j + bit) / 8 = j by omega, show (8 * j + bit) % 8 = bit by omega]

theorem wordByte_mapBytes (word : BitVec 64) {j : ℕ} (small : j < 8) :
    wordByte (mapBytes func word) j = func (wordByte word j) := wordByte_ofBytes _ small

theorem wordByte_loadWord (i : ℕ) {j : ℕ} (small : j < 8) :
    wordByte (loadWord buffer i) j = buffer (8 * i + j) := wordByte_ofBytes _ small

theorem wordByte_xor (left right : BitVec 64) (j : ℕ) :
    wordByte (left ^^^ right) j = wordByte left j ^^^ wordByte right j := by
  apply eq_of_getLsbD_eq
  intro bit small
  rw [getLsbD_xor, getLsbD_wordByte _ small, getLsbD_wordByte _ small,
    getLsbD_wordByte _ small, getLsbD_xor]

theorem wordByte_zero (j : ℕ) : wordByte 0 j = 0 := by
  apply eq_of_getLsbD_eq
  intro bit small
  simp [getLsbD_wordByte _ small]

/-- A body treats the bytes of a word alike. -/
def Bytewise (func : ℕ → BitVec 8 → BitVec 8) : Prop :=
  ∀ i word j, j < 8 → wordByte (body i word) j = func (8 * i + j) (wordByte word j)

/-- A loop with a bytewise body is a loop over the bytes. -/
theorem forWords_apply {body : ℕ → BitVec 64 → BitVec 64} {func : ℕ → BitVec 8 → BitVec 8}
    (bytewise : Bytewise body func) (start stop : ℕ) (buffer : Buffer) (k : ℕ) :
    forWords start stop body buffer k =
      if 8 * start ≤ k ∧ k < 8 * stop then func k (buffer k) else buffer k := by
  have run : ∀ count first (buffer : Buffer),
      (List.range' first count).foldl
          (fun buffer i => storeWord buffer i (body i (loadWord buffer i))) buffer k =
        if 8 * first ≤ k ∧ k < 8 * (first + count) then func k (buffer k) else buffer k := by
    intro count
    induction count with
    | zero =>
      intro first buffer
      rw [if_neg (by omega)]
      rfl
    | succ count ih =>
      intro first buffer
      rw [List.range'_succ, List.foldl_cons, ih]
      by_cases here : k / 8 = first
      · have word : k = 8 * first + k % 8 := by omega
        rw [if_neg (by omega), if_pos (by omega), storeWord, if_pos here,
          bytewise _ _ _ (Nat.mod_lt _ (by decide)),
          wordByte_loadWord _ _ (Nat.mod_lt _ (by decide)), ← word]
      · simp only [storeWord, if_neg here]
        exact if_congr (by omega) rfl rfl
  rw [forWords, run]
  rcases Nat.le_total start stop with order | order
  · rw [Nat.add_sub_cancel' order]
  · rw [Nat.sub_eq_zero_of_le order]
    exact if_congr (by omega) rfl rfl

/-- A loop does not touch what lies behind it. -/
theorem forWords_of_le {start stop k : ℕ} (behind : 8 * stop ≤ k) (buffer : Buffer) :
    forWords start stop body buffer k = buffer k := by
  have run : ∀ (list : List ℕ) (buffer : Buffer), (∀ i ∈ list, i < stop) →
      list.foldl (fun buffer i => storeWord buffer i (body i (loadWord buffer i))) buffer k =
        buffer k := by
    intro list
    induction list with
    | nil => exact fun _ _ => rfl
    | cons i list ih =>
      intro buffer inside
      have first := inside i (by simp)
      rw [List.foldl_cons, ih _ fun i' member => inside i' (by simp [member]), storeWord,
        if_neg (by omega)]
  refine run _ buffer fun i member => ?_
  rw [List.mem_range'_1] at member
  omega

end ByteBuffer
