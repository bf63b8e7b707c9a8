import Zfs.Raidz.Layout

/-!
# Where the columns of blocks are

The sectors of a vdev are numbered along the rows of its children.  The sectors of column `c` of a
block at sector `b` are those at `b + c`, `b + c + dcols` and so on, within its allocated size.
-/

namespace Zfs

open ByteBuffer Nat RaidzMap

namespace RaidzVdev

variable (vd : RaidzVdev)

def vdevRaidzAsize (psize : ℕ) : ℕ :=
  let asize := ((psize - 1) >>> vd.vdevAshift) + 1
  let asize := asize + vd.vdevNparity *
    ((asize + vd.vdevChildren - vd.vdevNparity - 1) / (vd.vdevChildren - vd.vdevNparity))
  roundup asize (vd.vdevNparity + 1) <<< vd.vdevAshift

/-- A block of whole sectors. -/
def block (b s : ℕ) : RaidzBlock := ⟨vd, b <<< vd.vdevAshift, s <<< vd.vdevAshift⟩

/-- The sectors of a block and its parity. -/
def total (s : ℕ) : ℕ := (vd.block 0 s).fullSectors * vd.vdevChildren + (vd.block 0 s).bigCols

variable {vd} {b s b' s' c c' : ℕ}

theorem total_le_asize (some_sectors : 0 < s) :
    vd.total s <<< vd.vdevAshift ≤ vd.vdevRaidzAsize (s <<< vd.vdevAshift) := by
  obtain ⟨width, children⟩ := Nat.exists_eq_add_of_lt vd.wide
  have count : ((s <<< vd.vdevAshift - 1) >>> vd.vdevAshift) + 1 = s := by
    rw [shiftLeft_eq, shiftRight_eq_div_pow, Nat.mul_comm,
      Nat.mul_sub_div 0 _ _ (by positivity), Nat.zero_div]
    omega
  -- every row of data has its parity
  have total_eq : vd.total s = s + vd.vdevNparity * ((s + width) / (width + 1)) := by
    have split := Nat.div_add_mod s (width + 1)
    simp only [total, block, RaidzBlock.bigCols, RaidzBlock.extraSectors, RaidzBlock.fullSectors,
      shiftLeft_shiftRight, children, show vd.vdevNparity + width + 1 - vd.vdevNparity = width + 1
        by omega, ← Nat.mod_eq_sub_div_mul, Nat.add_div (Nat.succ_pos width),
      Nat.div_eq_of_lt width.lt_succ_self, Nat.mod_eq_of_lt width.lt_succ_self]
    generalize s / (width + 1) = rows, s % (width + 1) = rest at split ⊢
    subst split
    by_cases whole : rest = 0
    · simp [whole]
      ring
    · rw [if_neg whole, if_pos (by omega)]
      ring
  have rounded := Nat.lt_div_mul_add (a := vd.total s + vd.vdevNparity)
    (by omega : 0 < vd.vdevNparity + 1)
  rw [vdevRaidzAsize, count, children, show s + (vd.vdevNparity + width + 1) - vd.vdevNparity - 1 =
    s + width by omega, show vd.vdevNparity + width + 1 - vd.vdevNparity = width + 1 by omega,
    ← total_eq, roundup, Nat.add_sub_cancel, shiftLeft_eq, shiftLeft_eq]
  exact Nat.mul_le_mul_right _ (by omega)

theorem place_eq {d : ℕ} (shift : ℕ) (inside : c < d) :
    (if d ≤ b % d + c then b % d + c - d else b % d + c) = (b + c) % d ∧
    (if d ≤ b % d + c then (b / d) <<< shift + 1 <<< shift else (b / d) <<< shift) =
      ((b + c) / d) <<< shift := by
  have positive : 0 < d := by omega
  have small := Nat.mod_lt b positive
  rw [Nat.add_div positive, Nat.mod_eq_of_lt inside, Nat.div_eq_of_lt inside, ← Nat.mod_add_mod b]
  simp only [shiftLeft_eq]
  split_ifs with wraps
  · rw [Nat.mod_eq_sub_mod wraps, Nat.mod_eq_of_lt (by omega : b % d + c - d < d)]
    exact ⟨rfl, by ring⟩
  · exact ⟨(Nat.mod_eq_of_lt (by omega)).symm, by ring⟩

theorem exists_slot (ioData : Buffer) (fresh : ℕ → Buffer) (inside : c < (vd.block b s).cols) :
    let rc := ((vd.block b s).mapAlloc ioData fresh).rmCol c
    ∃ slot rows, rc.rcDevidx = (b + slot) % vd.vdevChildren ∧
    rc.rcOffset = ((b + slot) / vd.vdevChildren) <<< vd.vdevAshift ∧
    rc.rcSize = (rows + 1) <<< vd.vdevAshift ∧ slot + rows * vd.vdevChildren < vd.total s := by
  intro rc
  have wide := vd.wide
  have col_lt : c < vd.vdevChildren := inside.trans_le (vd.block b s).cols_le
  have big : (vd.block b s).bigCols = 0 ∨ vd.vdevNparity < (vd.block b s).bigCols := by
    rw [RaidzBlock.bigCols]
    split_ifs with whole
    · exact .inl rfl
    · exact .inr (Nat.lt_add_of_pos_left (Nat.pos_of_ne_zero whole))
  -- single parity is switched every 1MB
  obtain ⟨slot, slot_lt, slot_big, place⟩ : ∃ slot < vd.vdevChildren,
      (c < (vd.block b s).bigCols → slot < (vd.block b s).bigCols) ∧
      rc.rcDevidx = (b + slot) % vd.vdevChildren ∧
      rc.rcOffset = ((b + slot) / vd.vdevChildren) <<< vd.vdevAshift := by
    simp only [rc, show (vd.block b s).mapAlloc ioData fresh = vdevRaidzMapAlloc
      (b <<< vd.vdevAshift) (s <<< vd.vdevAshift) ioData vd.vdevAshift vd.vdevChildren
      vd.vdevNparity fresh from rfl, vdevRaidzMapAlloc, shiftLeft_shiftRight]
    split
    · by_cases second : c = 1
      · refine ⟨0, by omega, by omega, ?_⟩
        rw [second, setCol_self]
        exact place_eq _ (by omega)
      · rw [setCol_of_ne _ second]
        by_cases parity : c = 0
        · refine ⟨1, by omega, by omega, ?_⟩
          rw [parity, setCol_self]
          exact place_eq _ (by omega)
        · rw [setCol_of_ne _ parity]
          exact ⟨c, col_lt, id, place_eq _ col_lt⟩
    · exact ⟨c, col_lt, id, place_eq _ col_lt⟩
  have size_eq : rc.rcSize = colSize (vd.block b s).fullSectors (vd.block b s).bigCols
    vd.vdevAshift c := (vd.block b s).mapAlloc_size ioData fresh c
  have total_eq : vd.total s =
    (vd.block b s).fullSectors * vd.vdevChildren + (vd.block b s).bigCols := rfl
  by_cases tall : c < (vd.block b s).bigCols
  · exact ⟨slot, _, place.1, place.2, by rw [size_eq, colSize, if_pos tall], by omega⟩
  · have full : (vd.block b s).fullSectors ≠ 0 := fun none =>
      tall (by rwa [RaidzBlock.cols, if_pos none] at inside)
    obtain ⟨rows, full_eq⟩ := Nat.exists_eq_succ_of_ne_zero full
    refine ⟨slot, rows, place.1, place.2, by rw [size_eq, colSize, if_neg tall, full_eq], ?_⟩
    rw [total_eq, full_eq, Nat.succ_mul]
    omega

end RaidzVdev

open RaidzVdev in
/-- On each child, a block's columns are before those of blocks allocated behind. -/
theorem raidz_blocks_apart {vd : RaidzVdev} {b s b' s' c c' : ℕ} (some_sectors : 0 < s)
    (behind : b <<< vd.vdevAshift + vd.vdevRaidzAsize (s <<< vd.vdevAshift) ≤ b' <<< vd.vdevAshift)
    (col : c < (vd.block b s).cols) (col' : c' < (vd.block b' s').cols)
    (ioData ioData' : Buffer) (fresh fresh' : ℕ → Buffer) :
    let rc := ((vd.block b s).mapAlloc ioData fresh).rmCol c
    let rc' := ((vd.block b' s').mapAlloc ioData' fresh').rmCol c'
    rc.rcDevidx = rc'.rcDevidx → rc.rcOffset + rc.rcSize ≤ rc'.rcOffset := by
  intro rc rc' child
  obtain ⟨slot, rows, child_eq, offset_eq, size_eq, last_lt⟩ := exists_slot ioData fresh col
  obtain ⟨slot', -, child_eq', offset_eq', -, -⟩ := exists_slot ioData' fresh' col'
  have bases : b + vd.total s ≤ b' := by
    refine Nat.le_of_mul_le_mul_right ?_ (by positivity : 0 < 2 ^ vd.vdevAshift)
    rw [Nat.add_mul, ← shiftLeft_eq, ← shiftLeft_eq, ← shiftLeft_eq]
    exact (Nat.add_le_add_left (total_le_asize some_sectors) _).trans behind
  -- on one child, a sector that comes before another is in a row above
  have less : vd.vdevChildren * ((b + slot) / vd.vdevChildren + rows) <
      vd.vdevChildren * ((b' + slot') / vd.vdevChildren) := by
    have split := Nat.div_add_mod (b + slot) vd.vdevChildren
    have split' := Nat.div_add_mod (b' + slot') vd.vdevChildren
    have same := child_eq.symm.trans (child.trans child_eq')
    rw [Nat.mul_add, Nat.mul_comm _ rows]
    omega
  rw [offset_eq, size_eq, offset_eq', shiftLeft_eq, shiftLeft_eq, shiftLeft_eq, ← Nat.add_mul]
  exact Nat.mul_le_mul_right _ (Nat.lt_of_mul_lt_mul_left less)

/-- The next block after one of four sectors. -/
theorem raidz_blocks_apart_next :
    (((fourSectors.vd.block 0 4).mapAlloc (fun _ => 0) fun _ _ => 0).rmCol 0).rcOffset +
      (((fourSectors.vd.block 0 4).mapAlloc (fun _ => 0) fun _ _ => 0).rmCol 0).rcSize ≤
      (((fourSectors.vd.block 9 4).mapAlloc (fun _ => 0) fun _ _ => 0).rmCol 1).rcOffset := by
  apply raidz_blocks_apart <;> decide

end Zfs
