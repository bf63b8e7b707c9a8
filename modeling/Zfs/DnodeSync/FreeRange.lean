import Zfs.Library.Radix
import Zfs.DnodeSync.Kills

/-!
# The effect of freeing a range

The recursion leaves nothing of the range below the block it is called for, and reports `ALL` only
when it leaves nothing at all.  What lies beyond `dn_maxblkid` is not allocated, so a truncation may
pass over the rest of an indirect block.
-/

namespace Zfs

open Radix List Nat

variable {level node : ℕ} {block : ℕ × ℕ}

namespace SyncDnode

variable {dn mid after : SyncDnode} {blocks : List (ℕ × ℕ)}

/-- No data block is allocated below a node. -/
def Emptied (dn : SyncDnode) (width level node : ℕ) : Prop :=
  ∀ leaf, ancestor width level leaf = node → ¬ dn.Allocated (0, leaf)

/-- No data block of a range is allocated below a node. -/
def EmptiedIn (dn : SyncDnode) (first last width level node : ℕ) : Prop :=
  ∀ leaf, ancestor width level leaf = node → first ≤ leaf → leaf ≤ last → ¬ dn.Allocated (0, leaf)

theorem Emptied.emptiedIn {first last width : ℕ} (emptied : dn.Emptied width level node) :
    dn.EmptiedIn first last width level node := fun leaf below _ _ => emptied leaf below

/-- The tree has no data below a hole or beyond the last block. -/
structure TreeOk (width nlevels maxblkid : ℕ) (dn : SyncDnode) : Prop where
  /-- The space is that of the blocks. -/
  booked : Booked dn
  /-- Below a hole are holes. -/
  beneath : ∀ level node, level + 1 < nlevels → ¬ dn.Allocated (level + 1, node) →
    dn.Emptied width (level + 1) node
  /-- No block behind the last one is allocated. -/
  beyond : ∀ leaf, maxblkid < leaf → ¬ dn.Allocated (0, leaf)

section Freeing

variable {width nlevels maxblkid first last : ℕ}

theorem Kills.not_allocated (kills : Kills dn blocks after) (hole : ¬ dn.Allocated block) :
    ¬ after.Allocated block :=
  fun allocated => hole (kills.allocated_iff.mp allocated).1

/-- The tree stays in order when killed blocks have nothing below. -/
theorem Kills.treeOk (kills : Kills dn blocks after) (ok : TreeOk width nlevels maxblkid dn)
    (empty : ∀ level node, (level + 1, node) ∈ blocks → after.Emptied width (level + 1) node) :
    TreeOk width nlevels maxblkid after where
  booked := kills.booked ok.booked
  beneath := by
    intro level node inside hole leaf below
    by_cases before : dn.Allocated (level + 1, node)
    · have member : (level + 1, node) ∈ blocks := by
        by_contra spared
        exact hole (kills.allocated_iff.mpr ⟨before, spared⟩)
      exact empty level node member leaf below
    · exact kills.not_allocated (ok.beneath level node inside before leaf below)
  beyond := fun leaf outside => kills.not_allocated (ok.beyond leaf outside)

/-- Data of the range and indirect blocks with nothing below are killed. -/
structure Freed (width nlevels maxblkid first last : ℕ) (dn after : SyncDnode) : Prop where
  /-- The tree is well-formed. -/
  ok : TreeOk width nlevels maxblkid after
  /-- Only data of the range and empty indirect blocks are killed. -/
  kills : ∃ blocks, Kills dn blocks after ∧
    (∀ leaf, (0, leaf) ∈ blocks → first ≤ leaf ∧ leaf ≤ last) ∧
    ∀ level node, (level + 1, node) ∈ blocks → after.Emptied width (level + 1) node

namespace Freed

protected theorem refl (ok : TreeOk width nlevels maxblkid dn) :
    Freed width nlevels maxblkid first last dn dn :=
  ⟨ok, [], Kills.refl dn, by simp, by simp⟩

theorem trans (freed : Freed width nlevels maxblkid first last dn mid)
    (next : Freed width nlevels maxblkid first last mid after) :
    Freed width nlevels maxblkid first last dn after := by
  obtain ⟨-, blocks, kills, within, empty⟩ := freed
  obtain ⟨ok, later, kills', within', empty'⟩ := next
  refine ⟨ok, blocks ++ later, kills.trans kills', ?_, ?_⟩
  · intro leaf member
    rcases mem_append.mp member with early | late
    · exact within leaf early
    · exact within' leaf late
  · intro level node member
    rcases mem_append.mp member with early | late
    · exact fun leaf below => kills'.not_allocated (empty level node early leaf below)
    · exact empty' level node late

variable (freed : Freed width nlevels maxblkid first last dn after)

include freed

theorem not_allocated (hole : ¬ dn.Allocated block) : ¬ after.Allocated block := by
  obtain ⟨-, blocks, kills, -, -⟩ := freed
  exact kills.not_allocated hole

theorem emptied (empty : dn.Emptied width level node) : after.Emptied width level node :=
  fun leaf below => freed.not_allocated (empty leaf below)

theorem emptiedIn (empty : dn.EmptiedIn first last width level node) :
    after.EmptiedIn first last width level node :=
  fun leaf below low high => freed.not_allocated (empty leaf below low high)

end Freed

/-- Data blocks of the range may be freed at any time. -/
theorem TreeOk.freeBlocks_data (ok : TreeOk width nlevels maxblkid dn) {blkid num : ℕ}
    (low : first ≤ blkid) (high : blkid + num ≤ last + 1) :
    Freed width nlevels maxblkid first last dn (dn.freeBlocks 0 blkid num).2 ∧
    ∀ leaf, blkid ≤ leaf → leaf < blkid + num →
      ¬ (dn.freeBlocks 0 blkid num).2.Allocated (0, leaf) := by
  have kills := ok.booked.freeBlocks 0 blkid num
  have no_indirect : ∀ level node, (level + 1, node) ∈ dn.live 0 blkid num →
      (dn.freeBlocks 0 blkid num).2.Emptied width (level + 1) node := by
    intro level node member
    cases (mem_live.mp member).1
  refine ⟨⟨kills.treeOk ok no_indirect, _, kills, ?_, no_indirect⟩, ?_⟩
  · intro leaf member
    obtain ⟨-, from_, until_, -⟩ := mem_live.mp member
    omega
  · intro leaf from_ until_ allocated
    obtain ⟨before, spared⟩ := kills.allocated_iff.mp allocated
    exact spared (mem_live.mpr ⟨rfl, from_, until_, before⟩)

/-- An indirect block may be freed when nothing is left below it. -/
theorem TreeOk.freeBlocks_indirect (ok : TreeOk width nlevels maxblkid dn)
    (empty : dn.Emptied width (level + 1) node) :
    Freed width nlevels maxblkid first last dn (dn.freeBlocks (level + 1) node 1).2 := by
  have kills := ok.booked.freeBlocks (level + 1) node 1
  have only_this : ∀ level' node', (level' + 1, node') ∈ dn.live (level + 1) node 1 →
      (dn.freeBlocks (level + 1) node 1).2.Emptied width (level' + 1) node' := by
    intro level' node' member leaf below
    obtain ⟨same_level, low, high, -⟩ := mem_live.mp member
    simp only [add_right_cancel_iff] at same_level low high
    obtain rfl : node' = node := by omega
    exact kills.not_allocated (empty leaf (same_level ▸ below))
  refine ⟨kills.treeOk ok only_this, _, kills, ?_, only_this⟩
  intro leaf member
  cases (mem_live.mp member).1

/-- What the recursion does to the node it is called for. -/
structure FreesBelow (width nlevels maxblkid first last level node : ℕ) (dn : SyncDnode)
    (result : ℤ × SyncDnode) : Prop where
  freed : Freed width nlevels maxblkid first last dn result.2
  range_empty : result.2.EmptiedIn first last width level node
  all_empty : result.1 = -1 → result.2.Emptied width level node

/-- What the loop does to the nodes it passes. -/
structure FreesEach (width nlevels maxblkid first last level left i : ℕ) (all : Bool)
    (dn : SyncDnode) (result : Bool × ℤ × SyncDnode) : Prop where
  freed : Freed width nlevels maxblkid first last dn result.2.2
  count : 0 ≤ result.2.1
  range_empty : ∀ node, i ≤ node → node < i + left →
    result.2.2.EmptiedIn first last width level node
  all_empty : result.1 = true → all = true ∧ ∀ node, i ≤ node → node < i + left →
    result.2.2.Emptied width level node

theorem FreesEach.cons {left i : ℕ} {all all' : Bool} {result : Bool × ℤ × SyncDnode}
    (rest : FreesEach width nlevels maxblkid first last level left (i + 1) all' mid result)
    (freed : Freed width nlevels maxblkid first last dn mid)
    (range_empty : mid.EmptiedIn first last width level i)
    (all_empty : all' = true → all = true ∧ mid.Emptied width level i) :
    FreesEach width nlevels maxblkid first last level (left + 1) i all dn result where
  freed := freed.trans rest.freed
  count := rest.count
  range_empty := by
    intro node low high
    rcases eq_or_lt_of_le low with rfl | later
    · exact rest.freed.emptiedIn range_empty
    · exact rest.range_empty node later (by omega)
  all_empty := by
    intro is_all
    obtain ⟨still, empty⟩ := rest.all_empty is_all
    obtain ⟨was_all, here⟩ := all_empty still
    refine ⟨was_all, ?_⟩
    intro node low high
    rcases eq_or_lt_of_le low with rfl | later
    · exact rest.freed.emptied here
    · exact empty node later (by omega)

theorem freeEach_spec (inside : level + 1 < nlevels) {free : ℕ → SyncDnode → ℤ × SyncDnode}
    (bound : ℕ) (free_spec : ∀ node dn, node < bound → TreeOk width nlevels maxblkid dn →
      FreesBelow width nlevels maxblkid first last (level + 1) node dn (free node dn)) (left i : ℕ)
    (within : i + left ≤ bound) (all : Bool) (blocksFreed : ℤ) (counted : 0 ≤ blocksFreed)
    (dn : SyncDnode) (ok : TreeOk width nlevels maxblkid dn) :
    FreesEach width nlevels maxblkid first last (level + 1) left i all dn
      (freeEach free (level + 1) left i all blocksFreed dn) := by
  induction left generalizing i all blocksFreed dn with
  | zero =>
    exact ⟨Freed.refl ok, counted, fun node low high => by omega,
      fun is_all => ⟨is_all, fun node low high => by omega⟩⟩
  | succ left ih =>
    rw [freeEach]
    dsimp only
    split_ifs with hole all_below
    · -- a hole has nothing below it
      have empty : dn.Emptied width (level + 1) i :=
        ok.beneath level i inside (by simp [Allocated, hole])
      exact (ih (i + 1) (by omega) all blocksFreed counted dn ok).cons (Freed.refl ok)
        empty.emptiedIn fun still => ⟨still, empty⟩
    · have below := free_spec i dn (by omega) ok
      have empty := below.all_empty all_below
      have indirect : Freed width nlevels maxblkid first last (free i dn).2
          ((free i dn).2.freeBlocks (level + 1) i 1).2 :=
        below.freed.ok.freeBlocks_indirect empty
      exact (ih (i + 1) (by omega) all _ (by omega) _ indirect.ok).cons
        (below.freed.trans indirect) (indirect.emptied empty).emptiedIn
        fun still => ⟨still, indirect.emptied empty⟩
    · have below := free_spec i dn (by omega) ok
      exact (ih (i + 1) (by omega) false blocksFreed counted _ below.freed.ok).cons below.freed
        below.range_empty (by simp)

theorem last_eq {blkid nblks : ℕ} (some_blocks : 0 < nblks) (fits : blkid + nblks ≤ 2 ^ 64) :
    sub64 (add64 blkid nblks) 1 = blkid + nblks - 1 := by
  rw [sub64, add64, mod_eq_of_lt (by decide : 1 < 2 ^ 64)]
  omega

/-- The first and the last pointer of a block that the range reaches. -/
theorem freeSpan_eq {blkid nblks : ℕ} (trunc : Bool) (some_blocks : 0 < nblks)
    (fits : blkid + nblks ≤ 2 ^ 64) (narrow : width ≤ 64)
    (reached : node ≤ ancestor width (level + 1) (blkid + nblks - 1)) :
    freeSpan width blkid nblks trunc (level + 1) node =
      { start := max (ancestor width level blkid) (node * 2 ^ width)
        last := min ((node + 1) * 2 ^ width - 1) (ancestor width level (blkid + nblks - 1))
        all := decide (ancestor width level blkid ≤ node * 2 ^ width) &&
          (decide ((node + 1) * 2 ^ width - 1 ≤ ancestor width level (blkid + nblks - 1)) ||
            trunc) } := by
  have unit_pos : 0 < 2 ^ width := Nat.two_pow_pos width
  have start_le : node * 2 ^ width ≤ ancestor width level (blkid + nblks - 1) := by
    rw [ancestor_succ, Nat.shiftRight_eq_div_pow] at reached
    exact (Nat.le_div_iff_mul_le unit_pos).mp reached
  have last_le : ancestor width level (blkid + nblks - 1) ≤ blkid + nblks - 1 := ancestor_le_self
  have start_lt : node * 2 ^ width < 2 ^ 64 := by omega
  -- the block ends at or before the last number, where the sum can wrap around to zero
  have end_le : (node + 1) * 2 ^ width ≤ 2 ^ 64 := by
    obtain ⟨count, whole⟩ := pow_dvd_pow 2 narrow
    rw [whole, mul_comm (2 ^ width)] at start_lt ⊢
    exact Nat.mul_le_mul_right _ (Nat.lt_of_mul_lt_mul_right start_lt)
  have end_pos : 0 < (node + 1) * 2 ^ width := by positivity
  have dbend_eq : sub64 ((node + 1) * 2 ^ width) 1 = (node + 1) * 2 ^ width - 1 := by
    rw [sub64, mod_eq_of_lt (by decide : 1 < 2 ^ 64)]
    omega
  simp only [freeSpan, last_eq some_blocks fits, shiftLeft_eq, mod_eq_of_lt start_lt, dbend_eq,
    FreeSpan.mk.injEq]
  refine ⟨?_, ?_, rfl⟩
  · change (if _ < ancestor width level blkid then _ else _) = _
    split_ifs with before
    · exact (max_eq_left before.le).symm
    · exact (max_eq_right (not_lt.mp before)).symm
  · change (if _ ≤ ancestor width level (blkid + nblks - 1) then _ else _) = _
    split_ifs with before
    · exact (min_eq_left before).symm
    · exact (min_eq_right (not_le.mp before).le).symm

theorem freeSpan_bounds {blkid nblks : ℕ} (trunc : Bool) (level : ℕ) (some_blocks : 0 < nblks)
    (fits : blkid + nblks ≤ 2 ^ 64) (narrow : width ≤ 64)
    (reached : node ≤ ancestor width (level + 1) (blkid + nblks - 1)) :
    ancestor width level blkid ≤ (freeSpan width blkid nblks trunc (level + 1) node).start ∧
    (freeSpan width blkid nblks trunc (level + 1) node).start ≤
      ancestor width level (blkid + nblks - 1) ∧
    (freeSpan width blkid nblks trunc (level + 1) node).last ≤
      ancestor width level (blkid + nblks - 1) := by
  rw [freeSpan_eq trunc some_blocks fits narrow reached]
  refine ⟨le_max_left _ _, max_le (ancestor_mono (by omega)) ?_, min_le_right _ _⟩
  rw [ancestor_succ, Nat.shiftRight_eq_div_pow] at reached
  exact (Nat.le_div_iff_mul_le (Nat.two_pow_pos width)).mp reached

theorem span_cases (blkid hi : ℕ) {leaf : ℕ} (below : ancestor width (level + 1) leaf = node) :
    (max (ancestor width level blkid) (node * 2 ^ width) ≤ ancestor width level leaf ∧
      ancestor width level leaf ≤ min ((node + 1) * 2 ^ width - 1) (ancestor width level hi)) ∨
    (ancestor width level leaf < ancestor width level blkid ∧
      ¬ ancestor width level blkid ≤ node * 2 ^ width) ∨
    (ancestor width level hi < ancestor width level leaf ∧
      ¬ (node + 1) * 2 ^ width - 1 ≤ ancestor width level hi) := by
  rw [ancestor_succ, shiftRight_eq_iff] at below
  obtain ⟨low, high⟩ := below
  by_cases before : ancestor width level leaf < ancestor width level blkid
  · exact Or.inr (Or.inl ⟨before, by omega⟩)
  by_cases after_ : ancestor width level hi < ancestor width level leaf
  · exact Or.inr (Or.inr ⟨after_, by omega⟩)
  · exact Or.inl ⟨max_le (not_lt.mp before) low, le_min (by omega) (not_lt.mp after_)⟩

section Recursion

variable {blkid nblks : ℕ} {trunc : Bool} (some_blocks : 0 < nblks)
  (fits : blkid + nblks ≤ 2 ^ 64) (narrow : width ≤ 64)
  (to_end : trunc = true → maxblkid ≤ blkid + nblks - 1)
include some_blocks fits narrow to_end

theorem freesBelow_of_children {span : FreeSpan} {all : Bool} {count : ℤ}
    (span_eq : freeSpan width blkid nblks trunc (level + 1) node = span)
    (reached : node ≤ ancestor width (level + 1) (blkid + nblks - 1))
    (freed : Freed width nlevels maxblkid blkid (blkid + nblks - 1) dn after) (counted : 0 ≤ count)
    (range_empty : ∀ child, span.start ≤ child → child ≤ span.last →
      after.EmptiedIn blkid (blkid + nblks - 1) width level child)
    (all_empty : all = true → span.all = true ∧
      ∀ child, span.start ≤ child → child ≤ span.last → after.Emptied width level child) :
    FreesBelow width nlevels maxblkid blkid (blkid + nblks - 1) (level + 1) node dn
      (if all then -1 else count, after) := by
  rw [freeSpan_eq trunc some_blocks fits narrow reached] at span_eq
  subst span_eq
  refine ⟨freed, ?_, ?_⟩
  · intro leaf below low high
    rcases span_cases blkid (blkid + nblks - 1) below with
      ⟨from_, until_⟩ | ⟨before, -⟩ | ⟨behind, -⟩
    · exact range_empty _ from_ until_ leaf rfl low high
    · exact absurd (ancestor_mono low) (not_le.mpr before)
    · exact absurd (ancestor_mono high) (not_le.mpr behind)
  · intro reports leaf below
    have is_all : all = true := by
      by_contra partial_
      rw [if_neg partial_] at reports
      omega
    obtain ⟨all_eq, empty⟩ := all_empty is_all
    simp only [Bool.and_eq_true, Bool.or_eq_true, decide_eq_true_eq] at all_eq
    rcases span_cases blkid (blkid + nblks - 1) below with
      ⟨from_, until_⟩ | ⟨-, uncovered⟩ | ⟨behind, uncovered⟩
    · exact empty _ from_ until_ leaf rfl
    · exact absurd all_eq.1 uncovered
    · have truncated := all_eq.2.resolve_left uncovered
      have beyond := lt_of_ancestor_lt behind
      exact freed.ok.beyond leaf (lt_of_le_of_lt (to_end truncated) beyond)

/-- The recursion frees what it reports to have freed. -/
theorem freeChildren_spec (level : ℕ) (inside : level + 1 < nlevels) (node : ℕ) (dn : SyncDnode)
    (reached : node ≤ ancestor width (level + 1) (blkid + nblks - 1))
    (ok : TreeOk width nlevels maxblkid dn) :
    FreesBelow width nlevels maxblkid blkid (blkid + nblks - 1) (level + 1) node dn
      (freeChildren width blkid nblks trunc (level + 1) node dn) := by
  induction level generalizing node dn with
  | zero =>
    -- the children are data blocks
    obtain ⟨low, start_le, last_le⟩ := freeSpan_bounds trunc 0 some_blocks fits narrow reached
    rw [freeChildren]
    generalize span_eq : freeSpan width blkid nblks trunc (0 + 1) node = span
      at low start_le last_le
    rw [ancestor_zero] at low start_le last_le
    obtain ⟨freed, empty⟩ : Freed width nlevels maxblkid blkid (blkid + nblks - 1) dn
        (dn.freeBlocks 0 span.start (span.last + 1 - span.start)).2 ∧ _ :=
      ok.freeBlocks_data low (by omega)
    have children_empty : ∀ child, span.start ≤ child → child ≤ span.last →
        (dn.freeBlocks 0 span.start (span.last + 1 - span.start)).2.Emptied width 0 child := by
      intro child from_ until_ leaf below
      rw [ancestor_zero] at below
      subst below
      have inside : leaf < span.start + (span.last + 1 - span.start) := by omega
      exact empty leaf from_ inside
    exact freesBelow_of_children some_blocks fits narrow to_end span_eq reached freed
      (Int.natCast_nonneg _)
      (fun child from_ until_ => (children_empty child from_ until_).emptiedIn)
      fun is_all => ⟨is_all, children_empty⟩
  | succ level ih =>
    obtain ⟨-, start_le, last_le⟩ :=
      freeSpan_bounds trunc (level + 1) some_blocks fits narrow reached
    rw [freeChildren]
    generalize span_eq : freeSpan width blkid nblks trunc (level + 1 + 1) node = span
      at start_le last_le
    have each := freeEach_spec (by omega : level + 1 < nlevels)
      (ancestor width (level + 1) (blkid + nblks - 1) + 1)
      (fun child dn below => ih (by omega) child dn (Nat.lt_succ_iff.mp below))
      (span.last + 1 - span.start) span.start (by omega) span.all 0 le_rfl dn ok
    refine freesBelow_of_children some_blocks fits narrow to_end span_eq reached each.freed
      each.count (fun child from_ until_ => each.range_empty child from_ (by omega))
      fun is_all => ?_
    obtain ⟨was_all, empty⟩ := each.all_empty is_all
    exact ⟨was_all, fun child from_ until_ => empty child from_ (by omega)⟩

end Recursion

end Freeing

/-- A tree without stray blocks that reaches as far as `dn_maxblkid`. -/
structure WellFormed (dn : SyncDnode) : Prop where
  levels : 0 < dn.dnNlevels
  /-- `SPA_MAXBLOCKSHIFT`. -/
  indblkshift_le : dn.dnIndblkshift ≤ 17
  /-- The tree reaches to the last block. -/
  reaches : dn.dnMaxblkid < dn.dnNblkptr <<< ((dn.dnNlevels - 1) * dn.epbs)
  /-- The number after the last block is a 64-bit number. -/
  maxblkid_lt : dn.dnMaxblkid < 2 ^ 64 - 1
  /-- The blocks are well-formed. -/
  tree : TreeOk dn.epbs dn.dnNlevels dn.dnMaxblkid dn

/-- The blocks of a range up to the last one of the object are freed. -/
structure FreedRange (dn : SyncDnode) (blkid last : ℕ) (after : SyncDnode) : Prop where
  freed : Freed dn.epbs dn.dnNlevels dn.dnMaxblkid blkid last dn after
  range_empty : ∀ leaf, blkid ≤ leaf → leaf ≤ last → ¬ after.Allocated (0, leaf)

theorem truncate_eq (dn : SyncDnode) (trunc : Bool) (blkid : ℕ) : dn.truncate trunc blkid =
    { dn with dnMaxblkid := if trunc then blkid - 1 else dn.dnMaxblkid } := by
  unfold truncate
  split_ifs with truncated first
  · simp [first]
  · rfl
  · rfl

section

variable (wf : dn.WellFormed)

include wf

theorem WellFormed.epbs_le : dn.epbs ≤ 64 := by
  have := wf.indblkshift_le
  unfold epbs
  omega

theorem WellFormed.freedRange {blkid nblks : ℕ} {trunc : Bool} (some_blocks : 0 < nblks)
    (cut : blkid + nblks - 1 ≤ dn.dnMaxblkid)
    (to_end : trunc = true → dn.dnMaxblkid ≤ blkid + nblks - 1) :
    (dn.dnNlevels = 1 → FreedRange dn blkid (blkid + nblks - 1) (dn.freeBlocks 0 blkid nblks).2) ∧
    (dn.dnNlevels ≠ 1 → FreedRange dn blkid (blkid + nblks - 1)
      (freeEach (freeChildren dn.epbs blkid nblks trunc (dn.dnNlevels - 1)) (dn.dnNlevels - 1)
        (sub64 (add64 blkid nblks) 1 >>> ((dn.dnNlevels - 1) * dn.epbs) + 1 -
          blkid >>> ((dn.dnNlevels - 1) * dn.epbs))
        (blkid >>> ((dn.dnNlevels - 1) * dn.epbs)) true 0 dn).2.2) := by
  have fits : blkid + nblks ≤ 2 ^ 64 := by
    have := wf.maxblkid_lt
    omega
  constructor
  · intro flat
    obtain ⟨freed, empty⟩ : Freed dn.epbs dn.dnNlevels dn.dnMaxblkid blkid (blkid + nblks - 1) dn
        (dn.freeBlocks 0 blkid nblks).2 ∧ _ :=
      wf.tree.freeBlocks_data le_rfl (by omega)
    exact ⟨freed, fun leaf low high => empty leaf low (by omega)⟩
  · intro indirect
    have levels := wf.levels
    obtain ⟨level, top⟩ : ∃ level, dn.dnNlevels - 1 = level + 1 := ⟨dn.dnNlevels - 2, by omega⟩
    rw [top, last_eq some_blocks fits]
    have order : ancestor dn.epbs (level + 1) blkid ≤
        ancestor dn.epbs (level + 1) (blkid + nblks - 1) := ancestor_mono (by omega)
    have inside : level + 1 < dn.dnNlevels := by omega
    have each := freeEach_spec inside (ancestor dn.epbs (level + 1) (blkid + nblks - 1) + 1)
      (fun node dn below ok => freeChildren_spec some_blocks fits wf.epbs_le to_end level inside
        node dn (Nat.lt_succ_iff.mp below) ok)
      (ancestor dn.epbs (level + 1) (blkid + nblks - 1) + 1 - ancestor dn.epbs (level + 1) blkid)
      (ancestor dn.epbs (level + 1) blkid) (by omega) true 0 le_rfl dn wf.tree
    refine ⟨each.freed, fun leaf low high => ?_⟩
    have last_le : ancestor dn.epbs (level + 1) leaf ≤
        ancestor dn.epbs (level + 1) (blkid + nblks - 1) := ancestor_mono high
    exact each.range_empty _ (ancestor_mono low) (by omega) leaf rfl low high

/-- A call frees the range up to the last block and sets `dn_maxblkid`. -/
theorem WellFormed.dnodeSyncFreeRange_eq {blkid nblks : ℕ} (some_blocks : 0 < nblks)
    (fits : blkid + nblks < 2 ^ 64) (inside : blkid ≤ dn.dnMaxblkid) :
    ∃ after, FreedRange dn blkid (min (blkid + nblks - 1) dn.dnMaxblkid) after ∧
    dn.dnodeSyncFreeRange blkid nblks =
      after.truncate (decide (dn.dnMaxblkid < blkid + nblks)) blkid := by
  have sum_eq : add64 blkid nblks = blkid + nblks := add64_eq fits
  have reaches := wf.reaches
  unfold dnodeSyncFreeRange
  rw [if_neg (not_lt.mpr inside), sum_eq]
  set trunc := decide (dn.dnMaxblkid < blkid + nblks) with trunc_eq
  set count := if trunc = true then dn.dnMaxblkid - blkid + 1 else nblks with count_eq
  have counted : 0 < count ∧ blkid + count - 1 = min (blkid + nblks - 1) dn.dnMaxblkid ∧
      (trunc = true → dn.dnMaxblkid ≤ blkid + count - 1) := by
    by_cases truncated : dn.dnMaxblkid < blkid + nblks
    · have count_is : count = dn.dnMaxblkid - blkid + 1 :=
        if_pos (by simpa [trunc_eq] using truncated)
      rw [count_is]
      refine ⟨by omega, by omega, fun _ => by omega⟩
    · have count_is : count = nblks := if_neg (by simpa [trunc_eq] using truncated)
      rw [count_is]
      refine ⟨some_blocks, by omega, fun is_trunc => ?_⟩
      exact absurd (of_decide_eq_true is_trunc) truncated
  obtain ⟨count_pos, last_is, to_end⟩ := counted
  obtain ⟨flat_case, indirect_case⟩ := wf.freedRange count_pos (by omega) to_end
  rw [last_is] at flat_case indirect_case
  by_cases flat : dn.dnNlevels = 1
  · have pointer : ¬ dn.dnNblkptr ≤ blkid := by
      rw [flat] at reaches
      simp at reaches
      omega
    rw [if_pos flat, if_neg pointer]
    exact ⟨_, flat_case flat, rfl⟩
  · rw [if_neg flat]
    exact ⟨_, indirect_case flat, rfl⟩

theorem FreedRange.mem_iff {blkid nblks : ℕ}
    (range : FreedRange dn blkid (min (blkid + nblks - 1) dn.dnMaxblkid) after)
    (kills : Kills dn blocks after) (within : ∀ leaf, (0, leaf) ∈ blocks →
      blkid ≤ leaf ∧ leaf ≤ min (blkid + nblks - 1) dn.dnMaxblkid) (some_blocks : 0 < nblks)
    (leaf : ℕ) :
    (0, leaf) ∈ blocks ↔ blkid ≤ leaf ∧ leaf < blkid + nblks ∧ dn.Allocated (0, leaf) := by
  constructor
  · intro member
    obtain ⟨low, high⟩ := within leaf member
    exact ⟨low, by omega, kills.allocated _ member⟩
  · rintro ⟨low, high, allocated⟩
    have reached : leaf ≤ dn.dnMaxblkid := by
      by_contra outside
      exact wf.tree.beyond leaf (not_le.mp outside) allocated
    by_contra spared
    exact range.range_empty leaf low (le_min (by omega) reached)
      (kills.allocated_iff.mpr ⟨allocated, spared⟩)

/-- A freed range leaves a tree on which the next range can be freed. -/
theorem WellFormed.dnodeSyncFreeRange {blkid nblks : ℕ} (some_blocks : 0 < nblks)
    (fits : blkid + nblks < 2 ^ 64) :
    (dn.dnodeSyncFreeRange blkid nblks).WellFormed ∧
    ∀ leaf, (dn.dnodeSyncFreeRange blkid nblks).Allocated (0, leaf) ↔
      dn.Allocated (0, leaf) ∧ ¬ (blkid ≤ leaf ∧ leaf < blkid + nblks) := by
  by_cases inside : blkid ≤ dn.dnMaxblkid
  · obtain ⟨after, range, run⟩ := wf.dnodeSyncFreeRange_eq some_blocks fits inside
    obtain ⟨blocks, kills, within, -⟩ := range.freed.kills
    have maxblkid_le : (if dn.dnMaxblkid < blkid + nblks then blkid - 1 else after.dnMaxblkid) ≤
        dn.dnMaxblkid := by
      rw [kills.maxblkid_eq]
      split_ifs <;> omega
    rw [run, truncate_eq]
    simp only [decide_eq_true_eq]
    constructor
    · have ok := range.freed.ok
      have reaches := wf.reaches
      have maxblkid_lt := wf.maxblkid_lt
      have epbs_eq := kills.epbs_eq
      refine ⟨kills.nlevels_eq.symm ▸ wf.levels, kills.indblkshift_eq.symm ▸ wf.indblkshift_le,
        ?_, by dsimp only; omega, ?_⟩
      · rw [← epbs_eq, ← kills.nlevels_eq, ← kills.nblkptr_eq] at reaches
        exact lt_of_le_of_lt maxblkid_le reaches
      · rw [← epbs_eq, ← kills.nlevels_eq] at ok
        refine ⟨⟨ok.booked.accounted, ok.booked.used_lt, ok.booked.flag, ok.booked.sectors⟩,
          ok.beneath, ?_⟩
        intro leaf beyond
        by_cases outside : dn.dnMaxblkid < leaf
        · exact ok.beyond leaf outside
        · -- the object has become shorter, so the range was cut at its old last block
          have truncated : dn.dnMaxblkid < blkid + nblks := by
            by_contra within_object
            rw [if_neg within_object, kills.maxblkid_eq] at beyond
            exact outside beyond
          dsimp only at beyond
          rw [if_pos truncated] at beyond
          exact range.range_empty leaf (by omega) (by omega)
    · intro leaf
      have left_iff : after.Allocated (0, leaf) ↔ dn.Allocated (0, leaf) ∧ (0, leaf) ∉ blocks :=
        kills.allocated_iff
      refine left_iff.trans (and_congr_right fun allocated => not_congr ?_)
      rw [range.mem_iff wf kills within some_blocks leaf]
      simp [allocated]
  · have unchanged : dn.dnodeSyncFreeRange blkid nblks = dn := if_pos (not_le.mp inside)
    rw [unchanged]
    refine ⟨wf, fun leaf => ⟨fun allocated => ⟨allocated, ?_⟩, fun ⟨allocated, _⟩ => allocated⟩⟩
    rintro ⟨low, -⟩
    exact wf.tree.beyond leaf (by omega) allocated

/-- Freeing all ranges of a transaction group leaves the data outside every one of them. -/
theorem WellFormed.dnodeSyncFreeRanges {ranges : List (ℕ × ℕ)}
    (valid : ∀ range ∈ ranges, 0 < range.2 ∧ range.1 + range.2 < 2 ^ 64) :
    (dn.dnodeSyncFreeRanges ranges).WellFormed ∧
    ∀ leaf, (dn.dnodeSyncFreeRanges ranges).Allocated (0, leaf) ↔ dn.Allocated (0, leaf) ∧
    ∀ range ∈ ranges, ¬ (range.1 ≤ leaf ∧ leaf < range.1 + range.2) := by
  induction ranges generalizing dn with
  | nil => exact ⟨wf, fun leaf => by simp [SyncDnode.dnodeSyncFreeRanges]⟩
  | cons range rest ih =>
    obtain ⟨here, later⟩ := forall_mem_cons.mp valid
    obtain ⟨wf', left⟩ := wf.dnodeSyncFreeRange here.1 here.2
    obtain ⟨wf_end, left_end⟩ := ih wf' later
    refine ⟨wf_end, fun leaf => (left_end leaf).trans ?_⟩
    rw [left leaf, forall_mem_cons, and_assoc]

end

end SyncDnode

open SyncDnode in
/-- Freeing a range kills exactly its allocated data blocks and indirect blocks with nothing left
below, and gives back their space. -/
theorem dnode_sync_free_range {dn : SyncDnode} (wf : dn.WellFormed) {blkid nblks : ℕ}
    (some_blocks : 0 < nblks) (fits : blkid + nblks < 2 ^ 64) :
    ∃ blocks, (dn.dnodeSyncFreeRange blkid nblks).killed = dn.killed ++ blocks ∧ blocks.Nodup ∧
    (∀ leaf, (0, leaf) ∈ blocks ↔
      blkid ≤ leaf ∧ leaf < blkid + nblks ∧ dn.Allocated (0, leaf)) ∧
    (∀ level node, (level + 1, node) ∈ blocks → dn.Allocated (level + 1, node) ∧
      ∀ leaf, leaf >>> ((level + 1) * dn.epbs) = node →
        ¬ (dn.dnodeSyncFreeRange blkid nblks).Allocated (0, leaf)) ∧
    (∀ level node, (level, node) ∉ blocks →
      (dn.dnodeSyncFreeRange blkid nblks).blkptr level node = dn.blkptr level node) ∧
    (dn.dnodeSyncFreeRange blkid nblks).dnUsedBytes + dn.space blocks = dn.dnUsedBytes ∧
    (dn.dnodeSyncFreeRange blkid nblks).dnMaxblkid =
      if blkid ≤ dn.dnMaxblkid ∧ dn.dnMaxblkid < blkid + nblks then blkid - 1
      else dn.dnMaxblkid := by
  by_cases inside : blkid ≤ dn.dnMaxblkid
  · obtain ⟨after, range, run⟩ := wf.dnodeSyncFreeRange_eq some_blocks fits inside
    obtain ⟨blocks, kills, within, empty⟩ := range.freed.kills
    rw [run, truncate_eq]
    refine ⟨blocks, kills.killed_eq, kills.nodup, range.mem_iff wf kills within some_blocks,
      fun level node member => ⟨kills.allocated _ member, empty level node member⟩,
      fun level node spared => ?_, kills.used_eq, ?_⟩
    · exact (kills.blkptr_eq level node).trans (if_neg spared)
    · simp only [decide_eq_true_eq, inside, true_and, kills.maxblkid_eq]
  · have unchanged : dn.dnodeSyncFreeRange blkid nblks = dn := if_pos (not_le.mp inside)
    rw [unchanged]
    refine ⟨[], by simp, nodup_nil, ?_, by simp, by simp, by simp, by simp [inside]⟩
    intro leaf
    have beyond : blkid ≤ leaf → ¬ dn.Allocated (0, leaf) := fun low =>
      wf.tree.beyond leaf (by omega)
    simp only [not_mem_nil, false_iff]
    rintro ⟨low, -, allocated⟩
    exact beyond low allocated

/-- Two data blocks below one indirect block, of 512 bytes each. -/
def twoBlocks : SyncDnode where
  dnNlevels := 2
  dnNblkptr := 1
  dnIndblkshift := 8
  dnMaxblkid := 1
  dnUsed := 1536
  usedBytesFlag := true
  dnodeBytes := true
  blkptr level blkid :=
    if level = 0 ∧ blkid ≤ 1 ∨ level = 1 ∧ blkid = 0 then ⟨4, 512⟩ else FreeBlkptr.zero
  killed := []

theorem twoBlocks_allocated (block : ℕ × ℕ) :
    twoBlocks.Allocated block ↔ block ∈ [(0, 0), (0, 1), (1, 0)] := by
  have mem_iff : block ∈ [(0, 0), (0, 1), (1, 0)] ↔
      block.1 = 0 ∧ block.2 ≤ 1 ∨ block.1 = 1 ∧ block.2 = 0 := by
    simp only [mem_cons, Prod.ext_iff, not_mem_nil, or_false]
    omega
  rw [mem_iff]
  unfold SyncDnode.Allocated twoBlocks
  dsimp only
  split_ifs with member
  · exact iff_of_true rfl member
  · exact iff_of_false (by decide) member

theorem twoBlocks_wellFormed : twoBlocks.WellFormed where
  levels := by decide
  indblkshift_le := by decide
  reaches := by decide
  maxblkid_lt := by decide
  tree :=
    { booked :=
        { accounted := by
            intro blocks nodup allocated
            have few : blocks.length ≤ 3 :=
              (nodup.subperm fun block member =>
                (twoBlocks_allocated block).mp (allocated block member)).length_le
            have small : ∀ size ∈ blocks.map fun block => (twoBlocks.blkptr block.1 block.2).dasize,
                size ≤ 512 := by
              intro size member
              obtain ⟨block, -, rfl⟩ := mem_map.mp member
              unfold twoBlocks
              dsimp only
              split_ifs <;> decide
            have bounded := sum_le_card_nsmul _ _ small
            rw [length_map, smul_eq_mul] at bounded
            exact bounded.trans (Nat.mul_le_mul_right 512 few)
          used_lt := by decide
          flag := fun old => absurd old (by decide)
          sectors := fun old => absurd old (by decide) }
      beneath := by
        intro level node inside hole leaf below
        obtain rfl : level = 0 := by
          have : level + 1 < 2 := inside
          omega
        rw [twoBlocks_allocated] at hole ⊢
        have parent : leaf >>> (1 * 1) = node := below
        have not_first : node ≠ 0 := by
          rintro rfl
          exact hole (by decide)
        rw [Nat.shiftRight_eq_div_pow] at parent
        simp
        omega
      beyond := by
        intro leaf outside
        rw [twoBlocks_allocated]
        have : 1 < leaf := outside
        simp
        omega }

/-- Freeing all blocks kills the indirect block last. -/
theorem dnode_sync_free_range_twoBlocks :
    (twoBlocks.dnodeSyncFreeRange 0 4).killed = [(0, 0), (0, 1), (1, 0)] ∧
    (twoBlocks.dnodeSyncFreeRange 0 4).dnUsedBytes + 1536 = 1536 ∧
    (twoBlocks.dnodeSyncFreeRange 0 4).dnMaxblkid = 0 := by
  have run : (twoBlocks.dnodeSyncFreeRange 0 4).killed = [(0, 0), (0, 1), (1, 0)] := rfl
  obtain ⟨blocks, killed_eq, -, -, -, -, used_eq, maxblkid_eq⟩ :=
    dnode_sync_free_range twoBlocks_wellFormed (by decide : 0 < 4) (by decide : 0 + 4 < 2 ^ 64)
  rw [run] at killed_eq
  obtain rfl : [(0, 0), (0, 1), (1, 0)] = blocks := killed_eq
  exact ⟨run, used_eq, maxblkid_eq⟩

/-- Two ranges that leave the first block. -/
theorem dnodeSyncFreeRanges_twoBlocks :
    (twoBlocks.dnodeSyncFreeRanges [(1, 1), (3, 5)]).Allocated (0, 0) ∧
    ¬ (twoBlocks.dnodeSyncFreeRanges [(1, 1), (3, 5)]).Allocated (0, 1) := by
  obtain ⟨-, left⟩ := twoBlocks_wellFormed.dnodeSyncFreeRanges
    (by decide : ∀ range ∈ [(1, 1), (3, 5)], 0 < range.2 ∧ range.1 + range.2 < 2 ^ 64)
  rw [left, left, twoBlocks_allocated, twoBlocks_allocated]
  decide

end Zfs
