import Zfs.Metaslab.Code
import Zfs.SpaceMap.Invariant

/-!
# The first-fit block allocator

The alignment of a block is the largest power of two that divides its size, and rounding up to it
never passes 64 bits for the offsets of a vdev.
-/

namespace Zfs

open BalancedTree BalTree List Nat

/-- An odd word and its negation share only the lowest bit. -/
theorem odd_and_neg {half width : ℕ} (bounded : 2 * half + 1 < 2 ^ width) :
    (2 * half + 1) &&& (2 ^ width - (2 * half + 1)) = 1 := by
  apply eq_of_testBit_eq
  intro i
  rw [testBit_and, testBit_two_pow_sub_succ (by omega)]
  cases i with
  | zero =>
    have wide : 0 < width := by
      by_contra narrow
      obtain rfl : width = 0 := by omega
      omega
    simp [wide]
  | succ i =>
    have odd_half : (2 * half + 1) / 2 = half := by omega
    have even_half : 2 * half / 2 = half := by omega
    simp only [testBit_succ, odd_half, even_half, reduceDiv, zero_testBit]
    cases half.testBit i <;> simp

variable {size k offset : ℕ}

/-- The lowest bit of a word, as `x & -x`. -/
theorem and_neg_eq (nonzero : size ≠ 0) (bounded : size < 2 ^ 64) :
    ∃ k, size &&& sub64 0 size = 2 ^ k ∧ 2 ^ k ∣ size ∧ ¬2 ^ (k + 1) ∣ size := by
  rw [sub64_zero nonzero bounded]
  obtain ⟨k, odd, ⟨half, rfl⟩, rfl⟩ := exists_eq_two_pow_mul_odd nonzero
  refine ⟨k, ?_, dvd_mul_right _ _, fun more => ?_⟩
  swap
  · rw [pow_succ, mul_dvd_mul_iff_left (by positivity)] at more
    omega
  have narrow : k < 64 := by
    by_contra wide
    have := Nat.pow_le_pow_right (by decide : 0 < 2) (not_lt.mp wide)
    nlinarith
  have split_width : 2 ^ 64 = 2 ^ k * 2 ^ (64 - k) := by
    rw [← pow_add, Nat.add_sub_cancel' narrow.le]
  have odd_bound : 2 * half + 1 < 2 ^ (64 - k) := by
    rw [split_width] at bounded
    exact Nat.lt_of_mul_lt_mul_left bounded
  rw [split_width, ← Nat.mul_sub, Nat.mul_comm (2 ^ k), Nat.mul_comm (2 ^ k), ← Nat.shiftLeft_eq,
    ← Nat.shiftLeft_eq, ← Nat.shiftLeft_and_distrib, odd_and_neg odd_bound, Nat.one_shiftLeft]

/-- A block at a multiple of `2 ^ k` lies in a segment. -/
def Seg.Fits (ss : Seg) (k size offset : ℕ) : Prop :=
  2 ^ k ∣ offset ∧ ss.ssStart ≤ offset ∧ offset + size ≤ ss.ssEnd

/-- The loop of `metaslab_ff_alloc` finds a block if there is one. -/
theorem ffFit_spec (segs : List Seg) (bounded : ∀ ss ∈ segs, ss.ssStart + 2 ^ k + size < 2 ^ 64) :
    match ffFit size (2 ^ k) segs with
    | some offset => ∃ ss ∈ segs, ss.Fits k size offset
    | none => ∀ ss ∈ segs, ∀ offset, ¬ss.Fits k size offset := by
  induction segs with
  | nil => simp [ffFit]
  | cons ss segs ih =>
    have room := bounded ss (by simp)
    obtain ⟨lower, upper, aligned⟩ := p2roundup_bounds (by omega : ss.ssStart + 2 ^ k < 2 ^ 64)
    have rest := ih fun other member => bounded other (by simp [member])
    rw [ffFit]
    split_ifs with fits
    · rw [add64_eq (by omega)] at fits
      exact ⟨ss, by simp, aligned, lower, fits⟩
    · rw [add64_eq (by omega)] at fits
      cases found : ffFit size (2 ^ k) segs with
      | some offset =>
        rw [found] at rest
        obtain ⟨other, member, inside⟩ := rest
        exact ⟨other, by simp [member], inside⟩
      | none =>
        rw [found] at rest
        refine forall_mem_cons.mpr ⟨fun offset ⟨divides, above, below⟩ => fits ?_, rest⟩
        have least : p2roundup ss.ssStart (2 ^ k) ≤ offset := by
          by_contra smaller
          have gap := le_of_dvd (by omega) (dvd_sub aligned divides)
          omega
        omega

variable {sm : SpaceMap}

theorem SpaceMap.Wf.segsFrom_subset (wf : sm.Wf) (start stop : ℕ) :
    ∀ ss ∈ segsFrom sm start stop, ss ∈ sm.segs := by
  intro ss member
  rw [segsFrom] at member
  cases found : findSeg sm start stop with
  | mk place node =>
    rw [found] at member
    cases node with
    | nil =>
      rw [SpaceMap.segs, ← (wf.findSeg_missing found).1, toList_plug]
      exact mem_append_right _ member
    | node left value balance right =>
      rw [SpaceMap.segs, ← (wf.findSeg_found found).1, toList_plug]
      simp only [toList, cons_append, mem_append, mem_cons] at member ⊢
      tauto

/-- A search from the start passes over segments too short only. -/
theorem SpaceMap.Wf.mem_segsFrom_zero (wf : sm.Wf) {ss : Seg} (member : ss ∈ sm.segs)
    (fits : ss.Fits k size offset) : ss ∈ segsFrom sm 0 size := by
  obtain ⟨-, lower, upper⟩ := fits
  have proper := wf.separated.proper ss member
  rw [segsFrom]
  cases found : findSeg sm 0 size with
  | mk place node =>
    cases node with
    | nil =>
      obtain ⟨whole, left, -⟩ := wf.findSeg_missing found
      rw [SpaceMap.segs, ← whole, toList_plug] at member
      simp only [toList, append_nil, mem_append] at member
      refine member.resolve_left fun before => ?_
      have := left ss before
      omega
    | node left other balance right =>
      obtain ⟨whole, -, -, overlap⟩ := wf.findSeg_found found
      have separated := wf.separated
      rw [SpaceMap.segs, ← whole, toList_plug] at member separated
      simp only [toList, append_assoc, cons_append] at member separated
      rw [← append_assoc, mem_append] at member
      rw [← append_assoc, SegsSeparated, Segments.separated_append] at separated
      refine member.resolve_left fun before => ?_
      have := separated.2.2 ss before other (by simp)
      omega

/-- What `metaslab_ff_alloc` returns comes from a search of its loop. -/
theorem metaslabFfAlloc_cases (sm : SpaceMap) (cursors : ℕ → ℕ) (bounded : size < 2 ^ 64)
    (align : size &&& sub64 0 size = 2 ^ k) :
    (∃ start stop offset, ffFit size (2 ^ k) (segsFrom sm start stop) = some offset ∧
      metaslabFfAlloc sm cursors size =
        (some offset, Function.update cursors k (add64 offset size))) ∨
    ffFit size (2 ^ k) (segsFrom sm 0 size) = none ∧
      metaslabFfAlloc sm cursors size = (none, Function.update cursors k 0) := by
  have index : highbit (2 ^ k) - 1 = k := by simp [highbit, log2_two_pow]
  simp only [metaslabFfAlloc, align, index]
  cases first : ffFit size (2 ^ k) (segsFrom sm (cursors k) (add64 (cursors k) size)) with
  | some offset => exact .inl ⟨_, _, offset, first, rfl⟩
  | none =>
    by_cases start : cursors k = 0
    · rw [start, add64_eq (by omega), zero_add] at first
      exact .inr ⟨first, by rw [if_pos start, Function.update_eq_self_iff.mpr start.symm]⟩
    · simp only [if_neg start]
      cases second : ffFit size (2 ^ k) (segsFrom sm 0 size) with
      | some offset => exact .inl ⟨_, _, offset, second, rfl⟩
      | none => exact .inr ⟨rfl, rfl⟩

theorem metaslabFfAlloc_spec (wf : sm.Wf) (nonzero : size ≠ 0)
    (bounded : sm.smStart + sm.smSize + 2 * size ≤ 2 ^ 64) (cursors : ℕ → ℕ) :
    ∃ k, 2 ^ k ∣ size ∧ ¬2 ^ (k + 1) ∣ size ∧
      ((∃ offset, ∃ ss ∈ sm.segs, ss.Fits k size offset ∧ metaslabFfAlloc sm cursors size =
          (some offset, Function.update cursors k (offset + size))) ∨
        (∀ offset, ∀ ss ∈ sm.segs, ¬ss.Fits k size offset) ∧
          metaslabFfAlloc sm cursors size = (none, Function.update cursors k 0)) := by
  obtain ⟨k, align, divides, most⟩ := and_neg_eq nonzero (by omega : size < 2 ^ 64)
  have align_le : 2 ^ k ≤ size := le_of_dvd (by omega) divides
  have room : ∀ start stop, ∀ ss ∈ segsFrom sm start stop, ss.ssStart + 2 ^ k + size < 2 ^ 64 := by
    intro start stop ss member
    have inside := wf.segsFrom_subset start stop ss member
    have := wf.inside ss inside
    have := wf.separated.proper ss inside
    omega
  refine ⟨k, divides, most, ?_⟩
  rcases metaslabFfAlloc_cases sm cursors (by omega) align with
    ⟨start, stop, offset, fit, result⟩ | ⟨none, result⟩
  · have spec := ffFit_spec _ (room start stop)
    simp only [fit] at spec
    obtain ⟨ss, member, fits⟩ := spec
    have inside := wf.segsFrom_subset start stop ss member
    have := wf.bounded ss inside
    rw [add64_eq (fits.2.2.trans_lt this)] at result
    exact .inl ⟨offset, ss, inside, fits, result⟩
  · have spec := ffFit_spec _ (room 0 size)
    simp only [none] at spec
    refine .inr ⟨fun offset ss member fits => ?_, result⟩
    exact spec ss (wf.mem_segsFrom_zero member fits) offset fits

/-- A block that `metaslab_ff_alloc` returns lies in a free segment. -/
theorem metaslabFfAlloc_some (wf : sm.Wf) {cursors cursors' : ℕ → ℕ} (nonzero : size ≠ 0)
    (bounded : sm.smStart + sm.smSize + 2 * size ≤ 2 ^ 64)
    (found : metaslabFfAlloc sm cursors size = (some offset, cursors')) :
    ∃ ss ∈ sm.segs, ss.ssStart ≤ offset ∧ offset + size ≤ ss.ssEnd := by
  obtain ⟨k, -, -, ⟨_, ss, member, fits, result⟩ | ⟨-, result⟩⟩ :=
    metaslabFfAlloc_spec wf nonzero bounded cursors
  · cases result.symm.trans found
    exact ⟨ss, member, fits.2⟩
  · cases result.symm.trans found

/-- While no sum wraps around, `metaslab_ff_alloc` returns an aligned block in a segment, if there
is one. -/
theorem metaslab_ff_alloc_correct (sm : SpaceMap) (wf : sm.Wf) (cursors : ℕ → ℕ) (size : ℕ)
    (nonzero : size ≠ 0) (bounded : sm.smStart + sm.smSize + 2 * size ≤ 2 ^ 64) :
    ∃ k, 2 ^ k ∣ size ∧ ¬2 ^ (k + 1) ∣ size ∧
      ((metaslabFfAlloc sm cursors size).1 = none ↔
        ¬∃ offset, ∃ ss ∈ sm.segs, ss.Fits k size offset) ∧
      ∀ offset, (metaslabFfAlloc sm cursors size).1 = some offset →
        (∃ ss ∈ sm.segs, ss.Fits k size offset) ∧
        (metaslabFfAlloc sm cursors size).2 = Function.update cursors k (offset + size) := by
  obtain ⟨k, divides, most, ⟨offset, ss, member, fits, result⟩ | ⟨none, result⟩⟩ :=
    metaslabFfAlloc_spec wf nonzero bounded cursors
  · refine ⟨k, divides, most, ?_, fun offset' same => ?_⟩
    · rw [result]
      exact iff_of_false nofun (not_not.mpr ⟨offset, ss, member, fits⟩)
    · rw [result] at same ⊢
      cases same
      exact ⟨⟨ss, member, fits⟩, rfl⟩
  · refine ⟨k, divides, most, ?_, fun offset' same => ?_⟩
    · rw [result]
      exact iff_of_true rfl fun ⟨offset, ss, member, fits⟩ => none offset ss member fits
    · rw [result] at same
      cases same

/-- One free sector in a map of eight. -/
def oneSector : SpaceMap where
  smRoot := .node .nil ⟨512, 1024⟩ 0 .nil
  smSpace := 512
  smStart := 0
  smSize := 4096
  smShift := 9
  smLoaded := true
  smLoading := false

theorem wf_oneSector : oneSector.Wf :=
  ⟨⟨trivial, trivial, by decide⟩, ⟨by decide, pairwise_singleton ..⟩, by decide, by decide,
    by decide, rfl⟩

theorem metaslab_ff_alloc_oneSector : ∃ k, 2 ^ k ∣ 512 ∧ ¬2 ^ (k + 1) ∣ 512 ∧
    (metaslabFfAlloc oneSector (fun _ => 2048) 512).2 = Function.update (fun _ => 2048) k 1024 := by
  obtain ⟨k, divides, most, -, found⟩ := metaslab_ff_alloc_correct oneSector wf_oneSector
    (fun _ => 2048) 512 (by decide) (by decide)
  exact ⟨k, divides, most, (found 512 (by decide)).2⟩

/-- A size for which the sum wraps around gets the sector. -/
theorem metaslab_ff_alloc_wraps : oneSector.Wf ∧ Unit64 oneSector (2 ^ 64 - 512) ∧
    (metaslabFfAlloc oneSector (fun _ => 0) (2 ^ 64 - 512)).1 = some 512 ∧
    ∀ ss ∈ oneSector.segs, ss.ssEnd < 512 + (2 ^ 64 - 512) :=
  ⟨wf_oneSector, by decide, by decide, by decide⟩

end Zfs
