import Mathlib

/-!
# Lists of separated segments

A segment is anything with a lower end, which belongs to it, and an upper end, which does not.  A
list of segments is separated when its segments are not empty, increase, and do not even touch.  The
set such a list covers determines every containment question about it.
-/

namespace Segments

open List

variable {α : Type*} (lo hi : α → ℕ)

variable (seg : α) (first segs : List α)

/-- The points covered by a list of segments. -/
def cover : Set ℕ := {point | ∃ seg ∈ segs, lo seg ≤ point ∧ point < hi seg}

/-- Nonempty segments in increasing order, with gaps. -/
structure Separated (segs : List α) : Prop where
  /-- No segment is empty. -/
  proper : ∀ seg ∈ segs, lo seg < hi seg
  /-- Segments do not touch. -/
  gaps : segs.Pairwise fun first second => hi first < lo second

/-- Sum of the lengths of the segments. -/
def total : ℕ := (segs.map fun seg => hi seg - lo seg).sum

variable {lo hi}

theorem mem_cover {segs : List α} {point : ℕ} :
    point ∈ cover lo hi segs ↔ ∃ seg ∈ segs, lo seg ≤ point ∧ point < hi seg := Iff.rfl

@[simp] theorem cover_nil : cover lo hi [] = ∅ := by
  ext point
  simp [mem_cover]

@[simp] theorem cover_cons :
    cover lo hi (seg :: segs) = Set.Ico (lo seg) (hi seg) ∪ cover lo hi segs := by
  ext point
  simp [mem_cover]

@[simp] theorem cover_append (second : List α) :
    cover lo hi (first ++ second) = cover lo hi first ∪ cover lo hi second := by
  ext point
  simp only [mem_cover, mem_append, Set.mem_union]
  constructor
  · rintro ⟨seg, inFirst | inSecond, bounds⟩
    · exact .inl ⟨seg, inFirst, bounds⟩
    · exact .inr ⟨seg, inSecond, bounds⟩
  · rintro (⟨seg, member, bounds⟩ | ⟨seg, member, bounds⟩)
    · exact ⟨seg, .inl member, bounds⟩
    · exact ⟨seg, .inr member, bounds⟩

@[simp] theorem total_nil : total lo hi [] = 0 := rfl

@[simp] theorem total_cons :
    total lo hi (seg :: segs) = (hi seg - lo seg) + total lo hi segs := by
  simp [total]

@[simp] theorem total_append (second : List α) :
    total lo hi (first ++ second) = total lo hi first + total lo hi second := by
  simp [total]

theorem Separated.nil : Separated lo hi [] := ⟨by simp, .nil⟩

theorem separated_cons {seg : α} {segs : List α} :
    Separated lo hi (seg :: segs) ↔
      lo seg < hi seg ∧ (∀ other ∈ segs, hi seg < lo other) ∧ Separated lo hi segs := by
  constructor
  · rintro ⟨proper, gaps⟩
    obtain ⟨head, tail⟩ := pairwise_cons.mp gaps
    exact ⟨proper seg (by simp), head, fun other member => proper other (by simp [member]), tail⟩
  · rintro ⟨head, gap, proper, gaps⟩
    refine ⟨fun other member => ?_, pairwise_cons.mpr ⟨gap, gaps⟩⟩
    rcases mem_cons.mp member with rfl | member
    · exact head
    · exact proper other member

theorem separated_append {first second : List α} :
    Separated lo hi (first ++ second) ↔
      Separated lo hi first ∧ Separated lo hi second ∧
      ∀ left ∈ first, ∀ right ∈ second, hi left < lo right := by
  constructor
  · rintro ⟨proper, gaps⟩
    obtain ⟨gaps_first, gaps_second, crossing⟩ := pairwise_append.mp gaps
    exact ⟨⟨fun seg member => proper seg (by simp [member]), gaps_first⟩,
      ⟨fun seg member => proper seg (by simp [member]), gaps_second⟩, crossing⟩
  · rintro ⟨separated_first, separated_second, crossing⟩
    refine ⟨fun seg member => ?_, pairwise_append.mpr
      ⟨separated_first.gaps, separated_second.gaps, crossing⟩⟩
    rcases mem_append.mp member with member | member
    · exact separated_first.proper seg member
    · exact separated_second.proper seg member

/-- Replace a run of segments by one that keeps its distance from the rest. -/
theorem Separated.splice {left middle new right : List α}
    (separated : Separated lo hi (left ++ middle ++ right)) (separated_new : Separated lo hi new)
    (after_left : ∀ other ∈ left, ∀ seg ∈ new, hi other < lo seg)
    (before_right : ∀ seg ∈ new, ∀ other ∈ right, hi seg < lo other) :
    Separated lo hi (left ++ new ++ right) := by
  obtain ⟨separated_left, separated_right, crossing⟩ := separated_append.mp separated
  obtain ⟨separated_left, -, -⟩ := separated_append.mp separated_left
  refine separated_append.mpr ⟨separated_append.mpr ⟨separated_left, separated_new, after_left⟩,
    separated_right, fun first first_mem second second_mem => ?_⟩
  rcases mem_append.mp first_mem with first_mem | first_mem
  · exact crossing first (mem_append_left _ first_mem) second second_mem
  · exact before_right first first_mem second second_mem

theorem Separated.nodup {segs : List α} (separated : Separated lo hi segs) : segs.Nodup := by
  induction segs with
  | nil => exact .nil
  | cons seg segs ih =>
    obtain ⟨proper, gap, rest⟩ := separated_cons.mp separated
    refine nodup_cons.mpr ⟨fun member => ?_, ih rest⟩
    have self := gap seg member
    omega

/-- The lengths add up to the number of points covered. -/
theorem Separated.ncard_cover {segs : List α} (separated : Separated lo hi segs) :
    (cover lo hi segs).ncard = total lo hi segs ∧ (cover lo hi segs).Finite := by
  induction segs with
  | nil => simp
  | cons seg segs ih =>
    obtain ⟨proper, gap, rest⟩ := separated_cons.mp separated
    obtain ⟨card, finite⟩ := ih rest
    have apart : Disjoint (Set.Ico (lo seg) (hi seg)) (cover lo hi segs) := by
      rw [Set.disjoint_left]
      rintro point ⟨-, upper⟩ ⟨other, member, lower, -⟩
      have above := gap other member
      omega
    rw [cover_cons, total_cons]
    refine ⟨?_, (Set.finite_Ico _ _).union finite⟩
    rw [Set.ncard_union_eq apart (Set.finite_Ico _ _) finite, card, Set.ncard_eq_toFinset_card',
      Set.toFinset_Ico, Nat.card_Ico]

/-- Separated segments below a bound have at most that total length. -/
theorem Separated.total_le {segs : List α} (separated : Separated lo hi segs) {lower upper : ℕ}
    (above : ∀ seg ∈ segs, lower ≤ lo seg) (below : ∀ seg ∈ segs, hi seg ≤ upper) :
    total lo hi segs ≤ upper - lower := by
  induction segs generalizing lower with
  | nil => simp
  | cons seg segs ih =>
    obtain ⟨proper, gap, rest⟩ := separated_cons.mp separated
    have tail := ih rest (fun other member => (gap other member).le)
      fun other member => below other (by simp [member])
    have head_lower := above seg (by simp)
    have head_upper := below seg (by simp)
    rw [total_cons]
    omega

theorem Separated.eq_or_gap {segs : List α} (separated : Separated lo hi segs) {first second : α}
    (first_member : first ∈ segs) (second_member : second ∈ segs) :
    first = second ∨ hi first < lo second ∨ hi second < lo first := by
  have forward : segs.Pairwise fun first second =>
      first = second ∨ hi first < lo second ∨ hi second < lo first :=
    separated.gaps.imp fun gap => .inr (.inl gap)
  have backward : segs.Pairwise fun second first =>
      first = second ∨ hi first < lo second ∨ hi second < lo first :=
    separated.gaps.imp fun gap => .inr (.inr gap)
  exact forward.forall_of_forall_of_flip (fun _ _ => .inl rfl) backward first_member second_member

/-- An interval inside the cover lies inside a single segment. -/
theorem Separated.Ico_subset_iff {segs : List α} (separated : Separated lo hi segs)
    {start stop : ℕ} (nonempty : start < stop) :
    Set.Ico start stop ⊆ cover lo hi segs ↔ ∃ seg ∈ segs, lo seg ≤ start ∧ stop ≤ hi seg := by
  constructor
  · intro subset
    obtain ⟨seg, member, lower, upper⟩ := subset ⟨le_rfl, nonempty⟩
    refine ⟨seg, member, lower, ?_⟩
    by_contra long
    -- The upper end of the segment would be covered by another segment that touches it.
    obtain ⟨other, other_member, other_lower, other_upper⟩ :=
      subset (⟨by omega, by omega⟩ : hi seg ∈ Set.Ico start stop)
    rcases separated.eq_or_gap member other_member with rfl | gap | gap
    · omega
    · omega
    · omega
  · rintro ⟨seg, member, lower, upper⟩ point ⟨above, below⟩
    exact ⟨seg, member, by omega, by omega⟩

end Segments
