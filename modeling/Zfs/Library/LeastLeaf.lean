import Zfs.Library.LevelSearch

/-!
# Finding the least promising leaf

Where a node is promising exactly when a leaf below it is, the search finds the least promising leaf
from its start on, unless it carries its position over an unreadable node or stops behind the end of
the tree.
-/

namespace LevelSearch

open Nat Finset

variable {position : ℕ}

namespace SearchTree

variable {tree : SearchTree} {level start leaf target child : ℕ}

/-- A node is promising when a leaf below it is. -/
def Hereditary (tree : SearchTree) : Prop :=
  ∀ level ≤ tree.height, ∀ child, tree.promising level child = true ↔
    ∃ leaf, tree.node level leaf = child ∧ tree.promising 0 leaf = true

/-- No node between those above the start and the leaf is promising. -/
def Unblocked (tree : SearchTree) (start leaf : ℕ) : Prop :=
  ∀ level ≤ tree.height, ∀ child, tree.node level start < child → child < tree.node level leaf →
    tree.promising level child = false

/-- The leaf is the least promising one from the start on. -/
def LeastFrom (tree : SearchTree) (start leaf : ℕ) : Prop :=
  IsLeast {leaf | start ≤ leaf ∧ tree.promising 0 leaf = true} leaf

theorem LeastFrom.ne_false (least : tree.LeastFrom start target) :
    tree.promising 0 target ≠ false := Bool.ne_false_iff.mpr least.1.2

theorem Hereditary.promising_node (hereditary : tree.Hereditary) (below : level ≤ tree.height)
    (promising : tree.promising 0 leaf = true) :
    tree.promising level (tree.node level leaf) = true :=
  (hereditary level below _).mpr ⟨leaf, rfl, promising⟩

theorem Hereditary.not_promising (hereditary : tree.Hereditary) (below : level ≤ tree.height)
    (unpromising : tree.promising level (tree.node level leaf) = false) :
    tree.promising 0 leaf = false := by
  by_contra promising
  rw [hereditary.promising_node below (by simpa using promising)] at unpromising
  exact Bool.noConfusion unpromising

theorem Hereditary.unblocked (hereditary : tree.Hereditary) (least : tree.LeastFrom start target) :
    tree.Unblocked start target := by
  intro level below child after before
  by_contra promising
  obtain ⟨leaf, rfl, leaf_promising⟩ :=
    (hereditary level below child).mp (by simpa using promising)
  have behind : start ≤ leaf := le_of_not_gt fun ahead =>
    absurd after (not_lt.mpr (tree.node_mono level ahead.le))
  exact absurd before (not_lt.mpr (tree.node_mono level (least.2 ⟨behind, leaf_promising⟩)))

/-- The least promising leaf of the tree is the least of all. -/
theorem leastFrom_of_inside {kind : ℕ → Prop}
    (promising_iff : ∀ leaf < tree.capacity, tree.promising 0 leaf = true ↔ kind leaf)
    (least : IsLeast {leaf | start ≤ leaf ∧ leaf < tree.capacity ∧ kind leaf} target) :
    tree.LeastFrom start target := by
  obtain ⟨⟨from_, inside, of_kind⟩, lower⟩ := least
  refine ⟨⟨from_, (promising_iff target inside).mpr of_kind⟩, fun leaf ⟨from_, promising⟩ => ?_⟩
  by_cases leaf_inside : leaf < tree.capacity
  · exact lower ⟨from_, leaf_inside, (promising_iff leaf leaf_inside).mp promising⟩
  · exact inside.le.trans (not_lt.mp leaf_inside)

/-- A property of the leaves that decides a property of the nodes level by level. -/
theorem exists_leaf_iff (kind : ℕ → ℕ → Prop)
    (child_iff : ∀ level < tree.height, ∀ child, kind (level + 1) child ↔
      ∃ place < tree.fan level, kind level (child * tree.fan level + place))
    (below : level ≤ tree.height) :
    kind level child ↔ ∃ leaf, tree.node level leaf = child ∧ kind 0 leaf := by
  induction level generalizing child with
  | zero => simp
  | succ level ih =>
    rw [child_iff level below]
    constructor
    · rintro ⟨place, small, matching⟩
      obtain ⟨leaf, above, leaf_matching⟩ := (ih (by omega)).mp matching
      refine ⟨leaf, ?_, leaf_matching⟩
      rw [node_succ, above, mul_comm, mul_add_div (tree.fan_pos level),
        div_eq_of_lt small, add_zero]
    · rintro ⟨leaf, rfl, leaf_matching⟩
      refine ⟨tree.digit level leaf, mod_lt _ (tree.fan_pos level), ?_⟩
      rw [← node_eq_digit]
      exact (ih (by omega)).mpr ⟨leaf, rfl, leaf_matching⟩

/-- The counts say how many leaves of some kind are below. -/
structure Counts (tree : SearchTree) (count : ℕ → ℕ → ℕ) : Prop where
  /-- A leaf counts at most once. -/
  leaf_le : ∀ leaf, count 0 leaf ≤ 1
  /-- A node counts what its children do. -/
  node_eq : ∀ level < tree.height, ∀ child, count (level + 1) child =
    ∑ place ∈ range (tree.fan level), count level (child * tree.fan level + place)

namespace Counts

variable {count : ℕ → ℕ → ℕ} (counts : tree.Counts count)

include counts

theorem le_size (below : level ≤ tree.height) (child : ℕ) :
    count level child ≤ tree.size level := by
  induction level generalizing child with
  | zero => exact counts.leaf_le child
  | succ level ih =>
    rw [counts.node_eq level below]
    refine (sum_le_card_nsmul _ _ (tree.size level) fun place _ => ih (by omega) _).trans ?_
    rw [card_range, smul_eq_mul, mul_comm, size]

theorem pos_iff (below : level ≤ tree.height) :
    0 < count level child ↔ ∃ leaf, tree.node level leaf = child ∧ 0 < count 0 leaf := by
  refine exists_leaf_iff (fun level child => 0 < count level child)
    (fun level below child => ?_) below
  rw [counts.node_eq level below, sum_pos_iff]
  simp only [mem_range]

theorem lt_size_iff (below : level ≤ tree.height) :
    count level child < tree.size level ↔
      ∃ leaf, tree.node level leaf = child ∧ count 0 leaf = 0 := by
  have room : ∀ leaf, count 0 leaf < tree.size 0 ↔ count 0 leaf = 0 := fun leaf => lt_one_iff
  simp only [← room]
  refine exists_leaf_iff (fun level child => count level child < tree.size level)
    (fun level below child => ?_) below
  have le : ∀ place ∈ range (tree.fan level),
      count level (child * tree.fan level + place) ≤ tree.size level :=
    fun place _ => counts.le_size (by omega) _
  have total : ∑ _place ∈ range (tree.fan level), tree.size level =
      tree.size (level + 1) := by
    rw [sum_const, card_range, smul_eq_mul, mul_comm, size]
  rw [counts.node_eq level below, ← total]
  constructor
  · intro less
    obtain ⟨place, small, less⟩ := exists_lt_of_sum_lt less
    exact ⟨place, mem_range.mp small, less⟩
  · rintro ⟨place, small, less⟩
    exact sum_lt_sum le ⟨place, mem_range.mpr small, less⟩

end Counts

/-- Promising nodes can be read, and whatever is above a node that can. -/
structure Charted (tree : SearchTree) : Prop where
  /-- The search passes unreadable nodes. -/
  passes : tree.stops = false
  /-- What is above a promising leaf is promising. -/
  promising_node : ∀ level ≤ tree.height, ∀ leaf, tree.promising 0 leaf = true →
    tree.promising level (tree.node level leaf) = true
  /-- A promising node can be read. -/
  readable_of_promising : ∀ level < tree.height, ∀ child,
    tree.promising (level + 1) child = true → tree.readable (level + 1) child = true
  /-- So can the parent of a readable one. -/
  readable_parent : ∀ level, level + 1 < tree.height → ∀ child,
    tree.readable (level + 1) child = true →
      tree.readable (level + 2) (child / tree.fan (level + 1)) = true

theorem node_carry (tree : SearchTree) (level count position : ℕ) :
    tree.node level (count * tree.size (level + 1) + position % tree.size (level + 1)) =
      count * tree.fan level + tree.digit level position := by
  rw [node_eq_digit, node_mul _ (tree.mod_size_lt _ _), digit_eq, digit_eq,
    mul_add_mod_of_lt (tree.mod_size_lt _ _)]

/-- Above the start the climb is beyond its node, or could not read it. -/
theorem beyond_or_unreadable (below : level < tree.height)
    (fails : tree.FailsBelow start (level + 1)) :
    tree.node (level + 1) start < tree.node (level + 1) (tree.rise start (level + 1)) ∨
    (tree.node (level + 1) start = tree.node (level + 1) (tree.rise start (level + 1)) ∧
      tree.readable (level + 1) (tree.node (level + 1) start) = false) := by
  have ahead : tree.node (level + 1) start ≤ tree.node (level + 1) (tree.rise start level) :=
    tree.node_mono _ (le_rise below.le)
  rcases rise_succ below fails with ⟨closed, same⟩ | ⟨-, -, moved⟩
  · rw [same]
    rcases ahead.lt_or_eq with ahead | together
    · exact Or.inl ahead
    · refine Or.inr ⟨together, ?_⟩
      rw [together]
      exact Bool.eq_false_iff.mpr fun readable => closed (Or.inr readable)
  · rw [moved, node_mul _ (tree.mod_size_lt_succ level _)]
    exact Or.inl (lt_succ_of_le ahead)

namespace Charted

variable (charted : tree.Charted)

include charted

section

variable (below : level ≤ tree.height) (fails : tree.FailsBelow start level)

include below fails

/-- The climb passes no promising leaf. -/
theorem nothing_before :
    ∀ leaf, start ≤ leaf → leaf < tree.node level (tree.rise start level) * tree.size level →
      tree.promising 0 leaf = false := by
  induction level with
  | zero =>
    intro leaf from_ until_
    simp only [rise, node_zero, size, mul_one] at until_
    omega
  | succ level ih =>
    have ih := ih (by omega) fails.of_succ
    intro leaf from_ until_
    by_cases passed : leaf < tree.node level (tree.rise start level) * tree.size level
    · exact ih leaf from_ passed
    rw [not_lt, ← le_node_iff] at passed
    rcases rise_succ below fails with ⟨-, same⟩ | ⟨-, exhausted, moved⟩
    · rw [same, ← node_lt_iff, node_succ, node_succ] at until_
      exact absurd until_ (not_lt.mpr (Nat.div_le_div_right passed))
    · rw [moved, node_mul _ (tree.mod_size_lt_succ level _), ← childEnd_of_lt below,
        ← node_lt_iff] at until_
      exact Bool.eq_false_iff.mpr fun promising => Bool.false_ne_true
        ((exhausted _ passed until_).symm.trans
          (charted.promising_node level (by omega) leaf promising))

theorem node_start_lt_of_first (positive : 0 < level)
    (first : tree.First level (tree.rise start level) child) : tree.node level start < child := by
  obtain ⟨level, rfl⟩ := Nat.exists_eq_succ_of_ne_zero positive.ne'
  rcases beyond_or_unreadable below fails with beyond | ⟨same, unreadable⟩
  · exact beyond.trans_le first.low
  · refine (same.le.trans first.low).lt_of_ne fun here => ?_
    rw [here, charted.readable_of_promising level below child first.promising] at unreadable
    exact Bool.noConfusion unreadable

/-- The climb does not pass the node above the least promising leaf. -/
theorem node_rise_le (least : tree.LeastFrom start target) :
    tree.node level (tree.rise start level) ≤ tree.node level target := by
  by_contra passed
  rw [not_le, node_lt_iff] at passed
  exact least.ne_false (charted.nothing_before below fails target least.1.1 passed)

theorem node_eq_of_first (first : tree.First level (tree.rise start level) child)
    (least : tree.LeastFrom start target) (unblocked : tree.Unblocked start target) :
    tree.node level target = child := by
  rcases lt_trichotomy (tree.node level target) child with before | same | behind
  · have := first.passed _ (charted.node_rise_le below fails least) before
    rw [charted.promising_node level below target least.1.2] at this
    exact Bool.noConfusion this
  · exact same
  · rcases Nat.eq_zero_or_pos level with rfl | positive
    · have low : start ≤ child := by simpa [rise] using first.low
      have := least.2 ⟨low, first.promising⟩
      rw [node_zero] at behind
      omega
    · have := unblocked level below child
        (charted.node_start_lt_of_first below fails positive first) behind
      rw [first.promising] at this
      exact Bool.noConfusion this

end

/-- The climb stops at a node above the least promising leaf. -/
theorem exists_first (least : tree.LeastFrom start target) (inside : target < tree.capacity)
    (unblocked : tree.Unblocked start target) :
    ∃ level ≤ tree.height, tree.FailsBelow start level ∧
    tree.Open level (tree.rise start level) ∧
    tree.First level (tree.rise start level) (tree.node level target) := by
  rcases tree.found_or_fails start with ⟨level, below, fails, found⟩ | fails
  · obtain ⟨open_, child, first⟩ := (step_fst_eq_true charted.passes).mp found
    refine ⟨level, below, fails, open_, ?_⟩
    rwa [charted.node_eq_of_first below fails first least unblocked]
  · refine ⟨tree.height, le_rfl, fails.of_succ, Or.inl rfl, ?_⟩
    rcases tree.first_or_exhausted tree.height (tree.rise start tree.height) with
      ⟨child, first⟩ | exhausted
    · rwa [charted.node_eq_of_first le_rfl fails.of_succ first least unblocked]
    · have matching := exhausted _ (charted.node_rise_le le_rfl fails.of_succ least)
        (by rwa [node_lt_iff, childEnd_height])
      rw [charted.promising_node _ le_rfl target least.1.2] at matching
      exact Bool.noConfusion matching

theorem node_start_lt (below : level < tree.height) (fails : tree.FailsBelow start (level + 1))
    (least : tree.LeastFrom start target) :
    tree.node (level + 1) start < tree.node (level + 1) target := by
  rcases beyond_or_unreadable below fails with beyond | ⟨same, unreadable⟩
  · exact beyond.trans_le (charted.node_rise_le below fails least)
  · refine (tree.node_mono _ least.1.1).lt_of_ne fun together => ?_
    have readable := charted.readable_of_promising level below _
      (charted.promising_node _ below target least.1.2)
    rw [← together, unreadable] at readable
    exact Bool.noConfusion readable

theorem readable_above {lower : ℕ} (order : lower ≤ level) (below : level < tree.height)
    (readable : tree.readable (lower + 1) (tree.node (lower + 1) leaf) = true) :
    tree.readable (level + 1) (tree.node (level + 1) leaf) = true := by
  induction level, order using le_induction with
  | base => exact readable
  | succ level _ ih =>
    rw [node_succ]
    exact charted.readable_parent level below _ (ih (by omega))

section

variable (below : level < tree.height)

include below

/-- The climb does not move below an unreadable node. -/
theorem rise_eq_start
    (unreadable : tree.readable (level + 1) (tree.node (level + 1) start) = false) :
    ∀ lower ≤ level + 1, tree.rise start lower = start := by
  intro lower order
  induction lower with
  | zero => rfl
  | succ lower ih =>
    have same := ih (by omega)
    have closed : ¬ tree.Open lower start := by
      rintro (top | readable)
      · omega
      · have := charted.readable_above (by omega) below readable
        rw [unreadable] at this
        exact Bool.noConfusion this
    rw [rise, same, step_of_not_open closed]

theorem readable_or_front (fails : tree.FailsBelow start level)
    (readable : tree.readable (level + 1) (tree.node (level + 1) start) = true) :
    tree.readable (level + 1) (tree.node (level + 1) (tree.rise start level)) = true ∨
    (tree.digit level (tree.rise start level) = 0 ∧ 0 < tree.node level (tree.rise start level) ∧
      tree.readable (level + 1)
        ((tree.node level (tree.rise start level) - 1) / tree.fan level) = true) := by
  induction level with
  | zero => exact Or.inl readable
  | succ level ih =>
    by_cases lower_readable : tree.readable (level + 1) (tree.node (level + 1) start) = true
    · have before := ih (by omega) fails.of_succ lower_readable
      -- The node before the one that the climb has come to can be read.
      obtain ⟨place, place_eq, readable_place⟩ : ∃ place,
          tree.node (level + 1) (tree.rise start (level + 1)) = place + 1 ∧
          tree.readable (level + 1) place = true := by
        rcases rise_succ (by omega) fails with ⟨closed, same⟩ | ⟨open_, -, moved⟩
        · rcases before with readable_here | ⟨front, positive, readable_before⟩
          · exact absurd (Or.inr readable_here) closed
          · refine ⟨_, ?_, readable_before⟩
            rw [same, node_succ]
            have dvd := dvd_of_mod_eq_zero front
            obtain ⟨quotient, eq⟩ := dvd
            rw [eq] at positive ⊢
            have fan_pos := tree.fan_pos level
            have : 0 < quotient := Nat.pos_of_mul_pos_left positive
            obtain ⟨before, rfl⟩ := Nat.exists_eq_add_of_lt this
            rw [Nat.mul_div_cancel_left _ fan_pos, Nat.zero_add, Nat.mul_succ,
              Nat.add_sub_assoc fan_pos, Nat.mul_add_div fan_pos,
              Nat.div_eq_of_lt (Nat.sub_lt fan_pos Nat.one_pos)]
        · refine ⟨_, ?_, open_.resolve_left (by omega)⟩
          rw [moved, node_mul _ (tree.mod_size_lt_succ level _)]
      have parent := charted.readable_parent level below place readable_place
      rw [place_eq, node_succ, place_eq, digit, place_eq]
      rcases Nat.eq_zero_or_pos ((place + 1) % tree.fan (level + 1)) with front | inside
      · exact Or.inr ⟨front, place.succ_pos, parent⟩
      · left
        rwa [Nat.succ_div_of_not_dvd fun dvd =>
          inside.ne' (mod_eq_zero_of_dvd dvd)]
    · left
      rw [charted.rise_eq_start (by omega) (Bool.eq_false_iff.mpr lower_readable) _ le_rfl]
      exact readable

/-- The digit of the climb at a level that it has passed. -/
theorem digit_rise (fails : tree.FailsBelow start (level + 1)) :
    tree.digit level (tree.rise start (level + 1)) =
      if tree.readable (level + 1) (tree.node (level + 1) start) then 0
      else tree.digit level start := by
  split_ifs with readable
  · rcases rise_succ below fails with ⟨closed, same⟩ | ⟨-, -, moved⟩
    · rw [same]
      rcases charted.readable_or_front below fails.of_succ readable with here | ⟨front, -⟩
      · exact absurd (Or.inr here) closed
      · exact front
    · rw [digit_eq, moved, mul_add_mod_of_lt (tree.mod_size_lt_succ level _),
        div_eq_of_lt (tree.mod_size_lt level _)]
  · rw [charted.rise_eq_start below (Bool.eq_false_iff.mpr readable) _ le_rfl]

/-- The node above the least promising leaf is the first from a carried position on. -/
theorem first_carry_iff (least : tree.LeastFrom start target)
    (unblocked : tree.Unblocked start target)
    (beyond : tree.node (level + 1) start < tree.node (level + 1) target) :
    tree.First level (tree.node (level + 1) target * tree.size (level + 1) +
        position % tree.size (level + 1)) (tree.node level target) ↔
      tree.digit level position ≤ tree.digit level target := by
  have place : tree.node level target =
      tree.node (level + 1) target * tree.fan level + tree.digit level target := node_eq_digit
  constructor
  · intro first
    have low := first.low
    rw [node_carry] at low
    omega
  · intro order
    refine ⟨?_, ?_, charted.promising_node level below.le target least.1.2, ?_⟩
    · rw [node_carry]
      omega
    · rw [node_lt_iff, childEnd_of_lt below, node_mul _ (tree.mod_size_lt _ _), ← node_lt_iff]
      exact lt_succ_self _
    · intro before from_ until_
      refine unblocked level below.le before (lt_of_not_ge fun ahead => ?_) until_
      have parent := Nat.div_le_div_right (c := tree.fan level) (from_.trans ahead)
      rw [← node_succ, ← node_succ, node_mul _ (tree.mod_size_lt _ _)] at parent
      omega

end

/-- The search finds the least leaf exactly when no carried digit is beyond its own. -/
theorem search_eq_iff_digit_le (least : tree.LeastFrom start target)
    (inside : target < tree.capacity) (unblocked : tree.Unblocked start target) :
    tree.search start = (true, target) ↔ ∀ level < tree.height,
      tree.readable (level + 1) (tree.node (level + 1) start) = false →
        tree.digit level start ≤ tree.digit level target := by
  obtain ⟨top, below, fails, open_, first⟩ := charted.exists_first least inside unblocked
  have lower_fails : ∀ level < top, tree.FailsBelow start (level + 1) :=
    fun level order lower order' => fails lower (by omega)
  have found := (step_fst_eq_true charted.passes).mpr ⟨open_, _, first⟩
  rw [search_of_found below fails found, descend_eq_iff charted.passes below, step_of_open open_,
    scan_of_first first]
  have carried : ∀ level < top, (tree.node top target * tree.size top +
      tree.rise start top % tree.size top) % tree.size (level + 1) =
        tree.rise start (level + 1) % tree.size (level + 1) := by
    intro level order
    obtain ⟨factor, size_eq⟩ := tree.size_dvd (succ_le_of_lt order)
    rw [← rise_mod (succ_le_of_lt order), size_eq, mul_left_comm, mul_add_mod,
      mod_mul_right_mod]
  have first_iff : ∀ level < top, tree.First level (tree.node (level + 1) target *
      tree.size (level + 1) + (tree.node top target * tree.size top +
        tree.rise start top % tree.size top) % tree.size (level + 1)) (tree.node level target) ↔
      (tree.readable (level + 1) (tree.node (level + 1) start) = false →
        tree.digit level start ≤ tree.digit level target) := by
    intro level order
    have below' : level < tree.height := by omega
    rw [carried level order, charted.first_carry_iff below' least unblocked
      (charted.node_start_lt below' (lower_fails level order) least),
      charted.digit_rise below' (lower_fails level order)]
    cases readable : tree.readable (level + 1) (tree.node (level + 1) start) <;> simp
  constructor
  · intro guides level below' unreadable
    rcases lt_or_ge level top with order | order
    · exact (first_iff level order).mp (guides.first level order) unreadable
    · -- The climb stopped at the first level, so it could read everything above.
      have same := charted.rise_eq_start below' unreadable top (by omega)
      rw [same] at open_
      have readable := charted.readable_above order below' (open_.resolve_left (by omega))
      rw [unreadable] at readable
      exact Bool.noConfusion readable
  · intro digits
    refine ⟨(node_mul _ (tree.mod_size_lt _ _)).symm, fun level order => ?_, fun level order => ?_⟩
    · exact charted.readable_of_promising level (by omega) _
        (charted.promising_node _ (by omega) target least.1.2)
    · exact (first_iff level order).mpr (digits level (by omega))

end Charted

/-- All below an unreadable node is promising, and all behind its end. -/
structure Stopping (tree : SearchTree) : Prop where
  /-- The search stops at unreadable nodes. -/
  stops : tree.stops = true
  /-- A node is promising if a leaf below it is. -/
  hereditary : tree.Hereditary
  /-- All below an unreadable node is promising. -/
  promising_of_unreadable : ∀ level < tree.height, ∀ leaf,
    tree.readable (level + 1) (tree.node (level + 1) leaf) = false → tree.promising 0 leaf = true
  /-- All behind the end is promising. -/
  outside : ∀ leaf, tree.capacity ≤ leaf → tree.promising 0 leaf = true

/-- Where the climb comes to when everything that it passes is full. -/
def front (tree : SearchTree) (start : ℕ) : ℕ → ℕ
  | 0 => start
  | level + 1 => (tree.node (level + 1) (tree.front start level) + 1) * tree.size (level + 1)

theorem size_dvd_front (tree : SearchTree) (start level : ℕ) :
    tree.size level ∣ tree.front start level := by
  cases level with
  | zero => exact one_dvd _
  | succ level => exact dvd_mul_left _ _

theorem front_lt_succ (tree : SearchTree) (start level : ℕ) :
    tree.front start level < tree.front start (level + 1) := by
  rw [front, ← node_lt_iff]
  exact lt_succ_self _

theorem front_mono (tree : SearchTree) (start : ℕ) : Monotone (tree.front start) :=
  monotone_nat_of_le_succ fun level => (tree.front_lt_succ start level).le

/-- How far the climb comes, by what it passes at each level. -/
theorem front_lt_iff {bound : ℕ} (multiple : tree.size level ∣ bound) :
    tree.front start level < bound ↔
      start + ∑ lower ∈ range level, tree.size (lower + 1) < bound := by
  induction level generalizing bound with
  | zero => simp [front]
  | succ level ih =>
    obtain ⟨count, rfl⟩ := multiple
    have size_pos := tree.size_pos (level + 1)
    have whole : tree.front start (level + 1) < tree.size (level + 1) * count ↔
        tree.front start level < tree.size (level + 1) * (count - 1) := by
      rw [front, Nat.mul_comm, Nat.mul_lt_mul_left size_pos, Nat.mul_comm (tree.size _),
        ← node_lt_iff]
      omega
    have less : tree.size level ∣ tree.size (level + 1) * (count - 1) :=
      (tree.size_dvd level.le_succ).mul_right _
    rw [whole, ih less, sum_range_succ]
    cases count with
    | zero => simp
    | succ count =>
      rw [Nat.add_sub_cancel, Nat.mul_succ]
      omega

theorem first_of_front (hereditary : tree.Hereditary) (below : level ≤ tree.height)
    (front : tree.size level ∣ position) (least : tree.LeastFrom position target)
    (window : tree.node level target < tree.childEnd level position) :
    tree.First level position (tree.node level target) := by
  refine ⟨tree.node_mono level least.1.1, window,
    hereditary.promising_node below least.1.2, fun before from_ until_ => ?_⟩
  by_contra matching
  obtain ⟨leaf, above, promising⟩ :=
    (hereditary level below before).mp (by simpa using matching)
  subst above
  have behind : position ≤ leaf := by
    rw [le_node_iff, node, Nat.div_mul_cancel front] at from_
    exact from_
  exact absurd (tree.node_mono level (least.2 ⟨behind, promising⟩)) (not_le.mpr until_)

theorem LeastFrom.node_mul (front : tree.size level ∣ position)
    (least : tree.LeastFrom position target) :
    tree.LeastFrom (tree.node level target * tree.size level) target := by
  refine ⟨⟨node_mul_le, least.1.2⟩, fun leaf ⟨from_, promising⟩ => least.2 ⟨?_, promising⟩⟩
  have := Nat.mul_le_mul_right (tree.size level) (tree.node_mono level least.1.1)
  rw [node, Nat.div_mul_cancel front] at this
  exact this.trans from_

namespace Stopping

variable (stopping : tree.Stopping)

include stopping

section

variable (below : level ≤ tree.height)

include below

theorem step_of_closed (closed : ¬ tree.Open level position) :
    tree.step level position = (true, position) ∧ tree.promising 0 position = true := by
  rw [step_of_not_open closed, stopping.stops]
  have not_top : level ≠ tree.height := fun top => closed (Or.inl top)
  refine ⟨rfl, stopping.promising_of_unreadable level (by omega) position ?_⟩
  exact Bool.eq_false_iff.mpr fun readable => closed (Or.inr readable)

theorem descend_eq (front : tree.size level ∣ position) (least : tree.LeastFrom position target)
    (same : tree.node level target = tree.node level position) :
    tree.descend level position = (true, target) := by
  induction level generalizing position with
  | zero =>
    rw [node_zero, node_zero] at same
    rw [descend, same]
  | succ level ih =>
    have below' : level < tree.height := below
    have front' : tree.size level ∣ position := (tree.size_dvd level.le_succ).trans front
    rw [descend]
    by_cases open_ : tree.Open level position
    · have window : tree.node level target < tree.childEnd level position := by
        rw [node_lt_iff, childEnd_of_lt below', ← node_lt_iff, same]
        exact lt_succ_self _
      have first := first_of_front stopping.hereditary below'.le front' least window
      rw [step_of_open open_, scan_of_first first, if_pos rfl, mod_eq_zero_of_dvd front',
        add_zero]
      exact ih below'.le (dvd_mul_left _ _) (least.node_mul front') node_mul_size.symm
    · obtain ⟨step_eq, promising⟩ := stopping.step_of_closed below'.le open_
      have here : target = position := least.2 ⟨le_rfl, promising⟩ |>.antisymm least.1.1
      rw [step_eq, if_pos rfl]
      exact ih below'.le front' least (by rw [here])

/-- The climb goes from front to front and passes no promising leaf. -/
theorem rise_eq_front (fails : tree.FailsBelow start level) :
    tree.rise start level = tree.front start level ∧
    ∀ leaf, start ≤ leaf → leaf < tree.front start level → tree.promising 0 leaf = false := by
  induction level with
  | zero => exact ⟨rfl, fun leaf from_ until_ => absurd until_ (not_lt.mpr from_)⟩
  | succ level ih =>
    have below' : level < tree.height := below
    obtain ⟨rise_eq, nothing⟩ := ih below'.le fails.of_succ
    rcases rise_succ below' fails with ⟨closed, -⟩ | ⟨-, exhausted, moved⟩
    · have fails_here := fails level (lt_succ_self level)
      rw [(stopping.step_of_closed below'.le closed).1] at fails_here
      exact absurd fails_here.symm Bool.false_ne_true
    · rw [rise_eq] at exhausted moved
      refine ⟨?_, fun leaf from_ until_ => ?_⟩
      · rw [moved, mod_eq_zero_of_dvd (tree.size_dvd_front start level), front, add_zero]
      · by_cases passed : leaf < tree.front start level
        · exact nothing leaf from_ passed
        · refine stopping.hereditary.not_promising below'.le (exhausted _ ?_ ?_)
          · exact tree.node_mono level (not_lt.mp passed)
          · rwa [node_lt_iff, childEnd_of_lt below']

/-- A search that finds something finds the least promising leaf. -/
theorem search_eq_of_found (fails : tree.FailsBelow start level)
    (found : (tree.step level (tree.rise start level)).1 = true)
    (least : tree.LeastFrom start target) : tree.search start = (true, target) := by
  obtain ⟨rise_eq, nothing⟩ := stopping.rise_eq_front below fails
  have least' : tree.LeastFrom (tree.front start level) target := by
    refine ⟨⟨?_, least.1.2⟩, fun leaf ⟨from_, promising⟩ => least.2 ⟨?_, promising⟩⟩
    · by_contra before
      exact least.ne_false (nothing target least.1.1 (not_le.mp before))
    · exact (tree.front_mono start level.zero_le).trans from_
  have front := tree.size_dvd_front start level
  rw [search_of_found below fails found]
  rw [rise_eq] at found ⊢
  by_cases open_ : tree.Open level (tree.front start level)
  · rcases tree.first_or_exhausted level (tree.front start level) with ⟨child, first⟩ | exhausted
    · have window : tree.node level target < tree.childEnd level (tree.front start level) := by
        obtain ⟨leaf, above, promising⟩ :=
          (stopping.hereditary level below child).mp first.promising
        have from_ : tree.front start level ≤ leaf := by
          have low := first.low
          rwa [← above, le_node_iff, node, Nat.div_mul_cancel front] at low
        have order := tree.node_mono level (least'.2 ⟨from_, promising⟩)
        rw [above] at order
        exact order.trans_lt first.high
      have first := first_of_front stopping.hereditary below front least' window
      rw [step_of_open open_, scan_of_first first, mod_eq_zero_of_dvd front, add_zero]
      exact stopping.descend_eq below (dvd_mul_left _ _) (least'.node_mul front) node_mul_size.symm
    · rw [step_of_open open_, scan_of_exhausted exhausted] at found
      exact absurd found Bool.false_ne_true
  · obtain ⟨step_eq, promising⟩ := stopping.step_of_closed below open_
    have here : target = tree.front start level :=
      (least'.2 ⟨le_rfl, promising⟩).antisymm least'.1.1
    rw [step_eq]
    exact stopping.descend_eq below front least' (by rw [here])

end

theorem search_eq_or_false (least : tree.LeastFrom start target) :
    tree.search start = (true, target) ∨ (tree.search start).1 = false := by
  rcases tree.found_or_fails start with ⟨level, below, fails, found⟩ | fails
  · exact Or.inl (stopping.search_eq_of_found below fails found least)
  · exact Or.inr (search_of_fails fails)

/-- The search finds every promising leaf of the tree. -/
theorem search_eq (least : tree.LeastFrom start target) (inside : target < tree.capacity) :
    tree.search start = (true, target) := by
  rcases tree.found_or_fails start with ⟨level, below, fails, found⟩ | fails
  · exact stopping.search_eq_of_found below fails found least
  · obtain ⟨rise_eq, nothing⟩ := stopping.rise_eq_front le_rfl fails.of_succ
    have exhausted := exhausted_of_step (fails tree.height (lt_succ_self _)) (Or.inl rfl)
    rw [rise_eq] at exhausted
    refine absurd ?_ least.ne_false
    by_cases before : target < tree.front start tree.height
    · exact nothing target least.1.1 before
    · refine stopping.hereditary.not_promising le_rfl (exhausted _ ?_ ?_)
      · exact tree.node_mono _ (not_lt.mp before)
      · rwa [node_lt_iff, childEnd_height]

section Full

variable (full : ∀ leaf, start ≤ leaf → leaf < tree.capacity → tree.promising 0 leaf = false)

include full

theorem leastFrom_capacity (inside : start < tree.capacity) :
    tree.LeastFrom start tree.capacity := by
  refine ⟨⟨inside.le, stopping.outside _ le_rfl⟩, fun leaf ⟨from_, promising⟩ => ?_⟩
  by_contra before
  rw [full leaf from_ (not_le.mp before)] at promising
  exact Bool.noConfusion promising

theorem step_fst_eq_false (below : level ≤ tree.height)
    (short : level < tree.height → tree.front start level < tree.capacity) :
    (tree.step level (tree.front start level)).1 = false := by
  have from_ : start ≤ tree.front start level := tree.front_mono start level.zero_le
  have open_ : tree.Open level (tree.front start level) := by
    by_contra closed
    have not_top : level ≠ tree.height := fun top => closed (Or.inl top)
    have promising := (stopping.step_of_closed below closed).2
    rw [full _ from_ (short (by omega))] at promising
    exact Bool.noConfusion promising
  have window : tree.childEnd level (tree.front start level) * tree.size level ≤ tree.capacity := by
    rcases below.lt_or_eq with below' | rfl
    · obtain ⟨count, capacity_eq⟩ : tree.size (level + 1) ∣ tree.capacity :=
        (tree.size_dvd below').mul_left _
      have inside := short below'
      rw [childEnd_of_lt below']
      rw [capacity_eq, mul_comm, ← node_lt_iff] at inside
      rw [capacity_eq, mul_comm (tree.size _)]
      exact mul_le_mul_right _ inside
    · exact childEnd_height.le
  have exhausted : tree.Exhausted level (tree.front start level) := by
    intro child low high
    by_contra matching
    obtain ⟨leaf, above, promising⟩ :=
      (stopping.hereditary level below child).mp (by simpa using matching)
    subst above
    rw [le_node_iff, node, Nat.div_mul_cancel (tree.size_dvd_front start level)] at low
    rw [node_lt_iff] at high
    rw [full leaf (from_.trans low) (high.trans_le window)] at promising
    exact Bool.noConfusion promising
  rw [step_of_open open_, scan_of_exhausted exhausted]

/-- Where nothing is promising, the tree is passed only if the climb reaches the root inside. -/
theorem missed_iff_of_full (inside : start < tree.capacity) :
    (tree.search start).1 = false ∨ (tree.search start).2 < start ↔
      start + ∑ lower ∈ range (tree.height - 1), tree.size (lower + 1) < tree.capacity := by
  have missed_iff : (tree.search start).1 = false ∨ (tree.search start).2 < start ↔
      (tree.search start).1 = false := by
    refine ⟨fun missed => ?_, Or.inl⟩
    rcases stopping.search_eq_or_false (stopping.leastFrom_capacity full inside) with found | failed
    · rw [found] at missed
      exact absurd missed (not_or.mpr ⟨Bool.noConfusion, not_lt.mpr inside.le⟩)
    · exact failed
  have multiple : tree.size (tree.height - 1) ∣ tree.capacity :=
    (tree.size_dvd (sub_le _ _)).mul_left _
  rw [missed_iff, ← front_lt_iff multiple]
  constructor
  · intro fails_search
    by_contra long
    rw [not_lt] at long
    have positive : 0 < tree.height := by
      by_contra flat
      rw [Nat.eq_zero_of_not_pos flat] at long
      exact absurd inside (not_lt.mpr long)
    rcases tree.found_or_fails start with ⟨level, below, fails, found⟩ | fails
    · rw [stopping.search_eq_of_found below fails found
        (stopping.leastFrom_capacity full inside)] at fails_search
      exact Bool.noConfusion fails_search
    · obtain ⟨-, nothing⟩ := stopping.rise_eq_front le_rfl fails.of_succ
      have ahead := tree.front_lt_succ start (tree.height - 1)
      rw [Nat.sub_add_cancel positive] at ahead
      have promising := nothing tree.capacity inside.le (by omega)
      rw [stopping.outside _ le_rfl] at promising
      exact Bool.noConfusion promising
  · intro short
    have short' : ∀ level < tree.height, tree.front start level < tree.capacity :=
      fun level below => (tree.front_mono start (le_sub_one_of_lt below)).trans_lt short
    have fails : ∀ level ≤ tree.height + 1, tree.FailsBelow start level := by
      intro level
      induction level with
      | zero => exact fun _ => tree.failsBelow_zero start
      | succ level ih =>
        intro below
        refine (ih (by omega)).succ ?_
        rw [(stopping.rise_eq_front (by omega) (ih (by omega))).1]
        exact stopping.step_fst_eq_false full (by omega) fun below => short' _ below
    exact search_of_fails (fails _ le_rfl)

end Full

end Stopping

end SearchTree

end LevelSearch
