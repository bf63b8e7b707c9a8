import Mathlib

/-!
# Searching a tree level by level

The leaves of a tree are numbered from left to right.  A search starts at a leaf, climbs until the
rest of a node has a promising child and goes down again to a promising leaf.  A node that cannot be
read ends the climb, or is passed over with the position inside it kept.
-/

namespace LevelSearch

open Nat

/-- A tree as the search sees it, with the root above `height`. -/
structure SearchTree where
  /-- The level below the root. -/
  height : ℕ
  /-- The number of children of the root. -/
  roots : ℕ
  /-- The number of children of a node one level above. -/
  fan : ℕ → ℕ
  /-- Every node has a child. -/
  fan_pos : ∀ level, 0 < fan level
  /-- Whether the children of a node can be read. -/
  readable : ℕ → ℕ → Bool
  /-- Whether a node may have what is looked for. -/
  promising : ℕ → ℕ → Bool
  /-- A node that cannot be read is what is looked for. -/
  stops : Bool

namespace SearchTree

/-- The number of leaves below a node. -/
def size (tree : SearchTree) : ℕ → ℕ
  | 0 => 1
  | level + 1 => tree.size level * tree.fan level

/-- The node of a level above a leaf. -/
def node (tree : SearchTree) (level leaf : ℕ) : ℕ := leaf / tree.size level

/-- The number of leaves. -/
def capacity (tree : SearchTree) : ℕ := tree.roots * tree.size tree.height

variable (tree : SearchTree)

/-- The end of the children that stand in one node with the position. -/
def childEnd (level position : ℕ) : ℕ :=
  if level = tree.height then tree.roots
  else (tree.node (level + 1) position + 1) * tree.fan level

/-- The first promising child from the position on, if any. -/
def scan (level position : ℕ) : Bool × ℕ :=
  match (List.range' (tree.node level position)
      (tree.childEnd level position - tree.node level position)).find? (tree.promising level) with
  | some child => (true, child * tree.size level + position % tree.size level)
  | none =>
    (false, tree.childEnd level position * tree.size level + position % tree.size level)

/-- One step of the search, among the nodes of a level. -/
def step (level position : ℕ) : Bool × ℕ :=
  if level = tree.height then tree.scan level position
  else if tree.readable (level + 1) (tree.node (level + 1) position) then tree.scan level position
  else (tree.stops, position)

/-- The way up: success, level and position. -/
def climb : (left level position : ℕ) → Bool × ℕ × ℕ
  | 0, level, position => (false, level, position)
  | left + 1, level, position =>
    if (tree.step level position).1 then (true, level, (tree.step level position).2)
    else climb left (level + 1) (tree.step level position).2

/-- The way down from a level. -/
def descend : (level position : ℕ) → Bool × ℕ
  | 0, position => (true, position)
  | level + 1, position =>
    if (tree.step level position).1 then descend level (tree.step level position).2
    else (false, (tree.step level position).2)

/-- The search from a position. -/
def search (position : ℕ) : Bool × ℕ :=
  if (tree.climb (tree.height + 1) 0 position).1 then
    tree.descend (tree.climb (tree.height + 1) 0 position).2.1
      (tree.climb (tree.height + 1) 0 position).2.2
  else (false, (tree.climb (tree.height + 1) 0 position).2.2)

variable {tree} {level other position leaf child : ℕ}

theorem size_pos (tree : SearchTree) (level : ℕ) : 0 < tree.size level := by
  induction level with
  | zero => exact one_pos
  | succ level ih => exact mul_pos ih (tree.fan_pos level)

@[simp]
theorem node_zero : tree.node 0 leaf = leaf := Nat.div_one leaf

theorem node_succ : tree.node (level + 1) leaf = tree.node level leaf / tree.fan level :=
  (Nat.div_div_eq_div_mul _ _ _).symm

theorem node_mul_add_mod : tree.node level leaf * tree.size level + leaf % tree.size level = leaf :=
  div_add_mod' leaf _

theorem node_mul_le : tree.node level leaf * tree.size level ≤ leaf := div_mul_le_self _ _

theorem le_node_iff : child ≤ tree.node level leaf ↔ child * tree.size level ≤ leaf :=
  le_div_iff_mul_le (tree.size_pos level)

theorem node_lt_iff : tree.node level leaf < child ↔ leaf < child * tree.size level :=
  div_lt_iff_lt_mul (tree.size_pos level)

theorem node_mono (tree : SearchTree) (level : ℕ) (order : leaf ≤ other) :
    tree.node level leaf ≤ tree.node level other :=
  Nat.div_le_div_right order

theorem node_mul (rest : ℕ) (small : rest < tree.size level) :
    tree.node level (child * tree.size level + rest) = child := by
  rw [node, mul_comm, mul_add_div (tree.size_pos level), div_eq_of_lt small,
    Nat.add_zero]

theorem node_mul_size : tree.node level (child * tree.size level) = child :=
  Nat.mul_div_cancel _ (tree.size_pos level)

theorem size_dvd (order : level ≤ other) : tree.size level ∣ tree.size other := by
  induction other, order using le_induction with
  | base => exact dvd_rfl
  | succ other _ ih => exact ih.trans (dvd_mul_right _ _)

theorem mod_size_lt (tree : SearchTree) (level leaf : ℕ) :
    leaf % tree.size level < tree.size level :=
  mod_lt _ (tree.size_pos level)

theorem mod_size_lt_succ (tree : SearchTree) (level leaf : ℕ) :
    leaf % tree.size level < tree.size (level + 1) :=
  (tree.mod_size_lt level leaf).trans_le
    (le_of_dvd (tree.size_pos _) (tree.size_dvd level.le_succ))

/-- The first promising child from the position on. -/
structure First (tree : SearchTree) (level position child : ℕ) : Prop where
  low : tree.node level position ≤ child
  high : child < tree.childEnd level position
  promising : tree.promising level child
  passed : ∀ before, tree.node level position ≤ before → before < child →
    tree.promising level before = false

/-- There is no promising child from the position on in its node. -/
def Exhausted (tree : SearchTree) (level position : ℕ) : Prop :=
  ∀ child, tree.node level position ≤ child → child < tree.childEnd level position →
    tree.promising level child = false

theorem First.unique {child' : ℕ} (first : tree.First level position child)
    (first' : tree.First level position child') : child = child' := by
  rcases lt_trichotomy child child' with before | same | behind
  · exact absurd first.promising (by simp [first'.passed child first.low before])
  · exact same
  · exact absurd first'.promising (by simp [first.passed child' first'.low behind])

theorem First.div_fan (below : level < tree.height) (first : tree.First level position child) :
    child / tree.fan level = tree.node (level + 1) position := by
  have low : tree.node (level + 1) position ≤ child / tree.fan level := by
    rw [node_succ]
    exact Nat.div_le_div_right first.low
  have high : child < (tree.node (level + 1) position + 1) * tree.fan level := by
    have := first.high
    rwa [childEnd, if_neg below.ne] at this
  have := (div_lt_iff_lt_mul (tree.fan_pos level)).mpr high
  omega

theorem scan_of_first (first : tree.First level position child) : tree.scan level position =
    (true, child * tree.size level + position % tree.size level) := by
  have found : (List.range' (tree.node level position)
      (tree.childEnd level position - tree.node level position)).find? (tree.promising level) =
      some child := by
    have low := first.low
    have high := first.high
    refine List.find?_range'_eq_some.mpr ⟨first.promising, ?_, ?_⟩
    · exact List.mem_range'_1.mpr ⟨low, by omega⟩
    · intro before from_ until_
      simp [first.passed before from_ until_]
  simp only [scan, found]

theorem scan_of_exhausted (exhausted : tree.Exhausted level position) :
    tree.scan level position = (false,
      tree.childEnd level position * tree.size level + position % tree.size level) := by
  have none_found : (List.range' (tree.node level position)
      (tree.childEnd level position - tree.node level position)).find? (tree.promising level) =
      none := by
    refine List.find?_range'_eq_none.mpr ?_
    intro child from_ until_
    simp [exhausted child from_ (by omega)]
  simp only [scan, none_found]

theorem first_or_exhausted (tree : SearchTree) (level position : ℕ) :
    (∃ child, tree.First level position child) ∨ tree.Exhausted level position := by
  by_cases some_child : ∃ child, tree.node level position ≤ child ∧
      child < tree.childEnd level position ∧ tree.promising level child = true
  · obtain ⟨low, high, promising⟩ := Nat.find_spec some_child
    refine Or.inl ⟨Nat.find some_child, low, high, promising, fun before from_ until_ => ?_⟩
    have not_found := Nat.find_min some_child until_
    simpa [from_, until_.trans high] using not_found
  · refine Or.inr fun child from_ until_ => ?_
    by_contra promising
    exact some_child ⟨child, from_, until_, by simpa using promising⟩

/-- The children that a step looks through are at hand. -/
def Open (tree : SearchTree) (level position : ℕ) : Prop :=
  level = tree.height ∨ tree.readable (level + 1) (tree.node (level + 1) position) = true

theorem step_of_open (open_ : tree.Open level position) :
    tree.step level position = tree.scan level position := by
  unfold step
  rcases open_ with top | readable
  · rw [if_pos top]
  · rw [if_pos readable, ite_self]

theorem step_of_not_open (closed : ¬ tree.Open level position) :
    tree.step level position = (tree.stops, position) := by
  unfold step
  rw [if_neg fun top => closed (Or.inl top), if_neg fun readable => closed (Or.inr readable)]

theorem exhausted_of_step (fails : (tree.step level position).1 = false)
    (open_ : tree.Open level position) : tree.Exhausted level position := by
  rcases tree.first_or_exhausted level position with ⟨child, first⟩ | exhausted
  · rw [step_of_open open_, scan_of_first first] at fails
    exact absurd fails.symm Bool.false_ne_true
  · exact exhausted

theorem childEnd_of_lt (below : level < tree.height) :
    tree.childEnd level position * tree.size level =
      (tree.node (level + 1) position + 1) * tree.size (level + 1) := by
  rw [childEnd, if_neg below.ne, size]
  ring

theorem childEnd_height : tree.childEnd tree.height position * tree.size tree.height =
    tree.capacity := by
  rw [childEnd, if_pos rfl, capacity]

theorem node_lt_childEnd (below : level < tree.height) (position : ℕ) :
    tree.node level position < tree.childEnd level position := by
  rw [node_lt_iff, childEnd_of_lt below, ← node_lt_iff]
  exact lt_succ_self _

theorem le_step (below : level < tree.height) : position ≤ (tree.step level position).2 := by
  have here : tree.node level position * tree.size level + position % tree.size level = position :=
    node_mul_add_mod
  by_cases open_ : tree.Open level position
  · rw [step_of_open open_]
    rcases tree.first_or_exhausted level position with ⟨child, first⟩ | exhausted
    · rw [scan_of_first first]
      have := mul_le_mul_right (tree.size level) first.low
      omega
    · rw [scan_of_exhausted exhausted]
      have := mul_le_mul_right (tree.size level) (node_lt_childEnd below position).le
      omega
  · rw [step_of_not_open open_]

/-- The position after some steps of the climb. -/
def rise (tree : SearchTree) (position : ℕ) : ℕ → ℕ
  | 0 => position
  | level + 1 => (tree.step level (tree.rise position level)).2

/-- The steps of the climb below a level find nothing. -/
def FailsBelow (tree : SearchTree) (position level : ℕ) : Prop :=
  ∀ lower < level, (tree.step lower (tree.rise position lower)).1 = false

theorem failsBelow_zero (tree : SearchTree) (position : ℕ) : tree.FailsBelow position 0 :=
  fun lower order => absurd order (not_lt_zero lower)

theorem FailsBelow.of_succ (fails : tree.FailsBelow position (level + 1)) :
    tree.FailsBelow position level :=
  fun lower order => fails lower (lt_succ_of_lt order)

theorem FailsBelow.succ (fails : tree.FailsBelow position level)
    (here : (tree.step level (tree.rise position level)).1 = false) :
    tree.FailsBelow position (level + 1) := by
  intro lower order
  rcases Nat.lt_succ_iff_lt_or_eq.mp order with order | rfl
  · exact fails lower order
  · exact here

theorem climb_of_failsBelow {left : ℕ} (fails : tree.FailsBelow position level) :
    tree.climb (left + level) 0 position = tree.climb left level (tree.rise position level) := by
  induction level generalizing left with
  | zero => rfl
  | succ level ih =>
    have here := fails level (lt_succ_self level)
    rw [show left + (level + 1) = (left + 1) + level by omega,
      ih fails.of_succ, climb, here, if_neg (by decide), rise]

theorem search_of_found (below : level ≤ tree.height) (fails : tree.FailsBelow position level)
    (found : (tree.step level (tree.rise position level)).1 = true) :
    tree.search position =
      tree.descend level (tree.step level (tree.rise position level)).2 := by
  have climbs : tree.climb (tree.height + 1) 0 position =
      (true, level, (tree.step level (tree.rise position level)).2) := by
    rw [show tree.height + 1 = (tree.height - level + 1) + level by omega,
      climb_of_failsBelow fails, climb, if_pos found]
  rw [search, climbs, if_pos rfl]

theorem search_of_fails (fails : tree.FailsBelow position (tree.height + 1)) :
    (tree.search position).1 = false := by
  have climbs : tree.climb (tree.height + 1) 0 position =
      (false, tree.height + 1, tree.rise position (tree.height + 1)) := by
    rw [← zero_add (tree.height + 1), climb_of_failsBelow fails, climb, zero_add]
  rw [search, climbs, if_neg Bool.false_ne_true]

/-- The climb ends at the first level that finds something, or at the root. -/
theorem found_or_fails (tree : SearchTree) (position : ℕ) :
    (∃ level ≤ tree.height, tree.FailsBelow position level ∧
      (tree.step level (tree.rise position level)).1 = true) ∨
    tree.FailsBelow position (tree.height + 1) := by
  by_cases some_level : ∃ level, level ≤ tree.height ∧
      (tree.step level (tree.rise position level)).1 = true
  · obtain ⟨below, found⟩ := Nat.find_spec some_level
    refine Or.inl ⟨Nat.find some_level, below, fun lower before => ?_, found⟩
    have not_found := Nat.find_min some_level before
    have : lower ≤ tree.height := by omega
    simpa [this] using not_found
  · refine Or.inr fun lower below => ?_
    by_contra found
    exact some_level ⟨lower, by omega, by simpa using found⟩

theorem le_rise (below : level ≤ tree.height) : position ≤ tree.rise position level := by
  induction level with
  | zero => exact le_rfl
  | succ level ih => exact (ih (by omega)).trans (le_step below)

/-- A step of the climb that finds nothing stays, or goes to the end of the node. -/
theorem rise_succ (below : level < tree.height)
    (fails : tree.FailsBelow position (level + 1)) :
    (¬ tree.Open level (tree.rise position level) ∧
      tree.rise position (level + 1) = tree.rise position level) ∨
    (tree.Open level (tree.rise position level) ∧ tree.Exhausted level (tree.rise position level) ∧
      tree.rise position (level + 1) = (tree.node (level + 1) (tree.rise position level) + 1) *
        tree.size (level + 1) + tree.rise position level % tree.size level) := by
  by_cases open_ : tree.Open level (tree.rise position level)
  · have exhausted := exhausted_of_step (fails level (lt_succ_self level)) open_
    refine Or.inr ⟨open_, exhausted, ?_⟩
    rw [rise, step_of_open open_, scan_of_exhausted exhausted, childEnd_of_lt below]
  · refine Or.inl ⟨open_, ?_⟩
    rw [rise, step_of_not_open open_]

/-- A step keeps the position inside the nodes of its level and below. -/
theorem step_mod (order : other ≤ level) :
    (tree.step level position).2 % tree.size other = position % tree.size other := by
  have multiple : ∀ count, (count * tree.size level + position % tree.size level) %
      tree.size other = position % tree.size other := by
    intro count
    obtain ⟨factor, size_eq⟩ := tree.size_dvd order
    rw [size_eq, mul_left_comm, mul_add_mod, mod_mul_right_mod]
  by_cases open_ : tree.Open level position
  · rw [step_of_open open_]
    rcases tree.first_or_exhausted level position with ⟨child, first⟩ | exhausted
    · rw [scan_of_first first, multiple]
    · rw [scan_of_exhausted exhausted, multiple]
  · rw [step_of_not_open open_]

theorem rise_mod {lower : ℕ} (order : lower ≤ level) :
    tree.rise position level % tree.size lower = tree.rise position lower % tree.size lower := by
  induction level, order using le_induction with
  | base => rfl
  | succ level order ih => rw [rise, step_mod order, ih]

/-- From inside the tree the climb does not pass its end. -/
theorem node_rise_le_roots {start : ℕ} (inside : start < tree.capacity)
    (readable_inside : ∀ level, 0 < level → level < tree.height → ∀ child,
      tree.readable (level + 1) child = true → (child + 1) * tree.size (level + 1) ≤ tree.capacity)
    (below : level ≤ tree.height) (fails : tree.FailsBelow start level) :
    tree.node tree.height (tree.rise start level) ≤ tree.roots := by
  induction level with
  | zero => exact (node_lt_iff.mpr inside).le
  | succ level ih =>
    have before := ih (by omega) fails.of_succ
    rcases rise_succ below fails with ⟨-, same⟩ | ⟨open_, -, moved⟩
    · rwa [same]
    · have window : (tree.node (level + 1) (tree.rise start level) + 1) * tree.size (level + 1) ≤
          tree.capacity := by
        rcases Nat.eq_zero_or_pos level with rfl | positive
        · obtain ⟨count, capacity_eq⟩ : tree.size (0 + 1) ∣ tree.capacity :=
            (tree.size_dvd below).mul_left _
          rw [capacity_eq, mul_comm, ← node_lt_iff] at inside
          rw [capacity_eq, mul_comm (tree.size _), rise]
          exact mul_le_mul_right _ inside
        · exact readable_inside level positive below _ (open_.resolve_left (by omega))
      have rest := (tree.mod_size_lt level (tree.rise start level)).trans_le
        (le_of_dvd (tree.size_pos tree.height) (tree.size_dvd (by omega)))
      have capacity_eq : tree.roots * tree.size tree.height = tree.capacity := rfl
      rw [← Nat.lt_succ_iff, node_lt_iff, moved, Nat.succ_mul tree.roots]
      omega

/-- The place of a node among the children of its parent. -/
def digit (tree : SearchTree) (level leaf : ℕ) : ℕ := tree.node level leaf % tree.fan level

theorem digit_eq (tree : SearchTree) (level leaf : ℕ) :
    tree.digit level leaf = leaf % tree.size (level + 1) / tree.size level := by
  rw [size, mod_mul_right_div_self, digit, node]

theorem node_eq_digit : tree.node level leaf =
    tree.node (level + 1) leaf * tree.fan level + tree.digit level leaf := by
  rw [node_succ, digit, div_add_mod']

/-- At each level the node above the leaf is the first promising one. -/
structure Guides (tree : SearchTree) (level position leaf : ℕ) : Prop where
  /-- The leaf is below the node at the position. -/
  node_eq : tree.node level leaf = tree.node level position
  /-- All nodes above the leaf can be read. -/
  readable : ∀ lower < level, tree.readable (lower + 1) (tree.node (lower + 1) leaf) = true
  /-- Each is the first promising one. -/
  first : ∀ lower < level, tree.First lower (tree.node (lower + 1) leaf * tree.size (lower + 1) +
    position % tree.size (lower + 1)) (tree.node lower leaf)

section Passing

variable (passes : tree.stops = false)

include passes

theorem step_fst_eq_true : (tree.step level position).1 = true ↔
    tree.Open level position ∧ ∃ child, tree.First level position child := by
  by_cases open_ : tree.Open level position
  · rw [step_of_open open_]
    rcases tree.first_or_exhausted level position with ⟨child, first⟩ | exhausted
    · rw [scan_of_first first]
      exact ⟨fun _ => ⟨open_, child, first⟩, fun _ => rfl⟩
    · rw [scan_of_exhausted exhausted]
      refine ⟨fun found => absurd found Bool.false_ne_true, fun ⟨_, child, first⟩ => ?_⟩
      exact absurd first.promising (by simp [exhausted child first.low first.high])
  · rw [step_of_not_open open_, passes]
    exact ⟨fun found => absurd found Bool.false_ne_true, fun found => absurd found.1 open_⟩

/-- The way down finds a leaf exactly when it is guided there. -/
theorem descend_eq_iff (below : level ≤ tree.height) :
    tree.descend level position = (true, leaf) ↔ tree.Guides level position leaf := by
  induction level generalizing position with
  | zero =>
    simp only [descend, Prod.mk.injEq, true_and]
    refine ⟨fun same => ?_, fun guides => by simpa using guides.node_eq.symm⟩
    exact ⟨by rw [same], fun lower none => absurd none (not_lt_zero lower),
      fun lower none => absurd none (not_lt_zero lower)⟩
  | succ level ih =>
    have below' : level < tree.height := below
    have kept : ∀ lower ≤ level, (tree.step level position).2 % tree.size lower =
        position % tree.size lower := fun lower order => step_mod order
    rw [descend]
    by_cases found : (tree.step level position).1 = true
    · rw [if_pos found, ih below'.le]
      obtain ⟨open_, child, first⟩ := (step_fst_eq_true passes).mp found
      have readable := open_.resolve_left below'.ne
      have reached : tree.node level (tree.step level position).2 = child := by
        rw [step_of_open open_, scan_of_first first]
        exact node_mul _ (tree.mod_size_lt level position)
      have parent := first.div_fan below'
      constructor
      · intro guides
        have leaf_child : tree.node level leaf = child := guides.node_eq.trans reached
        have above : tree.node (level + 1) leaf = tree.node (level + 1) position := by
          rw [node_succ, leaf_child, parent]
        refine ⟨above, fun lower order => ?_, fun lower order => ?_⟩
        · rcases Nat.lt_succ_iff_lt_or_eq.mp order with order | rfl
          · exact guides.readable lower order
          · rwa [above]
        · rcases Nat.lt_succ_iff_lt_or_eq.mp order with order | rfl
          · have := guides.first lower order
            rwa [kept (lower + 1) order] at this
          · rwa [above, node_mul_add_mod, leaf_child]
      · intro guides
        have here := guides.first level (lt_succ_self level)
        rw [guides.node_eq, node_mul_add_mod] at here
        have leaf_child : tree.node level leaf = child := here.unique first
        refine ⟨leaf_child.trans reached.symm,
          fun lower order => guides.readable lower (lt_succ_of_lt order),
          fun lower order => ?_⟩
        rw [kept (lower + 1) order]
        exact guides.first lower (lt_succ_of_lt order)
    · rw [if_neg found]
      refine ⟨fun same => absurd (congrArg Prod.fst same) Bool.false_ne_true, fun guides => ?_⟩
      refine absurd ((step_fst_eq_true passes).mpr ⟨Or.inr ?_, tree.node level leaf, ?_⟩) found
      · rw [← guides.node_eq]
        exact guides.readable level (lt_succ_self level)
      · have here := guides.first level (lt_succ_self level)
        rwa [guides.node_eq, node_mul_add_mod] at here

theorem promising_of_search {start : ℕ} (found : tree.search start = (true, leaf)) :
    tree.promising 0 leaf = true := by
  rcases tree.found_or_fails start with ⟨level, below, fails, found_here⟩ | fails
  · obtain ⟨open_, child, first⟩ := (step_fst_eq_true passes).mp found_here
    rw [search_of_found below fails found_here, descend_eq_iff passes below, step_of_open open_,
      scan_of_first first] at found
    have node_eq : tree.node level leaf = child :=
      found.node_eq.trans (node_mul _ (tree.mod_size_lt level _))
    cases level with
    | zero => simpa [← node_eq] using first.promising
    | succ level => simpa using (found.first 0 level.succ_pos).promising
  · exact absurd ((search_of_fails fails).symm.trans (congrArg Prod.fst found)) Bool.false_ne_true

/-- Where nothing is promising the search fails or ends before its start. -/
theorem missed_of_none {start : ℕ}
    (none_promising : ∀ leaf, start ≤ leaf → tree.promising 0 leaf = false) :
    (tree.search start).1 = false ∨ (tree.search start).2 < start := by
  rcases reached : tree.search start with ⟨_ | _, leaf⟩
  · exact .inl rfl
  · refine .inr (not_le.mp fun behind => Bool.false_ne_true ?_)
    exact (none_promising leaf behind).symm.trans (promising_of_search passes reached)

end Passing

end SearchTree

end LevelSearch
