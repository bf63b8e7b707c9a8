import Mathlib

/-!
# Trees of parent pointers

A function gives each node its parent, or nothing at a root.  The path of a node lists the node and
its ancestors up to a root.  A node can be moved below any node whose path avoids it.
-/

namespace ParentTree

open Function List

variable {Node : Type*}

/-- The way from a node up to a root. -/
inductive Path (parent : Node → Option Node) : Node → List Node → Prop where
  | root {node : Node} (top : parent node = none) : Path parent node [node]
  | step {node up : Node} {above : List Node} (rises : parent node = some up)
    (rest : Path parent up above) : Path parent node (node :: above)

/-- The nodes met on the way up, as far as a number of steps leads. -/
def climb (parent : Node → Option Node) : ℕ → Node → List Node
  | 0, _ => []
  | fuel + 1, node =>
    match parent node with
    | none => [node]
    | some up => node :: climb parent fuel up

namespace Path

variable {parent : Node → Option Node} {node other target moved : Node}
  {path path' above : List Node}

section

variable (found : Path parent node path)

include found

theorem eq_cons : ∃ above, path = node :: above := by
  cases found with
  | root => exact ⟨[], rfl⟩
  | step => exact ⟨_, rfl⟩

theorem mem_self : node ∈ path := by
  obtain ⟨above, rfl⟩ := found.eq_cons
  exact mem_cons_self

theorem unique (found' : Path parent node path') :
    path = path' := by
  induction found generalizing path' with
  | root top =>
    cases found' with
    | root => rfl
    | step rises => exact nomatch top.symm.trans rises
  | step rises _ ih =>
    cases found' with
    | root top => exact nomatch rises.symm.trans top
    | step rises' rest' =>
      obtain rfl := Option.mem_unique rises rises'
      rw [ih rest']

theorem climb_eq {fuel : ℕ} (enough : path.length ≤ fuel) :
    climb parent fuel node = path := by
  induction found generalizing fuel with
  | root top =>
    obtain ⟨fuel, rfl⟩ := Nat.exists_eq_add_one_of_ne_zero (Nat.ne_of_gt enough)
    simp only [climb, top]
  | step rises _ ih =>
    obtain ⟨fuel, rfl⟩ := Nat.exists_eq_add_one_of_ne_zero (Nat.ne_of_gt (Nat.zero_lt_of_lt enough))
    simp only [climb, rises]
    rw [ih (Nat.le_of_succ_le_succ enough)]

end

theorem of_cons {first : Node} (found : Path parent node (first :: above)) (more : above ≠ []) :
    ∃ up, parent first = some up ∧ Path parent up above ∧ node = first := by
  cases found with
  | root => exact absurd rfl more
  | step rises rest => exact ⟨_, rises, rest, rfl⟩

/-- Every node on a path has the rest as its path. -/
theorem drop_before {before : List Node} (found : Path parent node (before ++ other :: above)) :
    Path parent other (other :: above) := by
  induction before generalizing node with
  | nil =>
    obtain ⟨_, same⟩ := found.eq_cons
    cases same
    exact found
  | cons first before ih =>
    obtain ⟨_, _, rest, _⟩ := found.of_cons (by simp)
    exact ih rest

section

variable (found : Path parent node path)

include found

theorem of_mem (member : other ∈ path) :
    ∃ before above, path = before ++ other :: above ∧ Path parent other (other :: above) := by
  obtain ⟨before, above, rfl⟩ := append_of_mem member
  exact ⟨before, above, rfl, found.drop_before⟩

theorem nodup : path.Nodup := by
  induction found with
  | root => exact nodup_singleton _
  | @step node up above rises rest ih =>
    refine nodup_cons.mpr ⟨fun member => ?_, ih⟩
    obtain ⟨before, above', rfl, again⟩ := rest.of_mem member
    have same := congrArg length (again.unique (.step rises rest))
    simp only [length_cons, length_append] at same
    omega

/-- Below a node further up the path is another one. -/
theorem exists_below (member : other ∈ path)
    (apart : other ≠ node) : ∃ low ∈ path, parent low = some other := by
  induction found with
  | root => exact absurd (mem_singleton.mp member) apart
  | @step node up above rises rest ih =>
    rcases mem_cons.mp member with same | further
    · exact absurd same apart
    · by_cases next : other = up
      · exact ⟨node, mem_cons_self, next ▸ rises⟩
      · obtain ⟨low, inside, below⟩ := ih further next
        exact ⟨low, mem_cons_of_mem _ inside, below⟩

theorem exists_root : ∃ root ∈ path, parent root = none := by
  induction found with
  | root top => exact ⟨_, mem_cons_self, top⟩
  | step _ _ ih =>
    obtain ⟨root, member, top⟩ := ih
    exact ⟨root, mem_cons_of_mem _ member, top⟩

end

variable [DecidableEq Node]

/-- A path that avoids a node stays when that node moves. -/
theorem update_of_not_mem (found : Path parent node path) (avoids : moved ∉ path) :
    Path (update parent moved (some target)) node path := by
  induction found with
  | root top =>
    rw [mem_singleton] at avoids
    exact .root ((update_of_ne (Ne.symm avoids) _ _).trans top)
  | step rises _ ih =>
    rw [mem_cons, not_or] at avoids
    exact .step ((update_of_ne (Ne.symm avoids.1) _ _).trans rises) (ih avoids.2)

/-- A path through a node that moves goes on from its new place. -/
theorem update_of_mem {before : List Node} (found : Path parent node (before ++ moved :: above))
    (goal : Path parent target path) (avoids : moved ∉ path) :
    Path (update parent moved (some target)) node (before ++ moved :: path) := by
  have moved_path : Path (update parent moved (some target)) moved (moved :: path) :=
    .step (update_self _ _ _) (goal.update_of_not_mem avoids)
  have once := found.nodup
  induction before generalizing node with
  | nil =>
    obtain ⟨_, same⟩ := found.eq_cons
    rw [(cons.inj same).1] at moved_path ⊢
    exact moved_path
  | cons first before ih =>
    obtain ⟨outside, rest_once⟩ := nodup_cons.mp once
    obtain ⟨_, rises, rest, rfl⟩ := found.of_cons (by simp)
    refine .step ((update_of_ne ?_ _ _).trans rises) (ih rest rest_once)
    rintro rfl
    exact outside (mem_append_right _ mem_cons_self)

/-- A node moves below one whose path avoids it. -/
theorem exists_update (found : Path parent node path) (goal : Path parent target above)
    (avoids : moved ∉ above) :
    ∃ path', Path (update parent moved (some target)) node path' ∧
    ∀ up ∈ path', up ∈ path ∨ up ∈ above := by
  by_cases passes : moved ∈ path
  · obtain ⟨before, beyond, rfl⟩ := append_of_mem passes
    refine ⟨_, found.update_of_mem goal avoids, fun up inside => ?_⟩
    rcases mem_append.mp inside with low_part | high_part
    · exact .inl (mem_append_left _ low_part)
    · rcases mem_cons.mp high_part with rfl | in_goal
      · exact .inl passes
      · exact .inr in_goal
  · exact ⟨path, found.update_of_not_mem passes, fun up inside => .inl inside⟩

/-- Two paths with a common node split below the first one of them. -/
theorem meet (found : Path parent node path) (found' : Path parent other path')
    (common : path.find? (· ∈ path') = some target) :
    ∃ left right above, path = left ++ target :: above ∧ path' = right ++ target :: above ∧
    (∀ low ∈ left, low ∉ path') ∧ ∀ low ∈ right, low ∉ path := by
  obtain ⟨shared, left, above, rfl, apart⟩ := find?_eq_some_iff_append.mp common
  obtain ⟨right, above', rfl, goes⟩ := found'.of_mem (of_decide_eq_true shared)
  obtain rfl := (cons.inj (found.drop_before.unique goes)).2
  refine ⟨left, right, above, rfl, rfl, fun low member => by simpa using apart low member, ?_⟩
  intro low member back
  rcases mem_append.mp back with in_left | in_above
  · have outside := apart low in_left
    simp [member] at outside
  · exact disjoint_of_nodup_append found'.nodup member in_above

end Path

/-- A part of the way up: the nodes passed and the one reached. -/
inductive Part (parent : Node → Option Node) (node : Node) : List Node → Node → Prop where
  | nil : Part parent node [] node
  | cons {passed : List Node} {low up : Node} (rest : Part parent node passed low)
    (rises : parent low = some up) : Part parent node (low :: passed) up

namespace Part

variable {parent parent' : Node → Option Node} {node top moved : Node}
  {passed above path : List Node}

variable (part : Part parent node passed top)

include part

/-- A part depends on the parents of the nodes that it passes. -/
theorem congr (same : ∀ low ∈ passed, parent' low = parent low) : Part parent' node passed top := by
  induction part with
  | nil => exact .nil
  | cons _ rises ih =>
    exact .cons (ih fun low member => same low (mem_cons_of_mem _ member))
      ((same _ mem_cons_self).trans rises)

/-- A part goes on with the path of the node that it reaches. -/
theorem path_append (found : Path parent top above) :
    Path parent node (passed.reverse ++ above) := by
  induction part generalizing above with
  | nil => exact found
  | cons _ rises ih =>
    rw [reverse_cons, append_assoc]
    exact ih (.step rises found)

theorem not_mem (found : Path parent node path)
    (goes : Path parent top above) (outside : moved ∉ passed) (avoids : moved ∉ above) :
    moved ∉ path := by
  rw [found.unique (part.path_append goes), mem_append, mem_reverse, not_or]
  exact ⟨outside, avoids⟩

end Part

/-- Finitely many nodes, each with a path inside them. -/
structure Forest (Node : Type*) where
  nodes : Finset Node
  parent : Node → Option Node
  /-- Every node has a path to the top. -/
  rooted : ∀ node ∈ nodes, ∃ path, Path parent node path ∧ ∀ up ∈ path, up ∈ nodes

namespace Forest

variable [DecidableEq Node] (forest : Forest Node)

/-- A node and its ancestors. -/
def chain (node : Node) : List Node := climb forest.parent forest.nodes.card node

variable {forest} {node moved target : Node}

theorem path_chain (member : node ∈ forest.nodes) :
    Path forest.parent node (forest.chain node) ∧ ∀ up ∈ forest.chain node, up ∈ forest.nodes := by
  obtain ⟨path, found, within⟩ := forest.rooted node member
  have short : path.length ≤ forest.nodes.card := by
    rw [← toFinset_card_of_nodup found.nodup]
    exact Finset.card_le_card fun up inside => within up (mem_toFinset.mp inside)
  rw [chain, found.climb_eq short]
  exact ⟨found, within⟩

/-- A move below a node that is not a descendant keeps the forest. -/
theorem rooted_move (member : target ∈ forest.nodes) (legal : moved ∉ forest.chain target) :
    ∀ node ∈ forest.nodes, ∃ path,
      Path (update forest.parent moved (some target)) node path ∧
      ∀ up ∈ path, up ∈ forest.nodes := by
  intro node node_member
  obtain ⟨path, found, within⟩ := forest.rooted node node_member
  obtain ⟨goal, goal_within⟩ := forest.path_chain member
  obtain ⟨path', goes, inside⟩ := found.exists_update goal legal
  exact ⟨path', goes, fun up met => (inside up met).elim (within up) (goal_within up)⟩

end Forest

section Sums

variable [DecidableEq Node] {Value : Type*}

/-- The sum of a value over the children of a node. -/
def childSum (nodes : Finset Node) (parent : Node → Option Node) (value : Node → ℤ)
    (node : Node) : ℤ :=
  ∑ child ∈ nodes with parent child = some node, value child

variable {nodes : Finset Node} {parent : Node → Option Node} {moved : Node}

/-- A change at one node reaches the sum at its parent. -/
theorem childSum_update (member : moved ∈ nodes) (contents : Node → Value) (new : Value)
    (value : Value → ℤ) (node : Node) :
    childSum nodes parent (fun child => value (update contents moved new child)) node =
      childSum nodes parent (fun child => value (contents child)) node +
        if parent moved = some node then value new - value (contents moved) else 0 := by
  rw [childSum, childSum, Finset.sum_filter, Finset.sum_filter, ← sub_eq_iff_eq_add',
    ← Finset.sum_sub_distrib, Finset.sum_eq_single_of_mem moved member]
  · split <;> simp
  · intro child _ other
    rw [update_of_ne other, sub_self]

/-- A node that moves takes its value from one sum to the other. -/
theorem childSum_move (member : moved ∈ nodes) {old target : Node} (from_ : parent moved = some old)
    (value : Node → ℤ) (node : Node) :
    childSum nodes (update parent moved (some target)) value node =
      childSum nodes parent value node + (if target = node then value moved else 0) -
        if old = node then value moved else 0 := by
  rw [add_sub_assoc, childSum, childSum, Finset.sum_filter, Finset.sum_filter,
    ← sub_eq_iff_eq_add', ← Finset.sum_sub_distrib, Finset.sum_eq_single_of_mem moved member]
  · simp only [update_self, from_, Option.some.injEq]
  · intro child _ other
    rw [update_of_ne other, sub_self]

end Sums

end ParentTree
