import Zfs.Avl.Run

/-!
# Searches and walks

`avl_find`, `avl_nearest` and `avl_walk` on the trees that sequences of calls leave.  A null pointer
is nothing, within the step bound.
-/

set_option linter.constructorNameAsVariable false

namespace Zfs.Avl

open BalancedTree List
open BalTree hiding node

/-- The climb of `avl_walk`: to a node that is reached from its right child. -/
def walkUp (heap : Heap) (right : Side) : ℕ → Ptr → Option (Option Ptr)
  | 0, _ => none
  | fuel + 1, node =>
    let wasChild := (heap node).xchild
    let node := (heap node).xparent
    if node = 0 then
      some none
    else if wasChild = right then
      some node
    else
      walkUp heap right fuel node

variable (state : State)

def avlWalk (oldnode : Ptr) (left : Side) : Option (Option Ptr) :=
  let node := data2node state.tree oldnode
  let child := (state.heap node).avlChild left
  let fuel := state.tree.avlNumnodes + 1
  if node = 0 then
    some none
  else if child ≠ 0 then
    (walkDown state.heap left.other fuel child).map fun node => node2data state.tree node
  else
    (walkUp state.heap left.other fuel node).map (·.map (node2data state.tree))

def avlNearest (index : AvlIndex) (direction : Side) : Option (Option Ptr) :=
  let node := index2node index
  if node = 0 then
    some none
  else if index2child index ≠ direction then
    some (node2data state.tree node)
  else
    avlWalk state (node2data state.tree node) direction

variable {state} {heap : Heap} {which side : Side} {context : Context Ptr} {fuel : ℕ}
  {tree near far : BalTree Ptr} {node : Ptr} {balance : ℤ}

theorem walkUp_spec (side : Side) {hole : Ptr} (rep : RepCtx heap 0 which context hole)
    (parent : (heap node).xparent = upParent 0 context)
    (index : (heap node).xchild = upWhich which context) (enough : context.length < fuel) :
    walkUp heap side.other fuel node = some (nearest side context) := by
  induction context generalizing node hole fuel with
  | nil =>
    obtain ⟨fuel, rfl⟩ := Nat.exists_eq_add_of_lt enough
    simp [walkUp, parent, upParent, nearest]
  | cons frame context ih =>
    obtain ⟨fuel, rfl⟩ : ∃ rest, fuel = rest + 1 := ⟨fuel - 1, by omega⟩
    obtain ⟨value_ne, -, parent', index', -, -, -, -, rep⟩ := rep
    rw [walkUp, parent, index, upParent_cons, upWhich_cons, if_neg value_ne, nearest]
    by_cases same : frame.side = side
    · have apart : frame.side ≠ side.other := same ▸ side.other_ne.symm
      rw [if_neg apart, if_pos same, ih rep parent' index' (by simpa using enough)]
    · have other : frame.side = side.other := by
        cases side_eq : frame.side <;> cases side <;> simp_all [Side.other]
      rw [if_pos other, if_neg same]

/-- Following one child link to its end reaches the element next to the edge. -/
theorem walkDown_nearest (nonempty : tree ≠ .nil) (rep : Rep heap tree node which)
    (enough : tree.height ≤ fuel) :
    (walkDown heap side.other fuel (rootPtr tree)).map some =
      some (nearest side (edge side.other tree context)) := by
  obtain ⟨walked, side_eq⟩ := walkDown_edge side.other tree context rep nonempty enough 0 side
  rw [walked]
  cases place : edge side.other tree context with
  | nil =>
    rw [place] at side_eq
    exact absurd side_eq.symm side.other_ne
  | cons frame rest =>
    rw [place, upWhich_cons] at side_eq
    simp [upParent, nearest, side_eq, Side.other_ne]

/-- `avl_walk` goes to the element next to the empty place beside the given one. -/
theorem avlWalk_spec (side : Side) {data : Ptr}
    (rep : Represents state which
      (plug context (join side near (data2node state.tree data) balance far)))
    (numnodes : state.tree.avlNumnodes =
      (plug context (join side near (data2node state.tree data) balance far)).toList.length) :
    avlWalk state data side = some ((nearest side (edge side.other near
      (⟨side, data2node state.tree data, balance, far⟩ :: context))).map
        (node2data state.tree)) := by
  have deep := length_context_le context (join side near (data2node state.tree data) balance far)
  have nodes := rep.rep
  rw [rep_plug, rep_join] at nodes
  obtain ⟨around, node_ne, -, parent, index, -, child, -, rep_near, -⟩ := nodes
  simp only [avlWalk, if_neg node_ne, child]
  by_cases near_nil : near = .nil
  · have climbed := walkUp_spec side around parent index
      (by omega : context.length < state.tree.avlNumnodes + 1)
    simp [near_nil, climbed, edge, nearest]
  · have near_ne : rootPtr near ≠ 0 := fun zero => near_nil ((rootPtr_eq_zero rep_near).mp zero)
    have short : near.height ≤ state.tree.avlNumnodes + 1 := by
      have below := (join side near (data2node state.tree data) balance far).height_le_length
      rw [height_join] at below
      rw [numnodes, toList_plug, length_append, length_append]
      omega
    rw [if_pos near_ne, ← Option.map_some, ← walkDown_nearest near_nil rep_near short,
      Option.map_map]
    rfl

theorem avlNearest_spec (rep : Represents state which (plug context .nil))
    (numnodes : state.tree.avlNumnodes = (plug context .nil).toList.length) (top : Side) :
    avlNearest state (mkindex (upParent 0 context) (upWhich top context)) side =
      some ((nearest side context).map (node2data state.tree)) := by
  cases context with
  | nil =>
    rw [avlNearest, upParent, index2node_mkindex aligned_zero]
    rfl
  | cons frame context =>
    have nodes := rep.rep
    rw [rep_plug] at nodes
    obtain ⟨⟨value_ne, aligned, -⟩, -⟩ := nodes
    rw [avlNearest, upParent_cons, upWhich_cons, index2node_mkindex aligned,
      index2child_mkindex aligned]
    simp only [if_neg value_ne, nearest]
    by_cases same : frame.side = side
    · subst same
      have walked := @avlWalk_spec state which context .nil frame.sibling frame.balance frame.side
        (node2data state.tree frame.value)
      simp only [data2node_node2data] at walked
      simpa [edge, nearest] using walked rep numnodes
    · rw [if_pos same, if_neg same, Option.map_some]

section Run

variable (compar : Ptr → Ptr → ℤ) (offset : Ptr) (heap : Heap) (ops : List Op)
  (order : IsOrder compar) (legal : LegalRun ⟨avlCreate compar offset, heap⟩ ∅ ops)

include order legal

/-- `avl_walk` goes through the elements in order, in both directions. -/
theorem avl_walk_in_order :
    ∃ state tree, run ⟨avlCreate compar offset, heap⟩ ops = some state ∧
    Holds state (ops.foldl elementsAfter ∅) tree ∧ state.tree.avlCompar = compar ∧
    ∀ data ∈ ops.foldl elementsAfter ∅,
      ∃ lower upper, tree.toList.map (node2data state.tree) = lower ++ data :: upper ∧
      avlWalk state data .left = some lower.getLast? ∧
      avlWalk state data .right = some upper.head? := by
  obtain ⟨state, tree, ran, holds, same⟩ :=
    run_holds ops (holds_avlCreate compar offset heap) order legal
  refine ⟨state, tree, ran, holds, same.compar, fun data inside => ?_⟩
  obtain ⟨which, rep⟩ := holds.represents
  obtain ⟨context, left, balance, right, rfl⟩ := exists_plug ((holds.mem_iff data).mp inside)
  obtain ⟨-, lower, -⟩ :=
    before_after_edge .left left right (data2node state.tree data) balance context
  obtain ⟨-, -, upper⟩ :=
    before_after_edge .right right left (data2node state.tree data) balance context
  have leftwards := avlWalk_spec .left rep holds.numnodes
  have rightwards := avlWalk_spec .right rep holds.numnodes
  rw [nearest_left, lower, ← getLast?_map] at leftwards
  rw [nearest_right, upper, ← head?_map] at rightwards
  refine ⟨_, _, ?_, leftwards, rightwards⟩
  simp [toList_plug, toList]

/-- `avl_find` finds an element with the key or the place between its neighbours, in logarithmically
many steps. -/
theorem avl_find_nearest :
    ∃ state tree, run ⟨avlCreate compar offset, heap⟩ ops = some state ∧
    Holds state (ops.foldl elementsAfter ∅) tree ∧ state.tree.avlCompar = compar ∧ ∀ value,
      (∀ fuel, 2 * Nat.log2 (state.tree.avlNumnodes + 1) + 1 < fuel →
        avlFindLoop state value fuel state.tree.avlRoot 0 .left = avlFind state value) ∧
      ((∃ data ∈ ops.foldl elementsAfter ∅, compar value data = 0 ∧
        avlFind state value = some (.found data)) ∨
      ∃ lower upper index, tree.toList.map (node2data state.tree) = lower ++ upper ∧
        (∀ data ∈ lower, 0 < compar value data) ∧ (∀ data ∈ upper, compar value data < 0) ∧
        avlFind state value = some (.missing index) ∧
        avlNearest state index .left = some lower.getLast? ∧
        avlNearest state index .right = some upper.head?) := by
  obtain ⟨state, tree, ran, holds, same⟩ :=
    run_holds ops (holds_avlCreate compar offset heap) order legal
  obtain rfl : state.tree.avlCompar = compar := same.compar
  obtain ⟨which, rep⟩ := holds.represents
  refine ⟨state, tree, ran, holds, rfl, fun value => ?_⟩
  have whole := plug_search (nodeDiff state.tree value) tree []
  rw [avlFind_spec value rep holds.numnodes]
  constructor
  · intro fuel enough
    have half_le := (Nat.le_log2 (by omega)).mpr holds.balanced.two_pow_height_le
    rw [holds.numnodes] at enough
    have outside : Represents state which (plug [] tree) := rep
    rw [rep.root]
    exact avlFindLoop_spec tree value outside (by omega)
  cases found : (search (nodeDiff state.tree value) tree []).2 with
  | nil =>
    have straddles := straddles_search (nodeDiff state.tree value) tree []
      (holds.falling order value) ⟨by simp [before], by simp [BalTree.after]⟩ found
    rw [found] at whole
    generalize (search (nodeDiff state.tree value) tree []).1 = place at straddles whole
    obtain rfl : plug place .nil = tree := whole
    refine .inr ⟨_, _, _, ?_, forall_mem_map.mpr straddles.1, forall_mem_map.mpr straddles.2, rfl,
      ?_, ?_⟩
    · simp [toList_plug, toList]
    · rw [avlNearest_spec rep holds.numnodes, nearest_left, getLast?_map]
    · rw [avlNearest_spec rep holds.numnodes, nearest_right, head?_map]
  | node left node balance right =>
    have equal := diff_search (nodeDiff state.tree value) tree [] (by rw [found]; rfl)
    have member : node ∈ tree.toList := by
      rw [show tree = plug [] tree from rfl, ← whole, found, mem_plug]
      simp [toList]
    exact .inl ⟨_, holds.node2data_mem member, equal, rfl⟩

end Run

/-- The elements of the tree after `legalRun_three`, in order. -/
theorem three_toList {state : State} {tree : BalTree Ptr}
    (compar : state.tree.avlCompar = compareAddress)
    (holds : Holds state ([Op.add 8, .add 24, .add 16].foldl elementsAfter ∅) tree) :
    tree.toList.map (node2data state.tree) = [8, 16, 24] :=
  holds.toList_eq (compar ▸ compareAddress_isOrder) (compar ▸ by decide) (by decide)

/-- Of three elements, the one in the middle is between the others. -/
theorem avl_walk_in_order_three :
    ∃ state, run emptyState [.add 8, .add 24, .add 16] = some state ∧
    avlWalk state 16 .left = some (some 8) ∧ avlWalk state 16 .right = some (some 24) := by
  obtain ⟨state, tree, ran, holds, compar, walks⟩ := avl_walk_in_order compareAddress 0 _
    [.add 8, .add 24, .add 16] compareAddress_isOrder (legalRun_three fun _ _ => trivial)
  obtain ⟨lower, upper, parts, leftwards, rightwards⟩ := walks 16 (by decide)
  rw [three_toList compar holds] at parts
  refine ⟨state, ran, ?_⟩
  rw [leftwards, rightwards]
  rcases lower with _ | ⟨_, _ | ⟨_, _ | ⟨_, lower⟩⟩⟩ <;> simp at parts
  obtain ⟨rfl, rfl⟩ := parts
  exact ⟨rfl, rfl⟩

/-- A missing value is between the second and the third element. -/
theorem avl_find_nearest_three :
    ∃ state index, run emptyState [.add 8, .add 24, .add 16] = some state ∧
    avlFind state 20 = some (.missing index) ∧ avlNearest state index .left = some (some 16) ∧
    avlNearest state index .right = some (some 24) := by
  obtain ⟨state, tree, ran, holds, compar, finds⟩ := avl_find_nearest compareAddress 0 _
    [.add 8, .add 24, .add 16] compareAddress_isOrder (legalRun_three fun _ _ => trivial)
  rcases (finds 20).2 with ⟨data, inside, equal, -⟩ |
    ⟨lower, upper, index, parts, below, above, missing, leftwards, rightwards⟩
  · simp only [foldl_cons, foldl_nil, elementsAfter, Finset.mem_insert, Finset.notMem_empty,
      or_false] at inside
    rcases inside with rfl | rfl | rfl <;> exact absurd equal (by decide)
  · rw [three_toList compar holds] at parts
    refine ⟨state, index, ran, missing, ?_⟩
    rw [leftwards, rightwards]
    rcases lower with _ | ⟨_, _ | ⟨_, _ | ⟨_, lower⟩⟩⟩ <;> simp at parts
    · subst parts
      exact absurd (above 8 (by simp)) (by decide)
    · obtain ⟨rfl, rfl⟩ := parts
      exact absurd (above 16 (by simp)) (by decide)
    · obtain ⟨rfl, rfl, rfl⟩ := parts
      exact ⟨rfl, rfl⟩
    · obtain ⟨rfl, rfl, rfl, -⟩ := parts
      exact absurd (below 24 (by simp)) (by decide)

end Zfs.Avl
