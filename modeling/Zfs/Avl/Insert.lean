import Zfs.Avl.Rotation

/-!
# `avl_find`, `avl_insert` and `avl_insert_here`

Each routine does in memory what the operation of `BalTree` does to the tree it represents, and the
step bound of its loop is never used up.
-/

namespace Zfs.Avl

open BalancedTree
open BalTree hiding node

variable {state : State} {which : Side} {context : Context Ptr} {node : Ptr}

theorem represents_setbalance {side : Side} {near far : BalTree Ptr} {oldBalance balance : ℤ}
    (rep : Represents state which (plug context (join side near node oldBalance far)))
    (small : SmallBalance balance) :
    Represents (state.modify node (·.setbalance balance)) which
      (plug context (join side near node balance far)) := by
  obtain ⟨root, rep, nodup⟩ := rep
  rw [rep_plug, rootPtr_join, rep_join] at rep
  obtain ⟨ctx, node_ne, node_aligned, up, index, -, child_near, child_far, rep_near, rep_far⟩ := rep
  have apart := nodup
  simp only [nodup_plug, nodup_join, mem_join] at apart
  refine ⟨?_, ?_, ?_⟩
  · rw [State.tree_modify, root, rootPtr_plug, rootPtr_plug, rootPtr_join, rootPtr_join]
  · rw [rep_plug, rootPtr_join]
    refine ⟨ctx.modify _ (by grind),
      .build rep_near rep_far node_ne node_aligned (by grind) (by grind) ⟨?_, ?_, ?_, child_near,
        child_far⟩⟩
    · rw [AvlNode.xparent_setbalance _ small, up]
    · rw [AvlNode.xchild_setbalance _ small, index]
    · rw [AvlNode.xbalance_setbalance _ small]
  · simpa only [nodup_plug, nodup_join, mem_join] using nodup

variable {tree : BalTree Ptr}

/-- What a loop of the code reads at the node above a hole. -/
theorem Represents.frame {frame : Frame Ptr}
    (rep : Represents state which (plug (frame :: context) tree)) :
    frame.value ≠ 0 ∧ (state.heap frame.value).xbalance = frame.balance ∧
    (state.heap frame.value).xparent = upParent 0 context ∧
    (state.heap frame.value).xchild = upWhich which context := by
  have nodes := rep.rep
  rw [rep_plug] at nodes
  obtain ⟨⟨node_ne, -, up, index, stored, -⟩, -⟩ := nodes
  exact ⟨node_ne, stored, up, index⟩

variable {fuel : ℕ}

theorem avlInsertLoop_spec (context : Context Ptr) {height : ℕ}
    (rep : Represents state which (plug context tree)) (tree_balanced : tree.Balanced)
    (fits : Fits context height) (grown : tree.height = height + 1)
    (enough : context.length < fuel) :
    ∃ state', avlInsertLoop fuel state (upParent 0 context) (upWhich which context) = some state' ∧
    Represents state' which (retraceInsert context tree) ∧
    SameHeader state.tree state'.tree := by
  induction context generalizing state tree height fuel with
  | nil =>
    obtain ⟨fuel, rfl⟩ : ∃ rest, fuel = rest + 1 := ⟨fuel - 1, by simp at enough; omega⟩
    exact ⟨state, by simp [avlInsertLoop, upParent], rep, .refl _⟩
  | cons frame context ih =>
    obtain ⟨fuel, rfl⟩ : ∃ rest, fuel = rest + 1 := ⟨fuel - 1, by simp at enough; omega⟩
    obtain ⟨node_ne, stored, up, index⟩ := rep.frame
    have weight_ne := frame.side.weight_ne
    have small : SmallBalance frame.side.weight := by
      rcases frame.side.weight_cases with weight | weight <;> constructor <;> omega
    have rep_frame := rep
    rw [avlInsertLoop, upParent_cons, upWhich_cons, if_neg node_ne, stored, retraceInsert]
    obtain ⟨balance, -⟩ | ⟨balance, tall, -⟩ | ⟨balance, balanced, taller⟩ :=
      fits.grow tree_balanced grown
    · simp only [balance, neg_add_cancel, if_true]
      exact ⟨_, rfl, represents_setbalance rep_frame smallBalance_zero, .refl _⟩
    · simp only [balance, ← two_mul, mul_eq_zero, OfNat.ofNat_ne_zero, weight_ne, or_self, if_false,
        ne_eq, not_false_eq_true, if_true]
      exact ⟨_, rfl, (avlRotation_spec rep_frame tree_balanced tall).1, sameHeader_rotation _ _ _⟩
    · simp only [balance, zero_add, weight_ne, if_false, ne_eq, not_true_eq_false]
      rw [State.heap_modify_same, AvlNode.xparent_setbalance _ small,
        AvlNode.xchild_setbalance _ small, up, index]
      exact ih (represents_setbalance rep_frame small) balanced fits.2.2.2.2 taller
        (by simp at enough; omega)

private theorem bit_one (i : ℕ) : (1#64).getLsbD i = decide (i = 0) := by
  by_cases bound : i < 64
  · interval_cases i <;> rfl
  · rw [BitVec.getLsbD_of_ge _ _ (by omega)]
    simp
    omega

private theorem bit_index (side : Side) (i : ℕ) :
    (childIndex side).getLsbD i = (decide (i = 0) && decide (side = .right)) := by
  cases side with
  | left => simp [childIndex]
  | right => simp [childIndex]

theorem index2node_mkindex (aligned : Aligned node) (side : Side) :
    index2node (mkindex node side) = node := by
  apply BitVec.eq_of_getLsbD_eq
  intro i bound
  rw [index2node, mkindex, BitVec.getLsbD_and, BitVec.getLsbD_or, BitVec.getLsbD_not, bit_one,
    bit_index]
  by_cases lowest : i = 0
  · subst lowest
    rw [aligned.bit (by omega)]
    simp
  · simp [lowest, bound]

theorem index2child_mkindex (aligned : Aligned node) (side : Side) :
    index2child (mkindex node side) = side := by
  have masked : mkindex node side &&& 1#64 = childIndex side := by
    apply BitVec.eq_of_getLsbD_eq
    intro i bound
    rw [mkindex, BitVec.getLsbD_and, BitVec.getLsbD_or, bit_one, bit_index]
    by_cases lowest : i = 0
    · subst lowest
      rw [aligned.bit (by omega)]
      simp
    · simp [lowest]
  rw [index2child, masked]
  cases side <;> decide

theorem length_context_le (context : Context Ptr) (tree : BalTree Ptr) :
    context.length ≤ (plug context tree).toList.length := by
  have nodes : context.length ≤ (ctxNodes context).length := by
    induction context with
    | nil => simp
    | cons frame context ih =>
      rw [(ctxNodes_cons_perm frame context).length_eq]
      simp
      omega
  rw [toList_plug]
  simp only [ctxNodes, List.length_append] at nodes ⊢
  omega

theorem avlInsert_spec {newData : Ptr} (rep : Represents state which (plug context .nil))
    (balanced : (plug context .nil).Balanced)
    (numnodes : state.tree.avlNumnodes = (plug context .nil).toList.length)
    (node_ne : data2node state.tree newData ≠ 0)
    (node_aligned : Aligned (data2node state.tree newData))
    (fresh : data2node state.tree newData ∉ (plug context .nil).toList) :
    ∃ state', avlInsert state newData (mkindex (upParent 0 context) (upWhich which context)) =
        some state' ∧
      Represents state' which (insertAt context (data2node state.tree newData)) ∧
      SameOrder state.tree state'.tree ∧
      state'.tree.avlNumnodes = state.tree.avlNumnodes + 1 := by
  obtain ⟨root, nodes, nodup⟩ := rep
  rw [rep_plug] at nodes
  obtain ⟨ctx, -⟩ := nodes
  have up_aligned := ctx.up_aligned
  have up_eq := index2node_mkindex up_aligned (upWhich which context)
  have which_eq := index2child_mkindex up_aligned (upWhich which context)
  have node_fresh : data2node state.tree newData ∉ ctxNodes context := by
    simpa [toList_plug, ctxNodes, toList, not_or] using fresh
  simp only [avlInsert, State.modify_modify, up_eq, which_eq]
  set s₀ : State :=
    { state with tree := { state.tree with avlNumnodes := state.tree.avlNumnodes + 1 } }
  generalize data2node state.tree newData = node at node_ne node_aligned node_fresh ⊢
  have ctx₀ : RepCtx s₀.heap 0 which context 0 := ctx
  have top : s₀.tree.avlRoot = topPtr context 0 := by
    rw [show s₀.tree.avlRoot = state.tree.avlRoot from rfl, root, rootPtr_plug, rootPtr_nil]
  have nodup' : (plug context (leaf node)).toList.Nodup := by
    rw [nodup_plug] at nodup ⊢
    simpa [leaf, toList, node_fresh] using nodup.1
  generalize linked_eq : (s₀.modify node _).link _ _ node = s₁
  have linked : Represents s₁ which (plug context (leaf node)) := by
    rw [← linked_eq]
    refine represents_link (ctx₀.modify _ node_fresh) top
      (.build trivial trivial node_ne node_aligned (by simp [toList]) (by simp [toList])
        ⟨?_, ?_, ?_, rfl, rfl⟩ : Rep _ (join .left .nil node 0 .nil) _ _) nodup' rfl
    · rw [AvlNode.xparent_setparent _ up_aligned]
    · rw [AvlNode.xchild_setparent _ up_aligned, AvlNode.xchild_setbalance _ smallBalance_zero,
        AvlNode.xchild_setchild]
    · rw [AvlNode.xbalance_setparent _ up_aligned, AvlNode.xbalance_setbalance _ smallBalance_zero]
  have same : SameHeader s₀.tree s₁.tree := linked_eq ▸ sameHeader_link (s₀.modify node _) _ _ _
  have enough : context.length < s₁.tree.avlNumnodes + 1 := by
    have short := length_context_le context .nil
    rw [same.numnodes, show s₀.tree.avlNumnodes = state.tree.avlNumnodes + 1 from rfl]
    omega
  obtain ⟨state', climbed, rep', same'⟩ := avlInsertLoop_spec context linked
    (leaf_balanced node) ((balanced_plug _ _).mp balanced).2 (height_leaf node) enough
  have header := same.trans same'
  exact ⟨state', climbed, rep', ⟨header.compar, header.offset⟩, header.numnodes⟩

/-- What `avl_find` returns for the place where a search ended. -/
def findResult (tree : AvlTree) (context : Context Ptr) : BalTree Ptr → FindResult
  | .nil => .missing (mkindex (upParent 0 context) (upWhich .left context))
  | .node _ node _ _ => .found (node2data tree node)

/-- The comparison of a value with the element of a node. -/
def nodeDiff (tree : AvlTree) (value node : Ptr) : ℤ := tree.avlCompar value (node2data tree node)

theorem avlFindLoop_spec (tree : BalTree Ptr) (value : Ptr)
    (rep : Represents state which (plug context tree)) (enough : tree.height < fuel) :
    avlFindLoop state value fuel (rootPtr tree) (upParent 0 context) (upWhich .left context) =
      some (findResult state.tree (search (nodeDiff state.tree value) tree context).1
        (search (nodeDiff state.tree value) tree context).2) := by
  induction tree generalizing context fuel with
  | nil =>
    obtain ⟨fuel, rfl⟩ : ∃ rest, fuel = rest + 1 := ⟨fuel - 1, by simp [height] at enough; omega⟩
    simp [avlFindLoop, search, findResult]
  | node left node balance right ihl ihr =>
    simp only [height] at enough
    obtain ⟨fuel, rfl⟩ : ∃ rest, fuel = rest + 1 := ⟨fuel - 1, by omega⟩
    have nodes := rep.rep
    rw [rep_plug] at nodes
    obtain ⟨-, node_ne, -, -, -, -, child_left, child_right, -⟩ := nodes
    have diff_eq : state.tree.avlCompar value (node2data state.tree node) =
      nodeDiff state.tree value node := rfl
    simp only [avlFindLoop, rootPtr, if_neg node_ne, search, diff_eq]
    split_ifs with equal less
    · rfl
    · rw [show balance2child (nodeDiff state.tree value node) = .left from if_pos less.le,
        child_left]
      have deeper : Represents state which (plug (⟨.left, node, balance, right⟩ :: context) left) :=
        rep
      exact ihl deeper (by omega)
    · rw [show balance2child (nodeDiff state.tree value node) = .right from if_neg (by omega),
        child_right]
      have deeper : Represents state which
          (plug (⟨.right, node, balance, left⟩ :: context) right) :=
        rep
      exact ihr deeper (by omega)

theorem avlFind_spec (value : Ptr) (rep : Represents state which tree)
    (numnodes : state.tree.avlNumnodes = tree.toList.length) :
    avlFind state value =
      some (findResult state.tree (search (nodeDiff state.tree value) tree []).1
        (search (nodeDiff state.tree value) tree []).2) := by
  have short := tree.height_le_length
  have whole : Represents state which (plug [] tree) := rep
  have found := avlFindLoop_spec tree value whole
    (by omega : tree.height < state.tree.avlNumnodes + 1)
  rwa [← rep.root] at found

/-- Following a child link to its end reaches the edge of the subtree. -/
theorem walkDown_edge (side : Side) (tree : BalTree Ptr) {heap : Heap} {parent : Ptr}
    (context : Context Ptr) (rep : Rep heap tree parent which) (nonempty : tree ≠ .nil)
    (enough : tree.height ≤ fuel) (top : Ptr) (topWhich : Side) :
    walkDown heap side fuel (rootPtr tree) = some (upParent top (edge side tree context)) ∧
    upWhich topWhich (edge side tree context) = side := by
  induction fuel generalizing tree parent which context with
  | zero => exact (nonempty (height_eq_zero.mp (by omega))).elim
  | succ fuel ih =>
    obtain ⟨near, node, balance, far, rfl⟩ := exists_join side nonempty
    rw [rep_join] at rep
    obtain ⟨-, -, -, -, -, child_near, -, rep_near, -⟩ := rep
    rw [height_join] at enough
    rw [edge_join, rootPtr_join, walkDown, child_near]
    by_cases near_nil : near = .nil
    · simp [near_nil, edge, upParent, upWhich]
    · have near_ne : rootPtr near ≠ 0 := fun zero => near_nil ((rootPtr_eq_zero rep_near).mp zero)
      rw [if_pos near_ne]
      exact ih near _ rep_near near_nil (by omega)

/-- `avl_insert_here` inserts into the empty place next to the given element. -/
theorem avlInsertHere_eq {direction : Side} {near far : BalTree Ptr} {here : Ptr} {balance : ℤ}
    (newData : Ptr)
    (rep : Represents state which
      (plug context (join direction near (data2node state.tree here) balance far)))
    (enough : near.height ≤ state.tree.avlNumnodes + 1) :
    let place := edge direction.other near
      (⟨direction, data2node state.tree here, balance, far⟩ :: context)
    avlInsertHere state newData here direction =
      avlInsert state newData (mkindex (upParent 0 place) (upWhich which place)) := by
  intro place
  have nodes := rep.rep
  rw [rep_plug, rep_join] at nodes
  obtain ⟨-, -, -, -, -, -, child_near, -, rep_near, -⟩ := nodes
  unfold avlInsertHere
  extract_lets node neighbour
  have neighbour_eq : neighbour = rootPtr near := child_near
  by_cases near_nil : near = .nil
  · simp [neighbour_eq, near_nil, place, edge, upParent, upWhich, node]
  · have near_ne : rootPtr near ≠ 0 := fun zero => near_nil ((rootPtr_eq_zero rep_near).mp zero)
    obtain ⟨walked, which_eq⟩ := walkDown_edge direction.other near
      (⟨direction, data2node state.tree here, balance, far⟩ :: context) rep_near near_nil enough
        0 which
    rw [neighbour_eq, if_pos near_ne, walked, which_eq]
    rfl

end Zfs.Avl
