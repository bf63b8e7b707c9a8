import Zfs.Avl.Representation

/-!
# `avl_rotation`

A rotation in memory rebuilds the subtree as `BalTree.rotate` does.  Both cases compute the final
content of the two or three nodes that change; everything else keeps its cell.
-/

namespace Zfs.Avl

open BalancedTree State
open BalTree hiding node

/-- The header fields that no call changes. -/
structure SameOrder (tree tree' : AvlTree) : Prop where
  compar : tree'.avlCompar = tree.avlCompar
  offset : tree'.avlOffset = tree.avlOffset

variable {first second third : AvlTree} {tree outer : BalTree Ptr} {parent : Ptr}

theorem SameOrder.trans (one : SameOrder first second) (two : SameOrder second third) :
    SameOrder first third :=
  ⟨two.compar.trans one.compar, two.offset.trans one.offset⟩

/-- The fields that only `avl_insert` and `avl_remove` may change. -/
structure SameHeader (tree tree' : AvlTree) : Prop extends SameOrder tree tree' where
  numnodes : tree'.avlNumnodes = tree.avlNumnodes

theorem SameHeader.refl (tree : AvlTree) : SameHeader tree tree := ⟨⟨rfl, rfl⟩, rfl⟩

theorem SameHeader.trans (one : SameHeader first second) (two : SameHeader second third) :
    SameHeader first third :=
  ⟨one.toSameOrder.trans two.toSameOrder, two.numnodes.trans one.numnodes⟩

theorem sameHeader_link (state : State) (parent : Ptr) (which : Side) (node : Ptr) :
    SameHeader state.tree (state.link parent which node).tree := by
  unfold link
  split_ifs <;> exact ⟨⟨rfl, rfl⟩, rfl⟩

theorem State.heap_attach_rootPtr (state : State) {address : Ptr} (parent : Ptr) (which : Side)
    (outside : address ∉ tree.toList) :
    (state.attach (rootPtr tree) parent which).heap address = state.heap address := by
  cases tree with
  | nil => simp [attach]
  | node left root balance right =>
    refine heap_attach_of_ne _ _ _ ?_
    rintro rfl
    simp [toList] at outside

namespace State

variable {node root : Ptr}

theorem ne_rootPtr (node_ne : node ≠ 0) (outside : node ∉ tree.toList) : node ≠ rootPtr tree := by
  cases tree with
  | nil => exact node_ne
  | node _ _ _ _ =>
    rintro rfl
    simp [toList] at outside

/-! Writes to different nodes commute, and writes to one node are one write. -/

theorem modify_comm (different : node ≠ root) (state : State) (change change' : AvlNode → AvlNode) :
    (state.modify node change).modify root change' =
      (state.modify root change').modify node change := by
  simp only [modify, Function.update_of_ne different, Function.update_of_ne different.symm,
    Function.update_comm different]

theorem modify_modify (state : State) (node : Ptr) (change change' : AvlNode → AvlNode) :
    (state.modify node change).modify node change' =
      state.modify node fun cell => change' (change cell) := by
  simp [modify]

theorem attach_modify (different : node ≠ root) (state : State) (change : AvlNode → AvlNode)
    (parent : Ptr) (which : Side) :
    (state.modify node change).attach root parent which =
      (state.attach root parent which).modify node change := by
  unfold attach
  split_ifs
  · rw [modify_comm different, modify_comm different]
  · rfl

theorem link_modify (different : parent ≠ 0 → node ≠ parent) (state : State)
    (change : AvlNode → AvlNode) (which : Side) (child : Ptr) :
    (state.link parent which child).modify node change =
      (state.modify node change).link parent which child := by
  unfold link
  split_ifs with nonzero
  · exact modify_comm (different nonzero).symm _ _ _
  · rfl

theorem modify_setparent_putchild (state : State) (node parent newParent child : Ptr)
    (side : Side) :
    (state.modify node (·.setparent newParent)).modify parent (·.putchild side child) =
      (state.modify parent (·.putchild side child)).modify node (·.setparent newParent) := by
  by_cases same : node = parent
  · subst same
    rw [modify_modify, modify_modify]
    rfl
  · exact modify_comm same _ _ _

end State

variable {state : State} {which side : Side} {context : Context Ptr} {far : BalTree Ptr}
   {node child : Ptr} {oldBalance : ℤ}

/-- Case 1: the near child moves up. -/
theorem represents_rotationSingle {inner : BalTree Ptr} {childBalance balance : ℤ}
    (rep : Represents state which
      (plug context (join side (join side outer child childBalance inner) node oldBalance far)))
    (small : SmallBalance balance) :
    Represents (avlRotationSingle state node child (upParent 0 context) side
        (upWhich which context) balance).1 which
      (plug context (join side outer child balance (join side inner node (-balance) far))) := by
  obtain ⟨root, rep, distinct⟩ := rep
  simp only [rep_plug, rootPtr_join, rep_join] at rep
  obtain ⟨ctx, node_ne, node_aligned, -, -, -, -, node_far, ⟨child_ne, child_aligned, -, -, -,
    child_near, child_far, rep_outer, rep_inner⟩, rep_far⟩ := rep
  have nodup := distinct
  simp only [nodup_plug, nodup_join, mem_join] at nodup
  have up_aligned := ctx.up_aligned
  have small' : SmallBalance (-balance) := ⟨by linarith [small.2], by linarith [small.1]⟩
  have child_node : child ≠ node := by grind
  have kept : ∀ address, address ∉ inner.toList →
      (state.attach (rootPtr inner) node side).heap address = state.heap address :=
    fun address outside => heap_attach_rootPtr _ _ _ outside
  have outer' := rep_outer.congr fun address member => kept address (by grind)
  have far' := rep_far.congr fun address member => kept address (by grind)
  have ctx' := ctx.congr fun address member => kept address (by grind)
  have inner' := rep_inner.attach (by grind) node_aligned side
  simp only [avlRotationSingle, child_far, modify_comm child_node, modify_modify,
    attach_modify (ne_rootPtr node_ne (by grind : node ∉ inner.toList))]
  refine represents_link ((ctx'.modify _ (by grind)).modify _ (by grind)) ?_
    (.build (outer'.modify _ (by grind)) (.build inner' far' node_ne node_aligned (by grind)
      (by grind) ?_) child_ne child_aligned (by grind) ?_ ?_) ?_ (rootPtr_join _ _ _ _ _)
  · simp only [tree_modify, tree_attach, root, rootPtr_plug, rootPtr_join]
  · rw [kept node (by grind)]
    simp [AvlNode.xparent_setparent _ child_aligned, AvlNode.xchild_setparent _ child_aligned,
      AvlNode.xbalance_setparent _ child_aligned, AvlNode.xbalance_setbalance _ small',
      side.other_ne, node_far]
  · rw [mem_join]
    grind
  · rw [heap_modify_of_ne _ _ child_node, kept child (by grind)]
    generalize upParent 0 context = parent at up_aligned ⊢
    simp [AvlNode.xparent_setparent _ up_aligned, AvlNode.xchild_setparent _ up_aligned,
      AvlNode.xbalance_setparent _ up_aligned, AvlNode.xbalance_setbalance _ small,
      side.other_ne.symm, child_near]
  · convert distinct using 1
    cases side <;> simp [toList_plug, arrange]

/-- Case 2: the inner grandchild moves up. -/
theorem represents_rotationDouble {gnear gfar : BalTree Ptr} {gchild : Ptr}
    {childBalance gbalance : ℤ} (rep : Represents state which
      (plug context (join side (join side outer child childBalance
        (join side gnear gchild gbalance gfar)) node oldBalance far))) :
    Represents (avlRotationDouble state node child (upParent 0 context) side
        (upWhich which context) side.weight).1 which
      (plug context (join side
        (join side outer child (if gbalance = side.other.weight then side.weight else 0) gnear)
        gchild 0
        (join side gfar node (if gbalance = side.weight then side.other.weight else 0) far))) := by
  obtain ⟨root, rep, distinct⟩ := rep
  simp only [rep_plug, rootPtr_join, rep_join] at rep
  obtain ⟨ctx, node_ne, node_aligned, -, -, -, -, node_far, ⟨child_ne, child_aligned, -, -, -,
    child_near, child_far, rep_outer, gchild_ne, gchild_aligned, -, -, gchild_balance, gchild_near,
    gchild_far, rep_gnear, rep_gfar⟩, rep_far⟩ := rep
  have nodup := distinct
  simp only [nodup_plug, nodup_join, mem_join] at nodup
  have up_aligned := ctx.up_aligned
  have child_node : child ≠ node := by grind
  have gchild_node : gchild ≠ node := by grind
  have gchild_child : gchild ≠ child := by grind
  have weight_cases := side.weight_cases
  have small_child : SmallBalance (if gbalance = -side.weight then side.weight else 0) := by
    unfold SmallBalance
    split_ifs <;> omega
  have small_node : SmallBalance (if gbalance = side.weight then -side.weight else 0) := by
    unfold SmallBalance
    split_ifs <;> omega
  have kept : ∀ address, address ∉ gfar.toList → address ∉ gnear.toList →
      ((state.attach (rootPtr gfar) node side).attach (rootPtr gnear) child side.other).heap
        address = state.heap address := by
    intro address not_gfar not_gnear
    rw [heap_attach_rootPtr _ _ _ not_gnear, heap_attach_rootPtr _ _ _ not_gfar]
  have outer' := rep_outer.congr fun address member => kept address (by grind) (by grind)
  have far' := rep_far.congr fun address member => kept address (by grind) (by grind)
  have ctx' := ctx.congr fun address member => kept address (by grind) (by grind)
  have gfar' := (rep_gfar.attach (by grind) node_aligned side).congr fun address member =>
    heap_attach_rootPtr _ child side.other (by grind : address ∉ gnear.toList)
  have gnear' := (rep_gnear.congr fun address member =>
    heap_attach_rootPtr _ node side (by grind : address ∉ gfar.toList)).attach (by grind)
      child_aligned side.other
  simp only [avlRotationDouble, child_far, gchild_near, gchild_far, modify_comm gchild_child,
    modify_comm gchild_node, modify_comm child_node, modify_modify,
    attach_modify (ne_rootPtr node_ne (by grind : node ∉ gfar.toList)),
    attach_modify (ne_rootPtr node_ne (by grind : node ∉ gnear.toList)),
    attach_modify (ne_rootPtr child_ne (by grind : child ∉ gnear.toList)),
    heap_modify_of_ne _ _ gchild_child, heap_modify_of_ne _ _ gchild_node,
    kept gchild (by grind) (by grind), gchild_balance, Side.weight_other]
  refine represents_link (((ctx'.modify _ (by grind)).modify _ (by grind)).modify _ (by grind)) ?_
    (.build (.build (outer'.modify _ (by grind)) (gnear'.modify _ (by grind)) child_ne child_aligned
        (by grind) (by grind) ?_)
      (.modify _ (.build gfar' far' node_ne node_aligned (by grind) (by grind) ?_) ?_) gchild_ne
        gchild_aligned ?_ ?_ ?_) ?_ (rootPtr_join _ _ _ _ _)
  · simp only [tree_modify, tree_attach, root, rootPtr_plug, rootPtr_join]
  · rw [heap_modify_of_ne _ _ child_node, kept child (by grind) (by grind)]
    simp [AvlNode.xparent_setparent _ gchild_aligned, AvlNode.xbalance_setparent _ gchild_aligned,
      AvlNode.xbalance_setbalance _ small_child, side.other_ne.symm, child_near]
  · rw [kept node (by grind) (by grind)]
    simp [AvlNode.xparent_setparent _ gchild_aligned, AvlNode.xbalance_setparent _ gchild_aligned,
      AvlNode.xbalance_setbalance _ small_node, side.other_ne, node_far]
  · rw [mem_join]
    grind
  · rw [mem_join]
    grind
  · rw [mem_join]
    grind
  · generalize upParent 0 context = parent at up_aligned ⊢
    simp [AvlNode.xparent_setparent _ up_aligned, AvlNode.xbalance_setparent _ up_aligned,
      AvlNode.xbalance_setbalance _ smallBalance_zero, side.other_ne.symm]
  · convert distinct using 1
    cases side <;> simp [toList_plug, arrange]

theorem sameHeader_rotation (state : State) (node : Ptr) (balance : ℤ) :
    SameHeader state.tree (avlRotation state node balance).1.tree := by
  have single : ∀ child parent side whichChild childBal, SameHeader state.tree
      (avlRotationSingle state node child parent side whichChild childBal).1.tree := by
    intro child parent side whichChild childBal
    refine SameHeader.trans ?_ (sameHeader_link _ _ _ _)
    simp only [tree_modify, tree_attach]
    exact .refl _
  have double : ∀ child parent side whichChild leftHeavy, SameHeader state.tree
      (avlRotationDouble state node child parent side whichChild leftHeavy).1.tree := by
    intro child parent side whichChild leftHeavy
    refine SameHeader.trans ?_ (sameHeader_link _ _ _ _)
    simp only [tree_modify, tree_attach]
    exact .refl _
  unfold avlRotation
  extract_lets side leftHeavy rightHeavy parent child whichChild childBal
  split_ifs
  · exact single _ _ _ _ _
  · exact double _ _ _ _ _

theorem avlRotation_eq {whichChild : Side} (node_near : (state.heap node).avlChild side = child)
    (up : (state.heap node).xparent = parent) (index : (state.heap node).xchild = whichChild) :
    avlRotation state node (2 * side.weight) =
      if (state.heap child).xbalance ≠ side.other.weight then
        avlRotationSingle state node child parent side whichChild
          ((state.heap child).xbalance + side.other.weight)
      else
        avlRotationDouble state node child parent side whichChild side.weight := by
  have heavy : (2 * side.weight) >>> (1 : ℕ) = side.weight := by cases side <;> decide
  have chosen : (if 2 * side.weight < 0 then Side.left else .right) = side := by
    cases side <;> decide
  simp only [avlRotation, heavy, chosen, node_near, up, index, Side.weight_other]

/-- `avl_rotation` does in memory what `BalTree.rotate` does to the tree. -/
theorem avlRotation_spec {near : BalTree Ptr}
    (rep : Represents state which (plug context (join side near node oldBalance far)))
    (near_balanced : near.Balanced) (tall : near.height = far.height + 2) :
    Represents (avlRotation state node (2 * side.weight)).1 which
        (plug context (rotate side near node far).1) ∧
      (avlRotation state node (2 * side.weight)).2 = (rotate side near node far).2 := by
  obtain ⟨outer, child, childBalance, inner, rfl⟩ :=
    exists_join side (ne_nil_of_height_pos (by omega) : near ≠ .nil)
  obtain ⟨-, -, childBalance_eq, lower, upper⟩ := (balanced_join _ _ _ _ _).mp near_balanced
  have nodes := rep.rep
  rw [rep_plug, rootPtr_join, rep_join, rootPtr_join, rep_join] at nodes
  obtain ⟨-, -, -, up, index, -, node_near, -, ⟨-, -, -, -, stored, -⟩, -⟩ := nodes
  rw [avlRotation_eq node_near up index, stored]
  have weight_cases := side.weight_cases
  by_cases double : childBalance = side.other.weight
  · have inner_ne : inner ≠ .nil := by
      refine ne_nil_of_height_pos ?_
      rcases weight_cases with weight | weight <;>
        simp only [double, Side.weight_other, weight] at childBalance_eq <;> omega
    obtain ⟨gnear, gchild, gbalance, gfar, rfl⟩ := exists_join side inner_ne
    rw [double, if_neg (by simp), rotate_double]
    exact ⟨represents_rotationDouble (double ▸ rep), rfl⟩
  · rw [if_pos double, rotate_single _ _ _ _ _ double]
    refine ⟨represents_rotationSingle rep ?_, rfl⟩
    rw [Side.weight_other] at double ⊢
    constructor <;> omega

end Zfs.Avl
