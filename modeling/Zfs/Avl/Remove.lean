import Zfs.Avl.Insert

/-!
# `avl_remove`

A node with two children first changes places with its neighbour; what is then deleted is a
placeholder with at most one child.  Cutting that out and climbing back is `BalTree.removeAt`.
-/

namespace Zfs.Avl

open BalancedTree State
open BalTree hiding node

theorem avlRemoveLoop_spec (context : Context Ptr) {state : State} {which : Side}
    {tree : BalTree Ptr} {fuel : ℕ} (rep : Represents state which (plug context tree))
    (tree_balanced : tree.Balanced) (fits : Fits context (tree.height + 1))
    (enough : context.length < fuel) :
    ∃ state', avlRemoveLoop fuel state (upParent 0 context) (upWhich which context) = some state' ∧
    Represents state' which (retraceRemove context tree) ∧
    SameHeader state.tree state'.tree := by
  induction context generalizing state tree fuel with
  | nil =>
    obtain ⟨fuel, rfl⟩ : ∃ rest, fuel = rest + 1 := ⟨fuel - 1, by simp at enough; omega⟩
    exact ⟨state, by simp [avlRemoveLoop, upParent], rep, .refl _⟩
  | cons frame context ih =>
    obtain ⟨fuel, rfl⟩ : ∃ rest, fuel = rest + 1 := ⟨fuel - 1, by simp at enough; omega⟩
    have enough' : context.length < fuel := by simp at enough; omega
    obtain ⟨node_ne, stored, up, index⟩ := rep.frame
    have weight_ne := frame.side.weight_ne
    have small : SmallBalance (-frame.side.weight) := by
      rcases frame.side.weight_cases with weight | weight <;> constructor <;> omega
    have rep_frame : Represents state which (plug context
      (join frame.side tree frame.value frame.balance frame.sibling)) := rep
    simp only [avlRemoveLoop, upParent_cons, upWhich_cons, if_neg node_ne, stored, up, index,
      retraceRemove]
    obtain ⟨balance, -⟩ | ⟨balance, balanced, outer⟩ | ⟨balance, tall, outer⟩ :=
      fits.shrink tree_balanced
    · simp only [balance, if_true, zero_sub]
      exact ⟨_, rfl, represents_setbalance rep_frame small, .refl _⟩
    · simp only [balance, weight_ne, if_false, sub_self, if_true]
      exact ih (represents_setbalance rep_frame smallBalance_zero) balanced outer enough'
    · have twice : frame.balance - frame.side.weight = 2 * frame.side.other.weight := by
        rw [balance, Side.weight_other]
        ring
      rw [← join_other] at rep_frame
      obtain ⟨rotated, flag⟩ := avlRotation_spec rep_frame fits.1 tall
      obtain ⟨rotated_balanced, rotated_height, -⟩ :=
        rotate_balanced frame.side.other frame.value fits.1 tree_balanced tall
      have heavy : frame.balance ≠ 0 := by omega
      have uneven : frame.balance - frame.side.weight ≠ 0 := by omega
      simp only [if_neg heavy, if_neg uneven]
      rw [twice, flag]
      cases result : rotate frame.side.other frame.sibling frame.value tree with
      | mk shape shorter =>
        rw [result] at rotated rotated_balanced rotated_height
        cases shorter with
        | false => exact ⟨_, rfl, rotated, sameHeader_rotation _ _ _⟩
        | true =>
          obtain ⟨state', climbed, rep', same⟩ :=
            ih rotated rotated_balanced (rotated_height ▸ outer) enough'
          exact ⟨state', climbed, rep', (sameHeader_rotation _ _ _).trans same⟩

theorem avlCutOut_spec {state : State} {which side : Side} {context : Context Ptr}
    {child : BalTree Ptr} {delete : Ptr} {balance : ℤ}
    (rep : Represents state which (plug context (join side .nil delete balance child)))
    (balanced : (plug context (join side .nil delete balance child)).Balanced)
    (numnodes : state.tree.avlNumnodes =
      (plug context (join side .nil delete balance child)).toList.length) :
    ∃ state', avlCutOut state delete = some state' ∧
    Represents state' which (retraceRemove context child) ∧
    SameOrder state.tree state'.tree ∧
    state'.tree.avlNumnodes = state.tree.avlNumnodes - 1 := by
  obtain ⟨root, nodes, nodup⟩ := rep
  rw [rep_plug, rootPtr_join, rep_join] at nodes
  obtain ⟨ctx, -, -, up, index, -, child_near, child_far, -, rep_child⟩ := nodes
  obtain ⟨node_balanced, fits⟩ := (balanced_plug _ _).mp balanced
  obtain ⟨-, child_balanced, -⟩ := (balanced_join _ _ _ _ _).mp node_balanced
  obtain ⟨nodup_ctx, node_nodup, apart⟩ := (nodup_plug _ _).mp nodup
  obtain ⟨-, nodup_child, -⟩ := (nodup_join _ _ _ _ _).mp node_nodup
  have child_ctx : child.toList.Disjoint (ctxNodes context) := fun address member =>
    apart address ((mem_join _ _ _ _ _ _).mpr (.inr (.inr member)))
  have nodup' : (plug context child).toList.Nodup :=
    (nodup_plug _ _).mpr ⟨nodup_ctx, nodup_child, fun address member => child_ctx member⟩
  unfold avlCutOut
  extract_lets header s₀ parent whichChild node s₁ s₂
  have node_eq : node = rootPtr child := by
    cases side with
    | left =>
      have far : (state.heap delete).avlChild .right = rootPtr child := child_far
      simp [node, s₀, child_near, far]
    | right =>
      have near : (state.heap delete).avlChild .left = rootPtr child := child_far
      by_cases empty : rootPtr child = 0
      · simp [node, s₀, child_near, near, empty]
      · simp only [node, s₀, near, if_pos empty]
  have ctx' : RepCtx s₁.heap 0 which context delete := ctx.congr fun address member => by
    simp only [s₁, node_eq]
    exact heap_attach_rootPtr _ _ _ (child_ctx.symm member)
  have moved : Rep s₁.heap child (upParent 0 context) (upWhich which context) := by
    have kept : Rep s₀.heap child delete side.other := rep_child
    have attached := kept.attach nodup_child ctx.up_aligned (upWhich which context)
    simpa only [s₁, node_eq, parent, whichChild, s₀, up, index] using attached
  have top : s₁.tree.avlRoot = topPtr context delete := by
    rw [show s₁.tree = s₀.tree from tree_attach _ _ _ _]
    rw [show s₀.tree.avlRoot = state.tree.avlRoot from rfl, root, rootPtr_plug, rootPtr_join]
  have linked := represents_link ctx' top moved nodup' rfl
  have s₂_eq : s₂ = s₁.link (upParent 0 context) (upWhich which context) (rootPtr child) := by
    simp only [s₂, node_eq, parent, whichChild, s₀, up, index]
  rw [← s₂_eq] at linked
  have same : SameHeader s₀.tree s₂.tree := by
    have link := sameHeader_link s₁ parent whichChild node
    rwa [show s₁.tree = s₀.tree from tree_attach _ _ _ _] at link
  have enough : context.length < s₂.tree.avlNumnodes + 1 := by
    have short := length_context_le context child
    rw [same.numnodes, show s₀.tree.avlNumnodes = state.tree.avlNumnodes - 1 from rfl, numnodes]
    simp only [toList_plug, List.length_append] at short ⊢
    cases side <;> simp [join, toList] <;> omega
  obtain ⟨state', climbed, rep', same'⟩ := avlRemoveLoop_spec context linked child_balanced
    (by simpa [height] using fits) enough
  have header := same.trans same'
  refine ⟨state', ?_, rep', ⟨header.compar, header.offset⟩, header.numnodes⟩
  simpa only [parent, whichChild, s₀, up, index] using climbed

/-- The test of the code for the only child of a node. -/
theorem only_child {side : Side} {children : Side → Ptr} {child : Ptr}
    (none : children side.other = 0) (one : children side = child) :
    children (if children .right ≠ 0 then .right else .left) = child := by
  cases side with
  | left =>
    have right_none : children .right = 0 := none
    simp [right_none, one]
  | right =>
    have left_none : children .left = 0 := none
    by_cases empty : child = 0
    · simp [one, left_none, empty]
    · rw [one, if_pos empty, one]

section Swap

variable {state : State} {which side : Side} {context inner : Context Ptr}
  {child far : BalTree Ptr} {delete neighbour tmp : Ptr} {balance neighbourBalance : ℤ}

theorem represents_adopt {near : BalTree Ptr} {node hole nearPtr nearParent farParent : Ptr}
    {change : AvlNode → AvlNode}
    (ctx : RepCtx state.heap 0 which context hole) (root : state.tree.avlRoot = topPtr context hole)
    (rep_near : Rep state.heap near nearParent side)
    (rep_far : Rep state.heap far farParent side.other) (near_eq : rootPtr near = nearPtr)
    (near_mem : nearPtr ∈ near.toList) (far_mem : rootPtr far ∈ far.toList) (node_ne : node ≠ 0)
    (aligned : Aligned node)
    (nodup : (plug context (join side near node balance far)).toList.Nodup)
    (cell : (change (state.heap node)).xparent = upParent 0 context ∧
      (change (state.heap node)).xchild = upWhich which context ∧
      (change (state.heap node)).xbalance = balance ∧
      (change (state.heap node)).avlChild side = nearPtr ∧
      (change (state.heap node)).avlChild side.other = rootPtr far) :
    Represents ((((state.modify nearPtr (·.setparent node)).modify (rootPtr far)
      (·.setparent node)).modify node change).link (upParent 0 context)
        (upWhich which context) node)
      which (plug context (join side near node balance far)) := by
  subst near_eq
  have apart := nodup
  simp only [nodup_plug, nodup_join, mem_join] at apart
  refine represents_link (((ctx.modify _ (by grind)).modify _ (by grind)).modify _ (by grind)) root
    (.build ((rep_near.reparent (by grind) aligned).modify _ (by grind))
      (Rep.reparent (rep_far.modify _ (by grind)) (by grind) aligned) node_ne aligned (by grind)
      (by grind) ?_) nodup (rootPtr_join _ _ _ _ _)
  rwa [heap_modify_of_ne _ _ (by grind), heap_modify_of_ne _ _ (by grind)]

/-- The neighbour of a node with two children takes its place. -/
theorem represents_swap (rep : Represents state which (plug context (join side
      (plug inner (join side.other .nil neighbour neighbourBalance child)) delete balance far)))
    (far_ne : far ≠ .nil) (tmp_ne : tmp ≠ 0) (tmp_aligned : Aligned tmp)
    (tmp_fresh : tmp ∉ (plug context (join side
      (plug inner (join side.other .nil neighbour neighbourBalance child)) delete balance
        far)).toList) :
    Represents (avlSwap state delete neighbour tmp side) which (plug context (join side
      (plug inner (join side.other .nil tmp neighbourBalance child)) neighbour balance far)) := by
  obtain ⟨root, nodes, nodup⟩ := rep
  have zero := fun member => (nodes.ne_zero member : (0 : Ptr) ≠ 0) rfl
  simp only [rep_plug, rootPtr_join, rep_join, rootPtr_plug, Side.other_other] at nodes root
  obtain ⟨ctx, -, -, up, index, stored, child_near, delete_far,
    ⟨rep_inner, neighbour_ne, neighbour_aligned, neighbour_up, neighbour_index, neighbour_stored,
      neighbour_near, neighbour_one, -, rep_child⟩, rep_far⟩ := nodes
  have nodup' : (plug context (join side (plug inner (join side.other .nil tmp neighbourBalance
      child)) neighbour balance far)).toList.Nodup := by
    simp only [nodup_plug, nodup_join, mem_plug, mem_join] at nodup tmp_fresh ⊢
    grind
  simp only [nodup_plug, nodup_join, mem_plug, mem_join, imp_false, not_or] at nodup tmp_fresh zero
  have far_mem := rootPtr_mem far_ne
  have child_mem : rootPtr child = 0 ∨ rootPtr child ∈ child.toList := by
    cases child <;> simp [toList, rootPtr]
  have up_mem : upParent 0 context = 0 ∨ upParent 0 context ∈ ctxNodes context := by
    cases context with
    | nil => exact .inl rfl
    | cons frame context => exact .inr (mem_ctxNodes_cons.mpr (.inl rfl))
  have delete_tmp : delete ≠ tmp := by grind
  have tmp_neighbour : tmp ≠ neighbour := by grind
  have neighbour_tmp := tmp_neighbour.symm
  have tmp_far : tmp ≠ rootPtr far := by grind
  have neighbour_far : neighbour ≠ rootPtr far := by grind
  have neighbour_top : neighbour ≠ upParent 0 context := by grind
  have tmp_top : tmp ≠ upParent 0 context := by grind
  have far_top : rootPtr far ≠ upParent 0 context := by grind
  have child_top : upParent 0 context ≠ 0 → rootPtr child ≠ upParent 0 context := by grind
  have tmp_child : tmp ≠ rootPtr child := by grind
  have neighbour_child : neighbour ≠ rootPtr child := by grind
  have far_child : rootPtr far ≠ rootPtr child := by grind
  have last := only_child neighbour_near neighbour_one
  -- A write to the root of an empty tree changes no node.
  have relax : ∀ {tree : BalTree Ptr} {state : State},
      Represents (state.modify (rootPtr child) (·.setparent tmp)) which tree →
      Represents (if rootPtr child ≠ 0 then state.modify (rootPtr child) (·.setparent tmp)
        else state) which tree := by
    rintro tree state ⟨root, rep, nodup⟩
    split_ifs with some_child
    · exact ⟨root, rep, nodup⟩
    · refine ⟨root, rep.congr fun node member => (heap_modify_of_ne _ _ ?_).symm, nodup⟩
      exact not_not.mp some_child ▸ rep.ne_zero member
  set placedState := (state.modify (rootPtr child) (·.setparent tmp)).modify tmp
    fun _ => state.heap neighbour
  have placed : Rep placedState.heap (join side.other .nil tmp neighbourBalance child)
      (upParent delete inner) (upWhich side inner) := by
    refine .build trivial ?_ tmp_ne tmp_aligned (by simp [toList]) (by grind)
      ⟨neighbour_up, neighbour_index, neighbour_stored, neighbour_near, ?_⟩
    · rw [Side.other_other]
      exact rep_child.reparent (by grind) tmp_aligned
    · rw [Side.other_other, neighbour_one]
  have ctx' : RepCtx placedState.heap 0 which context delete :=
    (ctx.modify _ (by grind)).modify _ (by grind)
  have far' : Rep placedState.heap far delete side.other :=
    (rep_far.modify _ (by grind)).modify _ (by grind)
  cases inner with
  | nil =>
    simp only [upParent, topPtr, upWhich] at child_near neighbour_up neighbour_index
    simp (disch := assumption) only [avlSwap, heap_modify_same, heap_modify_of_ne, heap_link_of_ne,
      child_near, if_true, AvlNode.xparent_putchild, AvlNode.xchild_putchild,
      AvlNode.avlChild_putchild, AvlNode.xparent_setparent, AvlNode.xchild_setparent,
      AvlNode.avlChild_setparent, Function.update_self, Function.update_of_ne side.other_ne,
      up, index,
      delete_far, neighbour_index, last]
    refine relax ?_
    simp only [link_modify fun _ => tmp_top, link_modify fun _ => far_top,
      link_modify fun _ => neighbour_top, link_modify child_top, modify_comm neighbour_tmp,
      modify_comm neighbour_far, modify_comm neighbour_child, modify_comm far_child,
      modify_comm tmp_child, modify_modify _ neighbour]
    refine represents_adopt ctx' root placed far' (rootPtr_join _ _ _ _ _)
      ((mem_join _ _ _ _ _ _).mpr (.inl rfl)) far_mem neighbour_ne neighbour_aligned nodup' ?_
    simp [up, index, stored, delete_far, side.other_ne]
  | cons frame inner =>
    have top_mem := topPtr_mem frame inner neighbour
    have inside : frame.value ∈ ctxNodes (frame :: inner) := mem_ctxNodes_cons.mpr (.inl rfl)
    simp only [upParent, topPtr, upWhich] at child_near neighbour_up neighbour_index top_mem
    have neighbour_near' : neighbour ≠ topPtr inner frame.value := by grind
    have tmp_near : tmp ≠ topPtr inner frame.value := by grind
    have tmp_frame : tmp ≠ frame.value := by grind
    have neighbour_frame : neighbour ≠ frame.value := by grind
    have frame_top : frame.value ≠ upParent 0 context := by grind
    have near_top : topPtr inner frame.value ≠ upParent 0 context := by grind
    have near_child : topPtr inner frame.value ≠ rootPtr child := by grind
    have frame_child : frame.value ≠ rootPtr child := by grind
    simp (disch := assumption) only [avlSwap, heap_modify_same, heap_modify_of_ne, heap_link_of_ne,
      child_near, if_neg neighbour_near'.symm, up, index, delete_far, neighbour_up,
      neighbour_index, last]
    refine relax ?_
    simp only [modify_setparent_putchild, link_modify fun _ => near_top,
      link_modify fun _ => far_top, link_modify fun _ => frame_top, link_modify child_top,
      modify_comm neighbour_near', modify_comm neighbour_far, modify_comm neighbour_child,
      modify_comm neighbour_frame, modify_comm far_child, modify_comm tmp_child,
      modify_comm near_child, modify_comm frame_child]
    have relinked : RepCtx (placedState.modify frame.value (·.putchild frame.side tmp)).heap delete
        side (frame :: inner) tmp :=
      (RepCtx.modify _ (RepCtx.modify _ rep_inner (by grind)) (by grind)).relink (by grind) tmp
    have near' : Rep (placedState.modify frame.value (·.putchild frame.side tmp)).heap
        (plug (frame :: inner) (join side.other .nil tmp neighbourBalance child)) delete side := by
      rw [rep_plug, rootPtr_join]
      exact ⟨relinked, placed.modify _ (by rw [mem_join]; grind)⟩
    refine represents_adopt (ctx'.modify _ (by grind)) root near' (far'.modify _ (by grind))
      (by rw [rootPtr_plug, topPtr]) ((mem_plug _ _ _).mpr (.inl top_mem)) far_mem neighbour_ne
      neighbour_aligned nodup' ?_
    simp [up, index, stored, delete_far, child_near]

theorem sameHeader_swap (state : State) (delete node tmp : Ptr) (side : Side) :
    SameHeader state.tree (avlSwap state delete node tmp side).tree := by
  unfold avlSwap
  extract_lets opposite s₁ s₂ s₃ s₄ s₅ s₆ parent s₇ last
  have kept : s₃.tree = state.tree := by
    simp only [s₃]
    split_ifs <;> rfl
  have linked : SameHeader state.tree s₄.tree := kept ▸ sameHeader_link _ _ _ _
  split_ifs <;> exact linked

/-- The neighbour of a node with two children is found and swapped in. -/
theorem avlSwapOut_spec (rep : Represents state which (plug context (join side
      (plug inner (join side.other .nil neighbour neighbourBalance child)) delete balance far)))
    (sides : ∀ frame ∈ inner, frame.side = side.other) (taller : balance2child balance = side)
    (numnodes : state.tree.avlNumnodes = (plug context (join side
      (plug inner (join side.other .nil neighbour neighbourBalance child)) delete balance
        far)).toList.length) (tmp : Ptr) :
    avlSwapOut state delete tmp = some (avlSwap state delete neighbour tmp side) := by
  have nodes := rep.rep
  rw [rep_plug, rootPtr_join, rep_join] at nodes
  obtain ⟨-, -, -, -, -, stored, delete_near, -, rep_near, -⟩ := nodes
  have nonempty : plug inner (join side.other .nil neighbour neighbourBalance child) ≠ .nil := by
    intro empty
    have inside := (mem_plug inner (join side.other .nil neighbour neighbourBalance child)
      neighbour).mpr (.inr ((mem_join _ _ _ _ _ _).mpr (.inl rfl)))
    simp [empty, toList] at inside
  have short : (plug inner (join side.other .nil neighbour neighbourBalance child)).height ≤
      state.tree.avlNumnodes + 1 := by
    have near_short := height_le_length
      (plug inner (join side.other .nil neighbour neighbourBalance child))
    rw [numnodes, toList_plug context]
    cases side <;> simp [join, toList] at near_short ⊢ <;> omega
  obtain ⟨walked, -⟩ := walkDown_edge side.other _ [] rep_near nonempty short 0 .left
  rw [edge_plug sides, edge_join] at walked
  simp only [avlSwapOut, stored, taller, delete_near, walked]
  rfl

end Swap

theorem balance2child_eq_tallerSide {balance : ℤ} (small : SmallBalance balance) :
    balance2child balance = tallerSide balance := by
  rcases small.cases with rfl | rfl | rfl <;> decide

theorem avlRemove_spec {state : State} {which : Side} {context : Context Ptr}
    {left right : BalTree Ptr} {data tmp : Ptr} {balance : ℤ}
    (rep : Represents state which
      (plug context (.node left (data2node state.tree data) balance right)))
    (balanced : (plug context (.node left (data2node state.tree data) balance right)).Balanced)
    (numnodes : state.tree.avlNumnodes =
      (plug context (.node left (data2node state.tree data) balance right)).toList.length)
    (tmp_ne : tmp ≠ 0) (tmp_aligned : Aligned tmp)
    (tmp_fresh : tmp ∉
      (plug context (.node left (data2node state.tree data) balance right)).toList) :
    ∃ state', avlRemove state data tmp = some state' ∧
    Represents state' which
      (removeAt context (.node left (data2node state.tree data) balance right)) ∧
    SameOrder state.tree state'.tree ∧
    state'.tree.avlNumnodes = state.tree.avlNumnodes - 1 := by
  have small := ((balanced_plug _ _).mp balanced).1.2.2.2
  unfold avlRemove
  extract_lets delete
  obtain ⟨side, child, whole, removed⟩ |
      ⟨near, far, neighbour, neighbourBalance, child, inner, near_ne, far_ne, whole, rfl, sides,
        removed⟩ := removeAt_cases context left delete balance right
  all_goals
    rw [removed]
    rw [whole] at rep balanced numnodes tmp_fresh
    have nodes := rep.rep
    rw [rep_plug, rootPtr_join, rep_join] at nodes
    obtain ⟨-, -, -, -, -, -, child_near, child_far, rep_near, rep_far⟩ := nodes
  · have one : ¬ ((state.heap delete).avlChild .left ≠ 0 ∧
        (state.heap delete).avlChild .right ≠ 0) := by
      cases side with
      | left => exact fun both => both.1 child_near
      | right => exact fun both => both.2 child_near
    rw [if_neg one]
    exact avlCutOut_spec rep balanced numnodes
  have two : (state.heap delete).avlChild .left ≠ 0 ∧ (state.heap delete).avlChild .right ≠ 0 := by
    have near_zero := (rootPtr_eq_zero rep_near).not.mpr near_ne
    have far_zero := (rootPtr_eq_zero rep_far).not.mpr far_ne
    rw [← child_near] at near_zero
    rw [← child_far] at far_zero
    cases side_eq : tallerSide balance <;> rw [side_eq] at near_zero far_zero
    · exact ⟨near_zero, far_zero⟩
    · exact ⟨far_zero, near_zero⟩
  rw [if_pos two]
  rw [avlSwapOut_spec rep sides (balance2child_eq_tallerSide small) numnodes tmp]
  have swapped := represents_swap rep far_ne tmp_ne tmp_aligned tmp_fresh
  have same := sameHeader_swap state delete neighbour tmp (tallerSide balance)
  have swapped_eq : plug context (join (tallerSide balance) (plug inner
      (join (tallerSide balance).other .nil tmp neighbourBalance child)) neighbour balance far) =
      plug (inner ++ ⟨tallerSide balance, neighbour, balance, far⟩ :: context)
        (join (tallerSide balance).other .nil tmp neighbourBalance child) := by
    rw [plug_append]
    rfl
  -- The swap changes no shape, so the balances and the count still fit.
  have swapped_balanced : (plug context (join (tallerSide balance) (plug inner
      (join (tallerSide balance).other .nil tmp neighbourBalance child)) neighbour balance
        far)).Balanced := by
    have heights := height_plug inner (by simp only [height_join] :
      (join (tallerSide balance).other .nil neighbour neighbourBalance child).height =
        (join (tallerSide balance).other .nil tmp neighbourBalance child).height)
    simp only [balanced_plug, balanced_join, height_join, heights] at balanced ⊢
    exact balanced
  have swapped_numnodes :
      (avlSwap state delete neighbour tmp (tallerSide balance)).tree.avlNumnodes =
      (plug context (join (tallerSide balance) (plug inner
        (join (tallerSide balance).other .nil tmp neighbourBalance child)) neighbour balance
          far)).toList.length := by
    rw [same.numnodes, numnodes]
    cases tallerSide balance <;> simp [toList_plug, join, toList, Side.other]
  rw [swapped_eq] at swapped swapped_balanced swapped_numnodes
  obtain ⟨state', cut, rep', order, count⟩ :=
    avlCutOut_spec swapped swapped_balanced swapped_numnodes
  exact ⟨state', cut, rep', same.toSameOrder.trans order, count.trans (by rw [same.numnodes])⟩

end Zfs.Avl
