import Zfs.Avl.Code

/-!
# Trees in memory

`Rep heap tree parent which` says that the nodes of `tree`, labelled by their addresses, are laid
out in memory: every node has its stored balance, its children, its parent and its index there.
`RepCtx` says the same of the nodes around a hole.
-/

namespace Zfs.Avl

open BalancedTree
open BalTree hiding node
open scoped List

/-- The address of the root of a tree. -/
def rootPtr : BalTree Ptr → Ptr
  | .nil => 0
  | .node _ node _ _ => node

@[simp] theorem rootPtr_nil : rootPtr .nil = 0 := rfl

variable (side : Side) (near far : BalTree Ptr)

@[simp] theorem rootPtr_join (node : Ptr) (balance : ℤ) :
    rootPtr (join side near node balance far) = node := by
  cases side <;> rfl

/-- A tree laid out in memory below `parent`. -/
def Rep (heap : Heap) : BalTree Ptr → Ptr → Side → Prop
  | .nil, _, _ => True
  | .node left node balance right, parent, which =>
    node ≠ 0 ∧ Aligned node ∧
      (heap node).xparent = parent ∧ (heap node).xchild = which ∧
      (heap node).xbalance = balance ∧
      (heap node).avlChild .left = rootPtr left ∧
      (heap node).avlChild .right = rootPtr right ∧
      Rep heap left node .left ∧ Rep heap right node .right

theorem rep_join (heap : Heap) (side : Side) (near far : BalTree Ptr) (node : Ptr) (balance : ℤ)
    (parent : Ptr) (which : Side) :
    Rep heap (join side near node balance far) parent which ↔
      node ≠ 0 ∧ Aligned node ∧
      (heap node).xparent = parent ∧ (heap node).xchild = which ∧
      (heap node).xbalance = balance ∧
      (heap node).avlChild side = rootPtr near ∧
      (heap node).avlChild side.other = rootPtr far ∧
      Rep heap near node side ∧ Rep heap far node side.other := by
  cases side with
  | left => rfl
  | right =>
    simp only [join, Rep, Side.other]
    tauto

variable {heap heap' : Heap} {tree : BalTree Ptr} {parent : Ptr} {which : Side}

/-- A representation depends only on the cells of the tree's own nodes. -/
theorem Rep.congr (rep : Rep heap tree parent which)
    (same : ∀ node ∈ tree.toList, heap' node = heap node) :
    Rep heap' tree parent which := by
  induction tree generalizing parent which with
  | nil => trivial
  | node left root balance right ihl ihr =>
    obtain ⟨root_ne, root_aligned, up, index, stored, child_left, child_right, rep_left,
      rep_right⟩ := rep
    have root_same := same root (by simp [toList])
    rw [Rep, root_same]
    exact ⟨root_ne, root_aligned, up, index, stored, child_left, child_right,
      ihl rep_left fun node member => same node (by simp [toList, member]),
      ihr rep_right fun node member => same node (by simp [toList, member])⟩

theorem Rep.ne_zero {node : Ptr} (rep : Rep heap tree parent which)
    (member : node ∈ tree.toList) : node ≠ 0 := by
  induction tree generalizing parent which with
  | nil => simp [toList] at member
  | node left root balance right ihl ihr =>
    obtain ⟨root_ne, -, -, -, -, -, -, rep_left, rep_right⟩ := rep
    simp only [toList, List.mem_append, List.mem_cons] at member
    rcases member with member | rfl | member
    · exact ihl rep_left member
    · exact root_ne
    · exact ihr rep_right member

theorem rootPtr_eq_zero (rep : Rep heap tree parent which) : rootPtr tree = 0 ↔ tree = .nil := by
  cases tree with
  | nil => simp
  | node _ _ _ _ => simpa [rootPtr] using rep.1

theorem rootPtr_mem (nonempty : tree ≠ .nil) : rootPtr tree ∈ tree.toList := by
  cases tree with
  | nil => exact (nonempty rfl).elim
  | node _ _ _ _ => simp [rootPtr, toList]

/-- The node above a hole, or `top` when the context is empty. -/
def upParent (top : Ptr) : Context Ptr → Ptr
  | [] => top
  | frame :: _ => frame.value

/-- The side of the node above on which a hole hangs. -/
def upWhich (top : Side) : Context Ptr → Side
  | [] => top
  | frame :: _ => frame.side

theorem upParent_cons (top : Ptr) (frame : Frame Ptr) (context : Context Ptr) :
    upParent top (frame :: context) = frame.value := rfl

theorem upWhich_cons (top : Side) (frame : Frame Ptr) (context : Context Ptr) :
    upWhich top (frame :: context) = frame.side := rfl

/-- The address of the whole tree when the hole holds `hole`. -/
def topPtr : Context Ptr → Ptr → Ptr
  | [], hole => hole
  | frame :: context, _ => topPtr context frame.value

/-- The nodes around a hole laid out in memory. -/
def RepCtx (heap : Heap) (top : Ptr) (topWhich : Side) : Context Ptr → Ptr → Prop
  | [], _ => True
  | frame :: context, hole =>
    frame.value ≠ 0 ∧ Aligned frame.value ∧
      (heap frame.value).xparent = upParent top context ∧
      (heap frame.value).xchild = upWhich topWhich context ∧
      (heap frame.value).xbalance = frame.balance ∧
      (heap frame.value).avlChild frame.side = hole ∧
      (heap frame.value).avlChild frame.side.other = rootPtr frame.sibling ∧
      Rep heap frame.sibling frame.value frame.side.other ∧
      RepCtx heap top topWhich context frame.value

/-- The nodes of a context. -/
def ctxNodes (context : Context Ptr) : List Ptr := before context ++ after context

variable {frame : Frame Ptr} {context : Context Ptr}

theorem mem_ctxNodes_cons {node : Ptr} :
    node ∈ ctxNodes (frame :: context) ↔
      node = frame.value ∨ node ∈ frame.sibling.toList ∨ node ∈ ctxNodes context := by
  cases side_eq : frame.side <;> simp [ctxNodes, before, after, side_eq] <;> tauto

theorem ctxNodes_cons_perm (frame : Frame Ptr) (context : Context Ptr) :
    (ctxNodes (frame :: context)).Perm
      (frame.value :: (frame.sibling.toList ++ ctxNodes context)) := by
  cases side_eq : frame.side with
  | left =>
    simp only [ctxNodes, before, after, side_eq, List.append_nil]
    calc
      before context ++ (frame.value :: frame.sibling.toList ++ after context)
        = before context ++ frame.value :: (frame.sibling.toList ++ after context) := by simp
      _ ~ frame.value :: (before context ++ (frame.sibling.toList ++ after context)) :=
          List.perm_middle
      _ ~ frame.value :: (frame.sibling.toList ++ (before context ++ after context)) :=
          (List.perm_append_comm_assoc _ _ _).cons _
  | right =>
    simp only [ctxNodes, before, after, side_eq, List.nil_append]
    calc
      before context ++ (frame.sibling.toList ++ [frame.value]) ++ after context
        = before context ++ (frame.sibling.toList ++ frame.value :: after context) := by simp
      _ ~ before context ++ (frame.value :: (frame.sibling.toList ++ after context)) :=
          List.perm_middle.append_left _
      _ ~ frame.value :: (before context ++ (frame.sibling.toList ++ after context)) :=
          List.perm_middle
      _ ~ frame.value :: (frame.sibling.toList ++ (before context ++ after context)) :=
          (List.perm_append_comm_assoc _ _ _).cons _

theorem frame_not_mem (nodup : (ctxNodes (frame :: context)).Nodup) :
    frame.value ∉ frame.sibling.toList ∧ frame.value ∉ ctxNodes context := by
  have distinct := (List.nodup_cons.mp ((ctxNodes_cons_perm _ _).nodup_iff.mp nodup)).1
  simpa [not_or] using distinct

theorem nodup_join (node : Ptr) (balance : ℤ) :
    (join side near node balance far).toList.Nodup ↔
      near.toList.Nodup ∧ far.toList.Nodup ∧ node ∉ near.toList ∧ node ∉ far.toList ∧
      ∀ address ∈ near.toList, address ∉ far.toList := by
  have flat : (join side near node balance far).toList ~ node :: (near.toList ++ far.toList) := by
    cases side with
    | left => exact List.perm_middle
    | right => exact List.perm_middle.trans (List.perm_append_comm.cons _)
  rw [flat.nodup_iff, List.nodup_cons, List.nodup_append, List.mem_append]
  grind

theorem nodup_plug (context : Context Ptr) (tree : BalTree Ptr) :
    (plug context tree).toList.Nodup ↔
      (ctxNodes context).Nodup ∧ tree.toList.Nodup ∧
      ∀ address ∈ tree.toList, address ∉ ctxNodes context := by
  have flat : (plug context tree).toList ~ ctxNodes context ++ tree.toList := by
    rw [toList_plug, ctxNodes, List.append_assoc, List.append_assoc]
    exact List.perm_append_comm.append_left _
  rw [flat.nodup_iff, List.nodup_append]
  grind

theorem mem_plug (context : Context Ptr) (tree : BalTree Ptr) (address : Ptr) :
    address ∈ (plug context tree).toList ↔ address ∈ ctxNodes context ∨ address ∈ tree.toList := by
  simp only [toList_plug, ctxNodes, List.mem_append]
  tauto

theorem mem_join (node : Ptr) (balance : ℤ) (address : Ptr) :
    address ∈ (join side near node balance far).toList ↔
      address = node ∨ address ∈ near.toList ∨ address ∈ far.toList := by
  cases side <;> simp [join, toList] <;> tauto

theorem rootPtr_plug (context : Context Ptr) (tree : BalTree Ptr) :
    rootPtr (plug context tree) = topPtr context (rootPtr tree) := by
  induction context generalizing tree with
  | nil => rfl
  | cons frame context ih => rw [plug, ih, Frame.fill, rootPtr_join, topPtr]

theorem rep_plug (heap : Heap) (top : Ptr) (topWhich : Side) (context : Context Ptr)
    (tree : BalTree Ptr) :
    Rep heap (plug context tree) top topWhich ↔
      RepCtx heap top topWhich context (rootPtr tree) ∧
      Rep heap tree (upParent top context) (upWhich topWhich context) := by
  induction context generalizing tree with
  | nil => simp [plug, RepCtx, upParent, upWhich]
  | cons frame context ih =>
    rw [plug, ih, Frame.fill, rep_join, rootPtr_join, RepCtx, upParent, upWhich]
    tauto

variable {top hole : Ptr} {topWhich : Side}

theorem RepCtx.congr (rep : RepCtx heap top topWhich context hole)
    (same : ∀ node ∈ ctxNodes context, heap' node = heap node) :
    RepCtx heap' top topWhich context hole := by
  induction context generalizing hole with
  | nil => trivial
  | cons frame context ih =>
    obtain ⟨node_ne, aligned, up, index, stored, child, sibling, rep_sibling, outer⟩ := rep
    have frame_same := same frame.value (mem_ctxNodes_cons.mpr (.inl rfl))
    rw [RepCtx, frame_same]
    exact ⟨node_ne, aligned, up, index, stored, child, sibling,
      rep_sibling.congr fun node member =>
        same node (mem_ctxNodes_cons.mpr (.inr (.inl member))),
      ih outer fun node member => same node (mem_ctxNodes_cons.mpr (.inr (.inr member)))⟩

theorem RepCtx.up_aligned (rep : RepCtx heap 0 topWhich context hole) :
    Aligned (upParent 0 context) := by
  cases context with
  | nil => exact aligned_zero
  | cons frame context => exact rep.2.1

namespace State

section

variable (state : State) (node : Ptr) (change : AvlNode → AvlNode)

@[simp] theorem tree_modify :
    (state.modify node change).tree = state.tree := rfl

theorem heap_modify (address : Ptr) :
    (state.modify node change).heap address =
      if address = node then change (state.heap node) else state.heap address := by
  simp [modify, Function.update_apply]

@[simp] theorem heap_modify_same :
    (state.modify node change).heap node = change (state.heap node) := by
  simp [heap_modify]

end

variable {address : Ptr}

theorem heap_modify_of_ne (state : State) {node : Ptr} (change : AvlNode → AvlNode)
    (different : address ≠ node) :
    (state.modify node change).heap address = state.heap address := by
  simp [heap_modify, different]

@[simp] theorem tree_attach (state : State) (node parent : Ptr) (which : Side) :
    (state.attach node parent which).tree = state.tree := by
  unfold attach
  split_ifs <;> rfl

theorem heap_attach_of_ne (state : State) {node : Ptr} (parent : Ptr) (which : Side)
    (different : address ≠ node) :
    (state.attach node parent which).heap address = state.heap address := by
  unfold attach
  split_ifs
  · rw [heap_modify_of_ne _ _ different, heap_modify_of_ne _ _ different]
  · rfl

theorem heap_link_of_ne (state : State) {parent : Ptr} (which : Side) (node : Ptr)
    (different : address ≠ parent) :
    (state.link parent which node).heap address = state.heap address := by
  unfold link
  split_ifs
  · exact heap_modify_of_ne _ _ different
  · rfl

end State

variable {newParent : Ptr}

/-- A write to the root that keeps its balance and children keeps the subtree. -/
theorem Rep.of_root {newWhich : Side} (rep : Rep heap tree parent which)
    (nodup : tree.toList.Nodup)
    (elsewhere : ∀ node, node ≠ rootPtr tree → heap' node = heap node)
    (cell : rootPtr tree ≠ 0 → (heap' (rootPtr tree)).xparent = newParent ∧
      (heap' (rootPtr tree)).xchild = newWhich ∧
      (heap' (rootPtr tree)).xbalance = (heap (rootPtr tree)).xbalance ∧
      (heap' (rootPtr tree)).avlChild = (heap (rootPtr tree)).avlChild) :
    Rep heap' tree newParent newWhich := by
  cases tree with
  | nil => trivial
  | node left root balance right =>
    obtain ⟨root_ne, root_aligned, -, -, stored, child_left, child_right, rep_left,
      rep_right⟩ := rep
    obtain ⟨up, index, same_balance, same_child⟩ := cell root_ne
    simp only [toList, List.nodup_append, List.nodup_cons] at nodup
    rw [rootPtr] at up index same_balance same_child
    rw [Rep, same_balance, same_child]
    exact ⟨root_ne, root_aligned, up, index, stored, child_left, child_right,
      rep_left.congr fun node member => elsewhere node (by grind [rootPtr]),
      rep_right.congr fun node member => elsewhere node (by grind [rootPtr])⟩

variable {state : State}

section

variable (rep : Rep state.heap tree parent which) (nodup : tree.toList.Nodup)
  (aligned : Aligned newParent)

include rep nodup aligned

theorem Rep.attach (newWhich : Side) :
    Rep (state.attach (rootPtr tree) newParent newWhich).heap tree newParent newWhich := by
  refine rep.of_root nodup (fun _ => State.heap_attach_of_ne _ _ _) fun root_ne => ?_
  rw [State.attach, if_pos root_ne, State.heap_modify_same, State.heap_modify_same]
  simp [AvlNode.xparent_setparent _ aligned, AvlNode.xbalance_setparent _ aligned]

theorem Rep.reparent :
    Rep (state.modify (rootPtr tree) (·.setparent newParent)).heap tree newParent which := by
  refine rep.of_root nodup (fun _ => State.heap_modify_of_ne _ _) fun root_ne => ?_
  have index : (state.heap (rootPtr tree)).xchild = which := by
    cases tree with
    | nil => exact (root_ne rfl).elim
    | node _ _ _ _ => exact rep.2.2.2.1
  simp [AvlNode.xparent_setparent _ aligned, AvlNode.xbalance_setparent _ aligned,
    AvlNode.xchild_setparent _ aligned, index]

end

section Modify

variable {node : Ptr} (change : AvlNode → AvlNode)

theorem Rep.modify (rep : Rep state.heap tree parent which) (outside : node ∉ tree.toList) :
    Rep (state.modify node change).heap tree parent which :=
  rep.congr fun _ member => State.heap_modify_of_ne _ _ (ne_of_mem_of_not_mem member outside)

theorem RepCtx.modify (rep : RepCtx state.heap top topWhich context hole)
    (outside : node ∉ ctxNodes context) :
    RepCtx (state.modify node change).heap top topWhich context hole :=
  rep.congr fun _ member => State.heap_modify_of_ne _ _ (ne_of_mem_of_not_mem member outside)

variable {side : Side} {near far : BalTree Ptr} {balance : ℤ} {change : AvlNode → AvlNode}

/-- A write that makes a node the parent of two trees. -/
theorem Rep.build (rep_near : Rep state.heap near node side)
    (rep_far : Rep state.heap far node side.other) (node_ne : node ≠ 0) (aligned : Aligned node)
    (not_near : node ∉ near.toList) (not_far : node ∉ far.toList)
    (cell : (change (state.heap node)).xparent = parent ∧
      (change (state.heap node)).xchild = which ∧ (change (state.heap node)).xbalance = balance ∧
      (change (state.heap node)).avlChild side = rootPtr near ∧
      (change (state.heap node)).avlChild side.other = rootPtr far) :
    Rep (state.modify node change).heap (join side near node balance far) parent which := by
  rw [rep_join, State.heap_modify_same]
  obtain ⟨up, index, stored, child_near, child_far⟩ := cell
  exact ⟨node_ne, aligned, up, index, stored, child_near, child_far, rep_near.modify _ not_near,
    rep_far.modify _ not_far⟩

end Modify

theorem RepCtx.relink (rep : RepCtx state.heap top topWhich (frame :: context) hole)
    (nodup : (ctxNodes (frame :: context)).Nodup) (newHole : Ptr) :
    RepCtx (state.modify frame.value (·.putchild frame.side newHole)).heap top topWhich
      (frame :: context) newHole := by
  obtain ⟨node_ne, aligned, up, index, stored, child, sibling, rep_sibling, outer⟩ := rep
  obtain ⟨not_sibling, not_context⟩ := frame_not_mem nodup
  rw [RepCtx, State.heap_modify_same]
  exact ⟨node_ne, aligned, by simpa using up, by simpa using index, by simpa using stored, by simp,
    by simpa [Function.update_of_ne frame.side.other_ne] using sibling,
    rep_sibling.congr fun node member =>
      State.heap_modify_of_ne _ _ (ne_of_mem_of_not_mem member not_sibling),
    outer.congr fun node member =>
      State.heap_modify_of_ne _ _ (ne_of_mem_of_not_mem member not_context)⟩

theorem topPtr_mem (frame : Frame Ptr) (context : Context Ptr) (hole : Ptr) :
    topPtr (frame :: context) hole ∈ ctxNodes (frame :: context) := by
  induction context generalizing frame hole with
  | nil => exact mem_ctxNodes_cons.mpr (.inl rfl)
  | cons outer context ih => exact mem_ctxNodes_cons.mpr (.inr (.inr (ih outer frame.value)))

theorem RepCtx.link (rep : RepCtx state.heap 0 topWhich context hole)
    (nodup : (ctxNodes context).Nodup) (root : state.tree.avlRoot = topPtr context hole)
    (newHole : Ptr) :
    RepCtx (state.link (upParent 0 context) (upWhich topWhich context) newHole).heap 0 topWhich
        context newHole ∧
      (state.link (upParent 0 context) (upWhich topWhich context) newHole).tree.avlRoot =
        topPtr context newHole := by
  cases context with
  | nil => exact ⟨trivial, by simp [State.link, upParent, topPtr]⟩
  | cons frame context =>
    have linked : state.link (upParent 0 (frame :: context))
        (upWhich topWhich (frame :: context)) newHole =
          state.modify frame.value (·.putchild frame.side newHole) := if_pos rep.1
    rw [linked]
    exact ⟨rep.relink nodup newHole, root⟩

/-- The header and the nodes hold a tree. -/
structure Represents (state : State) (which : Side) (tree : BalTree Ptr) : Prop where
  root : state.tree.avlRoot = rootPtr tree
  rep : Rep state.heap tree 0 which
  nodup : tree.toList.Nodup

theorem State.heap_link_outside (state : State) {address : Ptr} (topWhich : Side) (node : Ptr)
    (outside : address ∉ ctxNodes context) :
    (state.link (upParent 0 context) (upWhich topWhich context) node).heap address =
      state.heap address := by
  cases context with
  | nil => simp [link, upParent]
  | cons frame context =>
    refine heap_link_of_ne _ _ _ ?_
    rintro rfl
    exact outside (mem_ctxNodes_cons.mpr (.inl rfl))

theorem represents_link {node : Ptr} (outer : RepCtx state.heap 0 which context hole)
    (root : state.tree.avlRoot = topPtr context hole)
    (inner : Rep state.heap tree (upParent 0 context) (upWhich which context))
    (nodup : (plug context tree).toList.Nodup) (node_eq : rootPtr tree = node) :
    Represents (state.link (upParent 0 context) (upWhich which context) node) which
      (plug context tree) := by
  obtain ⟨nodup_outer, -, apart⟩ := (nodup_plug _ _).mp nodup
  obtain ⟨outer', root'⟩ := outer.link nodup_outer root node
  refine ⟨?_, ?_, nodup⟩
  · rw [root', rootPtr_plug, node_eq]
  · rw [rep_plug, node_eq]
    exact ⟨outer', inner.congr fun address member =>
      State.heap_link_outside _ _ _ (apart address member)⟩

end Zfs.Avl
