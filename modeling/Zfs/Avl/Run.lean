import Zfs.Avl.Remove

/-!
# Sequences of calls on one tree

A call is legal when it keeps the contract of its routine.  Every sequence of legal calls on a new
tree succeeds and leaves a sorted, balanced and consistently linked tree that holds exactly the
elements inserted and not removed.
-/

namespace Zfs.Avl

open BalancedTree
open BalTree hiding node

/-- The comparison is an order up to equal keys. -/
structure IsOrder (compar : Ptr → Ptr → ℤ) : Prop where
  /-- The comparison returns -1, 0 or 1. -/
  range : ∀ first second, SmallBalance (compar first second)
  /-- It changes sign with its arguments. -/
  swap : ∀ first second, compar second first = -compar first second
  trans : ∀ first second third, compar first second ≤ 0 → compar second third ≤ 0 →
    compar first third ≤ 0

/-- The calls that change a tree. -/
inductive Op where
  | add (data : Ptr)
  | insert (data : Ptr) (index : AvlIndex)
  | insertHere (data here : Ptr) (direction : Side)
  | remove (data tmp : Ptr)
  deriving DecidableEq, Repr

variable (state : State) (tree : AvlTree) (elements : Finset Ptr)

/-- One call. -/
def step : Op → Option State
  | .add data => avlAdd state data
  | .insert data index => avlInsert state data index
  | .insertHere data here direction => avlInsertHere state data here direction
  | .remove data tmp => avlRemove state data tmp

/-- A sequence of calls. -/
def run (state : State) : List Op → Option State
  | [] => some state
  | op :: ops => do run (← step state op) ops

/-- The elements after a call. -/
def elementsAfter : Op → Finset Ptr
  | .add data => insert data elements
  | .insert data _ => insert data elements
  | .insertHere data _ _ => insert data elements
  | .remove data _ => elements.erase data

/-- A proper address whose key no element of the tree has. -/
def Fresh (data : Ptr) : Prop :=
  data2node tree data ≠ 0 ∧ Aligned (data2node tree data) ∧
    ∀ other ∈ elements, tree.avlCompar data other ≠ 0

/-- A new element belongs directly next to `here`. -/
def Adjacent (data here : Ptr) : Side → Prop
  | .left => tree.avlCompar data here < 0 ∧
    ∀ other ∈ elements, tree.avlCompar other here < 0 → tree.avlCompar other data < 0
  | .right => tree.avlCompar here data < 0 ∧
    ∀ other ∈ elements, tree.avlCompar here other < 0 → tree.avlCompar data other < 0

/-- The contract of each call. -/
def Legal : Op → Prop
  | .add data => Fresh state.tree elements data
  | .insert data index =>
    Fresh state.tree elements data ∧ avlFind state data = some (.missing index)
  | .insertHere data here direction =>
    Fresh state.tree elements data ∧ here ∈ elements ∧
      Adjacent state.tree elements data here direction
  | .remove data tmp =>
    data ∈ elements ∧ tmp ≠ 0 ∧ Aligned tmp ∧
      ∀ other ∈ elements, tmp ≠ data2node state.tree other

/-- Every call of a sequence is legal in the state it meets. -/
def LegalRun (state : State) (elements : Finset Ptr) : List Op → Prop
  | [] => True
  | op :: ops => Legal state elements op ∧
    ∀ state', step state op = some state' → LegalRun state' (elementsAfter elements op) ops

/-- The state of a tree between calls. -/
structure Holds (state : State) (elements : Finset Ptr) (tree : BalTree Ptr) : Prop where
  /-- The header and the nodes hold the tree. -/
  represents : ∃ which, Represents state which tree
  balanced : tree.Balanced
  /-- The elements are in order. -/
  sorted : (tree.toList.map (node2data state.tree)).Pairwise
    fun first second => state.tree.avlCompar first second < 0
  /-- The header has their number. -/
  numnodes : state.tree.avlNumnodes = tree.toList.length
  /-- The elements are those added and not removed. -/
  elements_eq : (tree.toList.map (node2data state.tree)).toFinset = elements

/-- A call returns a tree in the same order, with certain elements. -/
def Returns (state : State) (elements : Finset Ptr) (result : Option State) : Prop :=
  ∃ state' tree', result = some state' ∧ Holds state' elements tree' ∧
    SameOrder state.tree state'.tree

variable {first second third data here : Ptr}

namespace IsOrder

variable {compar : Ptr → Ptr → ℤ}

theorem self (order : IsOrder compar) (data : Ptr) : compar data data = 0 := by
  have swapped := order.swap data data
  omega

theorem lt_of_le_of_lt (order : IsOrder compar) (one : compar first second ≤ 0)
    (two : compar second third < 0) : compar first third < 0 := by
  have swap_two := order.swap second third
  have swap_three := order.swap first third
  by_contra equal
  have back := order.trans third first second (by omega) one
  omega

theorem lt_of_lt_of_le (order : IsOrder compar) (one : compar first second < 0)
    (two : compar second third ≤ 0) : compar first third < 0 := by
  have swap_one := order.swap first second
  have swap_three := order.swap first third
  by_contra equal
  have back := order.trans second third first two (by omega)
  omega

end IsOrder

@[simp] theorem node2data_data2node (tree : AvlTree) (data : Ptr) :
    node2data tree (data2node tree data) = data :=
  BitVec.add_sub_cancel _ _

@[simp] theorem data2node_node2data (tree : AvlTree) (node : Ptr) :
    data2node tree (node2data tree node) = node :=
  BitVec.sub_add_cancel _ _

theorem SameOrder.node2data_eq {tree tree' : AvlTree} (same : SameOrder tree tree') :
    node2data tree' = node2data tree := by
  funext node
  rw [node2data, node2data, same.offset]

theorem mem_map_node2data {tree : AvlTree} {nodes : List Ptr} :
    data ∈ nodes.map (node2data tree) ↔ data2node tree data ∈ nodes := by
  rw [List.mem_map]
  constructor
  · rintro ⟨node, member, rfl⟩
    rwa [data2node_node2data]
  · intro member
    exact ⟨_, member, node2data_data2node _ _⟩

namespace Holds

variable {state : State} {elements : Finset Ptr} {tree : BalTree Ptr}

theorem mem_iff (holds : Holds state elements tree) (data : Ptr) :
    data ∈ elements ↔ data2node state.tree data ∈ tree.toList := by
  rw [← holds.elements_eq, List.mem_toFinset, mem_map_node2data]

theorem node2data_mem (holds : Holds state elements tree) {node : Ptr}
    (member : node ∈ tree.toList) :
    node2data state.tree node ∈ elements := by
  rw [holds.mem_iff, data2node_node2data]
  exact member

/-- A search for a value sees the sorted elements change sign once. -/
theorem falling (holds : Holds state elements tree) (order : IsOrder state.tree.avlCompar)
    (value : Ptr) : Falling (nodeDiff state.tree value) tree.toList := by
  have sorted := holds.sorted
  rw [List.pairwise_map] at sorted
  refine sorted.imp fun {first second} less => ⟨fun low => ?_, fun low => ?_⟩
  · exact order.trans _ _ _ low less.le
  · exact order.lt_of_le_of_lt low.le less

/-- Insertion into an empty place between the right neighbours. -/
theorem insertPlace {which : Side} {place : Context Ptr}
    (holds : Holds state elements (plug place .nil)) (order : IsOrder state.tree.avlCompar)
    (rep : Represents state which (plug place .nil)) (fresh : Fresh state.tree elements data)
    (straddles : Straddles (nodeDiff state.tree data) place) :
    Returns state (insert data elements)
      (avlInsert state data (mkindex (upParent 0 place) (upWhich which place))) := by
  obtain ⟨node_ne, aligned, distinct⟩ := fresh
  have absent : data2node state.tree data ∉ (plug place .nil).toList := by
    intro member
    exact distinct data ((holds.mem_iff data).mpr member) (order.self data)
  obtain ⟨state', inserted, rep', same, count⟩ :=
    avlInsert_spec rep holds.balanced holds.numnodes node_ne aligned absent
  refine ⟨state', insertAt place (data2node state.tree data), inserted, ?_, same⟩
  have list : (insertAt place (data2node state.tree data)).toList.map (node2data state'.tree) =
      (before place).map (node2data state.tree) ++
        data :: (after place).map (node2data state.tree) := by
    simp [toList_insertAt, same.node2data_eq]
  have old : (plug place .nil).toList.map (node2data state.tree) =
      (before place).map (node2data state.tree) ++ (after place).map (node2data state.tree) := by
    simp [toList_plug, toList]
  refine ⟨⟨which, rep'⟩, insertAt_balanced place _ holds.balanced, ?_, ?_, ?_⟩
  · have sorted := holds.sorted
    rw [old, List.pairwise_append] at sorted
    obtain ⟨sorted_before, sorted_after, crossing⟩ := sorted
    rw [list, same.compar, List.pairwise_append, List.pairwise_cons]
    refine ⟨sorted_before, ⟨?_, sorted_after⟩, ?_⟩
    · intro other member
      obtain ⟨node, inside, rfl⟩ := List.mem_map.mp member
      exact straddles.2 node inside
    · intro first first_mem second second_mem
      obtain ⟨node, inside, rfl⟩ := List.mem_map.mp first_mem
      rcases List.mem_cons.mp second_mem with rfl | second_mem
      · have positive := straddles.1 node inside
        have swapped := order.swap second (node2data state.tree node)
        simp only [nodeDiff] at positive
        omega
      · exact crossing _ first_mem _ second_mem
  · rw [count, holds.numnodes, toList_insertAt, toList_plug]
    simp only [toList, List.append_nil, List.length_append, List.length_cons, add_assoc]
  · rw [list, ← holds.elements_eq, old]
    ext other
    simp

theorem sorted_around {context : Context Ptr} {left right : BalTree Ptr} {balance : ℤ}
    (holds : Holds state elements
      (plug context (.node left (data2node state.tree here) balance right))) :
    (∀ node ∈ before context ++ left.toList,
        state.tree.avlCompar (node2data state.tree node) here < 0) ∧
      ∀ node ∈ right.toList ++ after context,
        state.tree.avlCompar here (node2data state.tree node) < 0 := by
  have sorted := holds.sorted
  have list : (plug context (.node left (data2node state.tree here) balance right)).toList =
      (before context ++ left.toList) ++ data2node state.tree here ::
        (right.toList ++ after context) := by
    simp [toList_plug, toList]
  rw [List.pairwise_map, list, List.pairwise_append, List.pairwise_cons] at sorted
  obtain ⟨-, ⟨above, -⟩, below⟩ := sorted
  refine ⟨fun node member => ?_, fun node member => ?_⟩
  · simpa using below node member _ List.mem_cons_self
  · simpa using above node member

section Fresh

variable (holds : Holds state elements tree) (order : IsOrder state.tree.avlCompar)
  (fresh : Fresh state.tree elements data)

include holds fresh

theorem search_fresh :
    (search (nodeDiff state.tree data) tree []).2 = .nil := by
  cases found : (search (nodeDiff state.tree data) tree []).2 with
  | nil => rfl
  | node left node balance right =>
    have equal := diff_search (nodeDiff state.tree data) tree [] (by rw [found]; rfl)
    have whole := plug_search (nodeDiff state.tree data) tree []
    have member : node ∈ tree.toList := by
      rw [show tree = plug [] tree from rfl, ← whole, found, mem_plug]
      simp [toList]
    exact (fresh.2.2 _ (holds.node2data_mem member) equal).elim

include order

/-- Insertion at the place where a search for the new element ends. -/
theorem insertFound {index : AvlIndex} (found : avlFind state data = some (.missing index)) :
    Returns state (insert data elements) (avlInsert state data index) := by
  obtain ⟨which, rep⟩ := holds.represents
  have missing := holds.search_fresh fresh
  have straddles := straddles_search (nodeDiff state.tree data) tree [] (holds.falling order data)
    ⟨by simp [before], by simp [after]⟩ missing
  have whole := plug_search (nodeDiff state.tree data) tree []
  rw [avlFind_spec data rep holds.numnodes, missing] at found
  rw [missing] at whole
  generalize (search (nodeDiff state.tree data) tree []).1 = place at straddles whole found
  obtain rfl : plug place .nil = tree := whole
  obtain rfl : mkindex (upParent 0 place) (upWhich .left place) = index := by
    simpa [findResult] using found
  cases place with
  | nil =>
    have empty : Represents state .left (plug [] .nil) := ⟨rep.root, trivial, rep.nodup⟩
    exact insertPlace holds order empty fresh straddles
  | cons frame place =>
    rw [show upWhich .left (frame :: place) = upWhich which (frame :: place) from rfl]
    exact insertPlace holds order rep fresh straddles

theorem addFresh : Returns state (insert data elements) (avlAdd state data) := by
  obtain ⟨which, rep⟩ := holds.represents
  obtain ⟨index, found⟩ : ∃ index, avlFind state data = some (.missing index) := by
    rw [avlFind_spec data rep holds.numnodes, holds.search_fresh fresh]
    exact ⟨_, rfl⟩
  simpa [avlAdd, found] using holds.insertFound order fresh found

/-- Insertion next to an element that the new one follows or precedes directly. -/
theorem insertAdjacent {direction : Side} (inside : here ∈ elements)
    (adjacent : Adjacent state.tree elements data here direction) :
    Returns state (insert data elements) (avlInsertHere state data here direction) := by
  obtain ⟨which, rep⟩ := holds.represents
  obtain ⟨context, left, balance, right, rfl⟩ := exists_plug ((holds.mem_iff here).mp inside)
  obtain ⟨below, above⟩ := holds.sorted_around
  have stored : ∀ node ∈ before context ++ left.toList ++ (right.toList ++ after context),
      node2data state.tree node ∈ elements := by
    intro node member
    refine holds.node2data_mem ?_
    simp only [toList_plug, toList, List.mem_append, List.mem_cons] at member ⊢
    tauto
  have before_new : ∀ node ∈ before context ++ left.toList,
      0 < nodeDiff state.tree data node := by
    intro node member
    have member' : node2data state.tree node ∈ elements :=
      stored node (List.mem_append_left _ member)
    have less : state.tree.avlCompar (node2data state.tree node) data < 0 := by
      cases direction with
      | left => exact adjacent.2 _ member' (below node member)
      | right => exact order.lt_of_lt_of_le (below node member) adjacent.1.le
    have swapped := order.swap (node2data state.tree node) data
    simp only [nodeDiff]
    omega
  have after_new : ∀ node ∈ right.toList ++ after context, nodeDiff state.tree data node < 0 := by
    intro node member
    have member' : node2data state.tree node ∈ elements :=
      stored node (List.mem_append_right _ member)
    cases direction with
    | left => exact order.lt_of_lt_of_le adjacent.1 (above node member).le
    | right => exact adjacent.2 _ member' (above node member)
  have here_diff : nodeDiff state.tree data (data2node state.tree here) =
      state.tree.avlCompar data here := by
    rw [nodeDiff, node2data_data2node]
  have length_eq := holds.numnodes
  simp only [toList_plug, toList, List.length_append, List.length_cons] at length_eq
  cases direction with
  | left =>
    have joined := rep
    obtain ⟨whole, before_eq, after_eq⟩ :=
      before_after_edge .left left right (data2node state.tree here) balance context
    have short := left.height_le_length
    rw [avlInsertHere_eq data joined (by omega)]
    refine insertPlace (whole ▸ holds) order (whole ▸ joined) fresh ⟨?_, ?_⟩
    · rw [before_eq]
      exact before_new
    · rw [after_eq]
      intro node member
      rcases List.mem_cons.mp member with rfl | member
      · rw [here_diff]
        exact adjacent.1
      · exact after_new node member
  | right =>
    have joined := rep
    obtain ⟨whole, before_eq, after_eq⟩ :=
      before_after_edge .right right left (data2node state.tree here) balance context
    have short := right.height_le_length
    rw [avlInsertHere_eq data joined (by omega)]
    refine insertPlace (whole ▸ holds) order (whole ▸ joined) fresh ⟨?_, ?_⟩
    · rw [before_eq, ← List.append_assoc]
      intro node member
      rcases List.mem_append.mp member with member | member
      · exact before_new node member
      · rw [List.mem_singleton.mp member, here_diff]
        have swapped := order.swap here data
        have less := adjacent.1
        omega
    · rw [after_eq]
      exact after_new

end Fresh

theorem removeElement {tmp : Ptr} (holds : Holds state elements tree) (inside : data ∈ elements)
    (tmp_ne : tmp ≠ 0) (tmp_aligned : Aligned tmp)
    (tmp_fresh : ∀ other ∈ elements, tmp ≠ data2node state.tree other) :
    Returns state (elements.erase data) (avlRemove state data tmp) := by
  obtain ⟨which, rep⟩ := holds.represents
  obtain ⟨context, left, balance, right, rfl⟩ := exists_plug ((holds.mem_iff data).mp inside)
  have absent : tmp ∉
      (plug context (.node left (data2node state.tree data) balance right)).toList := by
    intro member
    exact tmp_fresh _ (holds.node2data_mem member) (data2node_node2data _ _).symm
  obtain ⟨state', removed, rep', same, count⟩ :=
    avlRemove_spec rep holds.balanced holds.numnodes tmp_ne tmp_aligned absent
  refine ⟨state', removeAt context (.node left (data2node state.tree data) balance right), removed,
    ?_, same⟩
  have list : (removeAt context (.node left (data2node state.tree data) balance right)).toList =
      (before context ++ left.toList) ++ (right.toList ++ after context) := by
    simp [toList_removeAt]
  have old : (plug context (.node left (data2node state.tree data) balance right)).toList =
      (before context ++ left.toList) ++ data2node state.tree data ::
        (right.toList ++ after context) := by
    simp [toList_plug, toList]
  refine ⟨⟨which, rep'⟩, removeAt_balanced _ _ _ _ _ holds.balanced, ?_, ?_, ?_⟩
  · have sorted := holds.sorted
    rw [list, same.node2data_eq, same.compar]
    rw [old] at sorted
    exact sorted.sublist (((List.sublist_cons_self _ _).append_left _).map _)
  · rw [count, holds.numnodes, list, old]
    simp
    omega
  · have nodup := rep.nodup
    rw [old, List.nodup_middle, List.nodup_cons] at nodup
    rw [list, same.node2data_eq, ← holds.elements_eq, old]
    ext other
    have injective : data2node state.tree other = data2node state.tree data ↔ other = data := by
      refine ⟨fun same => ?_, fun same => by rw [same]⟩
      rw [← node2data_data2node state.tree other, same, node2data_data2node]
    simp only [Finset.mem_erase, List.mem_toFinset, mem_map_node2data, List.mem_append,
      List.mem_cons, injective] at nodup ⊢
    grind

end Holds

theorem step_holds {state : State} {elements : Finset Ptr} {tree : BalTree Ptr} {op : Op}
    (holds : Holds state elements tree) (order : IsOrder state.tree.avlCompar)
    (legal : Legal state elements op) :
    Returns state (elementsAfter elements op) (step state op) := by
  cases op with
  | add data => exact holds.addFresh order legal
  | insert data index => exact holds.insertFound order legal.1 legal.2
  | insertHere data here direction => exact holds.insertAdjacent order legal.1 legal.2.1 legal.2.2
  | remove data tmp => exact holds.removeElement legal.1 legal.2.1 legal.2.2.1 legal.2.2.2

theorem run_holds (ops : List Op) {state : State} {elements : Finset Ptr} {tree : BalTree Ptr}
    (holds : Holds state elements tree) (order : IsOrder state.tree.avlCompar)
    (legal : LegalRun state elements ops) :
    Returns state (ops.foldl elementsAfter elements) (run state ops) := by
  induction ops generalizing state elements tree with
  | nil => exact ⟨state, tree, rfl, holds, rfl, rfl⟩
  | cons op ops ih =>
    obtain ⟨legal_op, legal_rest⟩ := legal
    obtain ⟨next, next_tree, stepped, next_holds, same⟩ := step_holds holds order legal_op
    obtain ⟨state', tree', ran, holds', same'⟩ :=
      ih next_holds (same.compar ▸ order) (legal_rest next stepped)
    refine ⟨state', tree', ?_, holds', same.trans same'⟩
    rw [run, stepped]
    exact ran

/-- A comparison routine for elements ordered by their address. -/
def compareAddress (first second : Ptr) : ℤ :=
  if first.toNat < second.toNat then -1 else if second.toNat < first.toNat then 1 else 0

theorem compareAddress_isOrder : IsOrder compareAddress := by
  refine ⟨fun first second => ?_, fun first second => ?_, fun first second third => ?_⟩ <;>
    simp only [compareAddress, SmallBalance] <;> grind

theorem LegalRun.cons {state : State} {elements : Finset Ptr} {tree : BalTree Ptr} {op : Op}
    {ops : List Op} (holds : Holds state elements tree) (order : IsOrder state.tree.avlCompar)
    (legal : Legal state elements op)
    (rest : ∀ state' tree', Holds state' (elementsAfter elements op) tree' →
      SameOrder state.tree state'.tree → LegalRun state' (elementsAfter elements op) ops) :
    LegalRun state elements (op :: ops) := by
  refine ⟨legal, fun state' stepped => ?_⟩
  obtain ⟨next, tree', stepped', holds', same⟩ := step_holds holds order legal
  obtain rfl : next = state' := Option.mem_unique stepped' stepped
  exact rest next tree' holds' same

/-- A sorted list of the elements is the order of the tree. -/
theorem Holds.toList_eq {state : State} {elements : Finset Ptr} {tree : BalTree Ptr}
    {list : List Ptr}
    (holds : Holds state elements tree) (order : IsOrder state.tree.avlCompar)
    (sorted : list.Pairwise fun first second => state.tree.avlCompar first second < 0)
    (same : list.toFinset = elements) : tree.toList.map (node2data state.tree) = list := by
  have apart : ∀ {first second : Ptr}, state.tree.avlCompar first second < 0 → first ≠ second := by
    rintro first _ less rfl
    exact less.ne (order.self first)
  have perm : (tree.toList.map (node2data state.tree)).Perm list :=
    List.perm_of_nodup_nodup_toFinset_eq (holds.sorted.imp apart) (sorted.imp apart)
      (holds.elements_eq.trans same.symm)
  refine perm.eq_of_pairwise (fun first second _ _ less greater => ?_) holds.sorted sorted
  have swapped := order.swap first second
  omega

theorem holds_avlCreate (compar : Ptr → Ptr → ℤ) (offset : Ptr) (heap : Heap) :
    Holds ⟨avlCreate compar offset, heap⟩ ∅ .nil :=
  ⟨⟨.left, rfl, trivial, .nil⟩, trivial, .nil, rfl, rfl⟩

/-- Every sequence of legal calls on a new tree leaves a sorted, balanced and linked tree of the
elements that were inserted and not removed. -/
theorem avl_run_correct (compar : Ptr → Ptr → ℤ) (offset : Ptr) (heap : Heap) (ops : List Op)
    (order : IsOrder compar) (legal : LegalRun ⟨avlCreate compar offset, heap⟩ ∅ ops) :
    ∃ state tree, run ⟨avlCreate compar offset, heap⟩ ops = some state ∧
    Holds state (ops.foldl elementsAfter ∅) tree ∧ state.tree.avlCompar = compar := by
  obtain ⟨state, tree, ran, holds, same⟩ :=
    run_holds ops (holds_avlCreate compar offset heap) order legal
  exact ⟨state, tree, ran, holds, same.compar⟩

/-- A tree with no elements. -/
abbrev emptyState : State := ⟨avlCreate compareAddress 0, fun _ => ⟨fun _ => 0, 0⟩⟩

/-- Three elements are added with a double rotation. -/
theorem legalRun_three {ops : List Op}
    (rest : ∀ state, SameOrder emptyState.tree state.tree →
      LegalRun state ([Op.add 8, .add 24, .add 16].foldl elementsAfter ∅) ops) :
    LegalRun emptyState ∅ (.add 8 :: .add 24 :: .add 16 :: ops) := by
  refine .cons (holds_avlCreate _ _ _) compareAddress_isOrder ⟨by decide, by decide, by simp⟩ ?_
  intro s₁ t₁ holds₁ same₁
  refine .cons holds₁ (same₁.compar ▸ compareAddress_isOrder) ?_ ?_
  · simp [Legal, Fresh, data2node, same₁.compar, same₁.offset, elementsAfter, Aligned, avlCreate,
      compareAddress]
  intro s₂ t₂ holds₂ same₂
  replace same₂ := same₁.trans same₂
  refine .cons holds₂ (same₂.compar ▸ compareAddress_isOrder) ?_ ?_
  · simp [Legal, Fresh, data2node, same₂.compar, same₂.offset, elementsAfter, Aligned, avlCreate,
      compareAddress]
  intro s₃ t₃ holds₃ same₃
  exact rest s₃ (same₂.trans same₃)

/-- Three elements are added, and the root is removed again. -/
theorem avl_run_add_rotate_remove :
    ∃ state tree, run emptyState [.add 8, .add 24, .add 16, .remove 16 1024] = some state ∧
      Holds state {8, 24} tree ∧ state.tree.avlCompar = compareAddress := by
  have remaining : ({8, 24} : Finset Ptr) =
      [Op.add 8, .add 24, .add 16, .remove 16 1024].foldl elementsAfter ∅ := by decide
  rw [remaining]
  refine avl_run_correct compareAddress 0 _ _ compareAddress_isOrder
    (legalRun_three fun state same => ⟨?_, fun _ _ => trivial⟩)
  simp [Legal, data2node, same.offset, elementsAfter, Aligned, avlCreate]

end Zfs.Avl
