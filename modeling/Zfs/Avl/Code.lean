import Zfs.Avl.Node

/-!
# The AVL tree routines of `avl.c`

The routines work on a memory of nodes and on the tree header.  Loops that follow pointers are
recursions on a step bound taken from `avl_numnodes`; they return `none` when the bound is used up,
which never happens, or in a failed `ASSERT(0)`.
-/

set_option linter.constructorNameAsVariable false

namespace Zfs.Avl

open BalancedTree

/-- Memory, read at the address of a node. -/
abbrev Heap := Ptr → AvlNode

structure AvlTree where
  avlRoot : Ptr
  /-- The comparison of two elements. -/
  avlCompar : Ptr → Ptr → ℤ
  /-- Where the node is in an element. -/
  avlOffset : Ptr
  avlNumnodes : ℕ

/-- A tree header together with the memory it lives in. -/
structure State where
  /-- The header. -/
  tree : AvlTree
  /-- The nodes. -/
  heap : Heap

/-- An insertion point: a node address with a child index. -/
abbrev AvlIndex := BitVec 64

def mkindex (node : Ptr) (child : Side) : AvlIndex := node ||| childIndex child

def index2node (index : AvlIndex) : Ptr := index &&& ~~~1#64

def index2child (index : AvlIndex) : Side := if index &&& 1#64 = 0 then .left else .right

def data2node (tree : AvlTree) (data : Ptr) : Ptr := data + tree.avlOffset

def node2data (tree : AvlTree) (node : Ptr) : Ptr := node - tree.avlOffset

namespace State

/-- Change one node in memory. -/
def modify (state : State) (node : Ptr) (change : AvlNode → AvlNode) : State :=
  { state with heap := Function.update state.heap node (change (state.heap node)) }

/-- Hang a node below `parent`, or make it the root. -/
def link (state : State) (parent : Ptr) (which : Side) (node : Ptr) : State :=
  if parent ≠ 0 then
    state.modify parent (·.putchild which node)
  else
    { state with tree := { state.tree with avlRoot := node } }

/-- Set the parent and the child index of a node that may be null. -/
def attach (state : State) (node parent : Ptr) (which : Side) : State :=
  if node ≠ 0 then
    (state.modify node (·.setparent parent)).modify node (·.setchild which)
  else
    state

end State

/-- `avl_balance2child[1 + diff]`. -/
def balance2child (diff : ℤ) : Side := if diff ≤ 0 then .left else .right

def avlCreate (compar : Ptr → Ptr → ℤ) (offset : Ptr) : AvlTree :=
  { avlRoot := 0, avlCompar := compar, avlOffset := offset, avlNumnodes := 0 }

/-- The user structure found, or the insertion point. -/
inductive FindResult where
  | found (data : Ptr)
  | missing (index : AvlIndex)
  deriving DecidableEq, Repr

/-- The descent of `avl_find`. -/
def avlFindLoop (state : State) (value : Ptr) : ℕ → Ptr → Ptr → Side → Option FindResult
  | 0, _, _, _ => none
  | fuel + 1, node, prev, child =>
    if node = 0 then
      some (.missing (mkindex prev child))
    else
      let diff := state.tree.avlCompar value (node2data state.tree node)
      if diff = 0 then
        some (.found (node2data state.tree node))
      else
        let child := balance2child diff
        avlFindLoop state value fuel ((state.heap node).avlChild child) node child

variable (state : State) (node : Ptr)

def avlFind (value : Ptr) : Option FindResult :=
  avlFindLoop state value (state.tree.avlNumnodes + 1) state.tree.avlRoot 0 .left

/-- Case 1 of `avl_rotation`: `child` becomes the root. -/
def avlRotationSingle (child parent : Ptr) (left whichChild : Side) (childBal : ℤ) : State × Bool :=
  let right := left.other
  let cright := (state.heap child).avlChild right
  let state := state.modify node (·.putchild left cright)
  let state := state.attach cright node left
  let state := state.modify child (·.putchild right node)
  let state := state.modify node (·.setbalance (-childBal))
  let state := state.modify node (·.setchild right)
  let state := state.modify node (·.setparent child)
  let state := state.modify child (·.setbalance childBal)
  let state := state.modify child (·.setchild whichChild)
  let state := state.modify child (·.setparent parent)
  (state.link parent whichChild child, childBal = 0)

/-- Case 2 of `avl_rotation`: the inner grandchild becomes the root. -/
def avlRotationDouble (child parent : Ptr) (left whichChild : Side) (leftHeavy : ℤ) :
    State × Bool :=
  let right := left.other
  let rightHeavy := -leftHeavy
  let gchild := (state.heap child).avlChild right
  let gleft := (state.heap gchild).avlChild left
  let gright := (state.heap gchild).avlChild right
  let state := state.modify node (·.putchild left gright)
  let state := state.attach gright node left
  let state := state.modify child (·.putchild right gleft)
  let state := state.attach gleft child right
  let balance := (state.heap gchild).xbalance
  let state := state.modify gchild (·.putchild left child)
  let state := state.modify child (·.setbalance (if balance = rightHeavy then leftHeavy else 0))
  let state := state.modify child (·.setparent gchild)
  let state := state.modify child (·.setchild left)
  let state := state.modify gchild (·.putchild right node)
  let state := state.modify node (·.setbalance (if balance = leftHeavy then rightHeavy else 0))
  let state := state.modify node (·.setparent gchild)
  let state := state.modify node (·.setchild right)
  let state := state.modify gchild (·.setbalance 0)
  let state := state.modify gchild (·.setparent parent)
  let state := state.modify gchild (·.setchild whichChild)
  (state.link parent whichChild gchild, true)

/-- `avl_rotation`; the flag tells whether the subtree becomes shorter. -/
def avlRotation (balance : ℤ) : State × Bool :=
  let left : Side := if balance < 0 then .left else .right
  let leftHeavy := balance >>> (1 : ℕ)
  let rightHeavy := -leftHeavy
  let parent := (state.heap node).xparent
  let child := (state.heap node).avlChild left
  let whichChild := (state.heap node).xchild
  let childBal := (state.heap child).xbalance
  if childBal ≠ rightHeavy then
    avlRotationSingle state node child parent left whichChild (childBal + rightHeavy)
  else
    avlRotationDouble state node child parent left whichChild leftHeavy

/-- The climb of `avl_insert`, with one rotation at most. -/
def avlInsertLoop : ℕ → State → Ptr → Side → Option State
  | 0, _, _, _ => none
  | fuel + 1, state, node, whichChild =>
    if node = 0 then
      some state
    else
      let oldBalance := (state.heap node).xbalance
      let newBalance := oldBalance + whichChild.weight
      if newBalance = 0 then
        some (state.modify node (·.setbalance 0))
      else if oldBalance ≠ 0 then
        some (avlRotation state node newBalance).1
      else
        let state := state.modify node (·.setbalance newBalance)
        avlInsertLoop fuel state (state.heap node).xparent (state.heap node).xchild

def avlInsert (newData : Ptr) (index : AvlIndex) : Option State :=
  let node := data2node state.tree newData
  let parent := index2node index
  let whichChild := index2child index
  let state : State :=
    { state with tree := { state.tree with avlNumnodes := state.tree.avlNumnodes + 1 } }
  let state := state.modify node (·.putchild .left 0)
  let state := state.modify node (·.putchild .right 0)
  let state := state.modify node (·.setchild whichChild)
  let state := state.modify node (·.setbalance 0)
  let state := state.modify node (·.setparent parent)
  let state := state.link parent whichChild node
  avlInsertLoop (state.tree.avlNumnodes + 1) state parent whichChild

/-- A child link to its end, in `avl_insert_here` and `avl_remove`. -/
def walkDown (heap : Heap) (side : Side) : ℕ → Ptr → Option Ptr
  | 0, _ => none
  | fuel + 1, node =>
    if (heap node).avlChild side ≠ 0 then
      walkDown heap side fuel ((heap node).avlChild side)
    else
      some node

def avlInsertHere (newData here : Ptr) (direction : Side) : Option State :=
  let node := data2node state.tree here
  let neighbour := (state.heap node).avlChild direction
  if neighbour ≠ 0 then do
    let node ← walkDown state.heap direction.other (state.tree.avlNumnodes + 1) neighbour
    avlInsert state newData (mkindex node direction.other)
  else
    avlInsert state newData (mkindex node direction)

def avlAdd (newNode : Ptr) : Option State := do
  match ← avlFind state newNode with
  | .found _ => none
  | .missing index => avlInsert state newNode index

/-- The climb of `avl_remove`, rotating as needed. -/
def avlRemoveLoop : ℕ → State → Ptr → Side → Option State
  | 0, _, _, _ => none
  | fuel + 1, state, node, whichChild =>
    if node = 0 then
      some state
    else
      let oldBalance := (state.heap node).xbalance
      let newBalance := oldBalance - whichChild.weight
      let parent := (state.heap node).xparent
      let which := (state.heap node).xchild
      if oldBalance = 0 then
        some (state.modify node (·.setbalance newBalance))
      else if newBalance = 0 then
        avlRemoveLoop fuel (state.modify node (·.setbalance newBalance)) parent which
      else
        let rotated := avlRotation state node newBalance
        if rotated.2 then
          avlRemoveLoop fuel rotated.1 parent which
        else
          some rotated.1

/-- In `avl_remove`, `node` replaces `delete`, and `tmp` replaces `node`. -/
def avlSwap (delete node tmp : Ptr) (left : Side) : State :=
  let right := left.other
  let state := state.modify tmp fun _ => state.heap node
  let state := state.modify node fun _ => state.heap delete
  let state :=
    if (state.heap node).avlChild left = node then
      state.modify node (·.putchild left tmp)
    else
      state
  let state := state.link (state.heap node).xparent (state.heap node).xchild node
  let state := state.modify ((state.heap node).avlChild left) (·.setparent node)
  let state := state.modify ((state.heap node).avlChild right) (·.setparent node)
  let parent := (state.heap tmp).xparent
  let state := state.modify parent (·.putchild (state.heap tmp).xchild tmp)
  let which : Side := if (state.heap tmp).avlChild .right ≠ 0 then .right else .left
  if (state.heap tmp).avlChild which ≠ 0 then
    state.modify ((state.heap tmp).avlChild which) (·.setparent tmp)
  else
    state

/-- The first half of `avl_remove` for a node with two children. -/
def avlSwapOut (delete tmp : Ptr) : Option State := do
  let left := balance2child (state.heap delete).xbalance
  let right := left.other
  let node ← walkDown state.heap right (state.tree.avlNumnodes + 1)
    ((state.heap delete).avlChild left)
  some (avlSwap state delete node tmp left)

/-- Cut out a node with at most one child, in `avl_remove`. -/
def avlCutOut (delete : Ptr) : Option State :=
  let state : State :=
    { state with tree := { state.tree with avlNumnodes := state.tree.avlNumnodes - 1 } }
  let parent := (state.heap delete).xparent
  let whichChild := (state.heap delete).xchild
  let node :=
    if (state.heap delete).avlChild .left ≠ 0 then
      (state.heap delete).avlChild .left
    else
      (state.heap delete).avlChild .right
  let state := state.attach node parent whichChild
  let state := state.link parent whichChild node
  avlRemoveLoop (state.tree.avlNumnodes + 1) state parent whichChild

/-- `avl_remove`; `tmp` is the address of its local placeholder node. -/
def avlRemove (data tmp : Ptr) : Option State :=
  let delete := data2node state.tree data
  if (state.heap delete).avlChild .left ≠ 0 ∧ (state.heap delete).avlChild .right ≠ 0 then do
    let state ← avlSwapOut state delete tmp
    avlCutOut state tmp
  else
    avlCutOut state delete

end Zfs.Avl
