import Mathlib.Tactic

/-!
# Height-balanced trees with contexts

Binary trees that store, at every node, the height difference of its two children.  A context is the
list of frames from a hole up to the root.  Every operation is specified by what it does to the
in-order list, and separately by what it does to the stored balances.
-/

namespace BalancedTree

open List

/-- The two children of a node. -/
inductive Side where
  | left
  | right
  deriving DecidableEq, Repr

namespace Side

/-- The opposite child. -/
def other : Side → Side
  | left => right
  | right => left

/-- Contribution of one extra level on a side to the stored balance. -/
def weight : Side → ℤ
  | left => -1
  | right => 1

variable (side : Side)

@[simp] theorem other_other : side.other.other = side := by
  cases side <;> rfl

@[simp] theorem weight_other : side.other.weight = -side.weight := by
  cases side <;> rfl

theorem other_ne : side.other ≠ side := by
  cases side <;> decide

theorem weight_cases : side.weight = -1 ∨ side.weight = 1 := by
  cases side <;> simp [weight]

theorem weight_ne : side.weight ≠ 0 := by
  cases side <;> decide

end Side

/-- A binary tree whose nodes carry a value and a stored balance. -/
inductive BalTree (α : Type*) where
  | nil
  | node (left : BalTree α) (value : α) (balance : ℤ) (right : BalTree α)
  deriving DecidableEq, Repr

namespace BalTree

variable {α : Type*}

/-- In-order sequence of the stored values. -/
def toList : BalTree α → List α
  | nil => []
  | node left value _ right => left.toList ++ value :: right.toList

/-- Post-order sequence of the stored values. -/
def postorder : BalTree α → List α
  | nil => []
  | node left value _ right => left.postorder ++ right.postorder ++ [value]

theorem postorder_perm (tree : BalTree α) : tree.postorder.Perm tree.toList := by
  induction tree with
  | nil => exact .nil
  | node left value balance right ihl ihr =>
    simp only [postorder, toList, append_assoc]
    exact ihl.append ((ihr.append_right [value]).trans perm_append_comm)

variable {tree : BalTree α} {value : α}

theorem mem_postorder :
    value ∈ tree.postorder ↔ value ∈ tree.toList := tree.postorder_perm.mem_iff

/-- Number of nodes on the longest path to a leaf. -/
def height : BalTree α → ℕ
  | nil => 0
  | node left _ _ right => max left.height right.height + 1

/-- Every stored balance is the height difference, at most one in size. -/
def Balanced : BalTree α → Prop
  | nil => True
  | node left _ balance right =>
    left.Balanced ∧ right.Balanced ∧
      balance = (right.height : ℤ) - left.height ∧ -1 ≤ balance ∧ balance ≤ 1

variable (diff : α → ℤ) (side : Side) (outer near far : BalTree α)

/-- A node from the child on a side and the one opposite. -/
def join (value : α) (balance : ℤ) (far : BalTree α) : BalTree α :=
  match side with
  | .left => node near value balance far
  | .right => node far value balance near

/-- The values of two subtrees and a root, in tree order. -/
def arrange (near : List α) (value : α) (far : List α) : List α :=
  match side with
  | .left => near ++ value :: far
  | .right => far ++ value :: near

@[simp] theorem toList_join (value : α) (balance : ℤ) :
    (join side near value balance far).toList = arrange side near.toList value far.toList := by
  cases side <;> rfl

@[simp] theorem height_join (value : α) (balance : ℤ) :
    (join side near value balance far).height = max near.height far.height + 1 := by
  cases side
  · rfl
  · simp [join, height, max_comm]

theorem balanced_join (value : α) (balance : ℤ) :
    (join side near value balance far).Balanced ↔
      near.Balanced ∧ far.Balanced ∧
      balance = side.weight * ((near.height : ℤ) - far.height) ∧ -1 ≤ balance ∧ balance ≤ 1 := by
  cases side with
  | left => simp [join, Balanced, Side.weight]
  | right =>
    simp only [join, Balanced, Side.weight, one_mul]
    tauto

theorem join_other (value : α) (balance : ℤ) :
    join side.other near value balance far = join side far value balance near := by
  cases side <;> rfl

theorem exists_join (nonempty : tree ≠ nil) :
    ∃ near value balance far, tree = join side near value balance far := by
  cases tree with
  | nil => exact (nonempty rfl).elim
  | node left value balance right =>
    cases side with
    | left => exact ⟨left, value, balance, right, rfl⟩
    | right => exact ⟨right, value, balance, left, rfl⟩

/-- Induction along one side of a tree. -/
@[elab_as_elim] theorem joinRec {motive : BalTree α → Prop} (nil : motive nil)
    (join : ∀ near value balance far, motive near → motive (join side near value balance far))
    (tree : BalTree α) : motive tree := by
  induction tree with
  | nil => exact nil
  | node left value balance right ihl ihr =>
    cases side with
    | left => exact join left value balance right ihl
    | right => exact join right value balance left ihr

theorem height_le_length (tree : BalTree α) : tree.height ≤ tree.toList.length := by
  induction tree with
  | nil => simp [height]
  | node left value balance right ihl ihr =>
    simp only [height, toList, length_append, length_cons]
    omega

theorem Balanced.two_pow_height_le (balanced : tree.Balanced) :
    2 ^ (tree.height / 2) ≤ tree.toList.length + 1 := by
  induction tree with
  | nil => simp [height]
  | node left value balance right ihl ihr =>
    obtain ⟨left_balanced, right_balanced, balance_eq, lower, upper⟩ := balanced
    have left_le := ihl left_balanced
    have right_le := ihr right_balanced
    simp only [height, toList, length_append, length_cons]
    by_cases low : max left.height right.height = 0
    · simp [low]
    · have half : (max left.height right.height + 1) / 2 =
          (max left.height right.height - 1) / 2 + 1 := by omega
      have left_pow := Nat.pow_le_pow_right two_pos
        (by omega : (max left.height right.height - 1) / 2 ≤ left.height / 2)
      have right_pow := Nat.pow_le_pow_right two_pos
        (by omega : (max left.height right.height - 1) / 2 ≤ right.height / 2)
      rw [half, pow_succ]
      omega

theorem ne_nil_of_height_pos (positive : 0 < tree.height) : tree ≠ nil := by
  rintro rfl
  simp [height] at positive

theorem height_eq_zero : tree.height = 0 ↔ tree = nil := by
  cases tree <;> simp [height]

/-- Read a subtree as a join on a chosen side. -/
def split : BalTree α → Option (BalTree α × α × ℤ × BalTree α)
  | nil => none
  | node left value balance right =>
    match side with
    | .left => some (left, value, balance, right)
    | .right => some (right, value, balance, left)

@[simp] theorem split_nil : split side (nil : BalTree α) = none := rfl

@[simp] theorem split_join (value : α) (balance : ℤ) :
    split side (join side near value balance far) = some (near, value, balance, far) := by
  cases side <;> rfl

/-- Rebuild a node with a child too tall; does it become shorter? -/
def rotate (value : α) (far : BalTree α) : BalTree α × Bool :=
  match split side near with
  | none => (join side near value 0 far, false)
  | some (outer, child, childBalance, inner) =>
    if childBalance ≠ side.other.weight then
      let balance := childBalance + side.other.weight
      (join side outer child balance (join side inner value (-balance) far), balance = 0)
    else
      match split side inner with
      | none => (join side near value 0 far, false)
      | some (gnear, gchild, gbalance, gfar) =>
        (join side
          (join side outer child (if gbalance = side.other.weight then side.weight else 0) gnear)
          gchild 0
          (join side gfar value (if gbalance = side.weight then side.other.weight else 0) far),
          true)

theorem rotate_single {side : Side} {childBalance : ℤ} (child : α) (inner : BalTree α)
    (value : α) (far : BalTree α) (single : childBalance ≠ side.other.weight) :
    rotate side (join side outer child childBalance inner) value far =
      (join side outer child (childBalance + side.other.weight)
        (join side inner value (-(childBalance + side.other.weight)) far),
        decide (childBalance + side.other.weight = 0)) := by
  simp only [rotate, split_join, ne_eq, single, not_false_eq_true, if_true]

theorem rotate_double (child : α) (gnear : BalTree α) (gchild : α) (gbalance : ℤ)
    (gfar : BalTree α) (value : α) (far : BalTree α) :
    rotate side (join side outer child side.other.weight (join side gnear gchild gbalance gfar))
        value far =
      (join side
        (join side outer child (if gbalance = side.other.weight then side.weight else 0) gnear)
        gchild 0
        (join side gfar value (if gbalance = side.weight then side.other.weight else 0) far),
        true) := by
  simp only [rotate, split_join, ne_eq, not_true_eq_false, if_false]

theorem toList_rotate (value : α) (far : BalTree α) :
    (rotate side near value far).1.toList = arrange side near.toList value far.toList := by
  by_cases near_nil : near = nil
  · simp [rotate, near_nil]
  obtain ⟨outer, child, childBalance, inner, rfl⟩ := exists_join side near_nil
  by_cases double : childBalance = side.other.weight
  · subst childBalance
    by_cases inner_nil : inner = nil
    · simp [rotate, inner_nil]
    obtain ⟨gnear, gchild, gbalance, gfar, rfl⟩ := exists_join side inner_nil
    rw [rotate_double]
    cases side <;> simp [arrange]
  · rw [rotate_single _ _ _ _ _ double]
    cases side <;> simp [arrange]

/-- The root balance is nonzero. -/
def Lopsided : BalTree α → Prop
  | nil => False
  | node _ _ balance _ => balance ≠ 0

theorem lopsided_join (value : α) (balance : ℤ) :
    (join side near value balance far).Lopsided ↔ balance ≠ 0 := by
  cases side <;> rfl

/-- A rotation of a subtree with a near child too tall restores every balance. -/
theorem rotate_balanced {near far : BalTree α} (value : α) (near_balanced : near.Balanced)
    (far_balanced : far.Balanced) (tall : near.height = far.height + 2) :
    (rotate side near value far).1.Balanced ∧
    (rotate side near value far).1.height =
      (if (rotate side near value far).2 then far.height + 2 else far.height + 3) ∧
    (near.Lopsided → (rotate side near value far).2 = true) := by
  obtain ⟨outer, child, childBalance, inner, rfl⟩ :=
    exists_join side (ne_nil_of_height_pos (by omega) : near ≠ nil)
  obtain ⟨outer_balanced, inner_balanced, childBalance_eq, lower, upper⟩ :=
    (balanced_join _ _ _ _ _).mp near_balanced
  simp only [height_join] at tall
  by_cases double : childBalance = side.other.weight
  · -- The inner grandchild is the tall one, so it exists and becomes the new root.
    have inner_height : inner.height = outer.height + 1 := by
      rcases side.weight_cases with weight | weight <;>
        simp only [double, Side.weight_other, weight] at childBalance_eq <;> omega
    obtain ⟨gnear, gchild, gbalance, gfar, rfl⟩ :=
      exists_join side (ne_nil_of_height_pos (by omega) : inner ≠ nil)
    obtain ⟨gnear_balanced, gfar_balanced, gbalance_eq, glower, gupper⟩ :=
      (balanced_join _ _ _ _ _).mp inner_balanced
    simp only [height_join] at inner_height tall
    rw [double, rotate_double]
    simp only [if_true, balanced_join, height_join, gnear_balanced, gfar_balanced,
      outer_balanced, far_balanced, true_and, Side.weight_other, implies_true, and_true]
    rcases side.weight_cases with weight | weight <;>
      simp only [weight] at gbalance_eq ⊢ <;> (split_ifs <;> omega)
  · rw [rotate_single _ _ _ _ _ double]
    simp only [balanced_join, height_join, outer_balanced, inner_balanced, far_balanced,
      true_and, Side.weight_other, decide_eq_true_eq, lopsided_join]
    rcases side.weight_cases with weight | weight <;>
      simp only [weight, Side.weight_other] at childBalance_eq double ⊢ <;> (split_ifs <;> omega)

/-- One step from a subtree to its parent. -/
structure Frame (α : Type*) where
  /-- The side the subtree is on. -/
  side : Side
  /-- The value of the parent. -/
  value : α
  /-- The balance of the parent. -/
  balance : ℤ
  sibling : BalTree α
  deriving DecidableEq, Repr

/-- The frames from a hole up to the root, innermost first. -/
abbrev Context (α : Type*) := List (Frame α)

/-- Fill the hole of a single frame. -/
def Frame.fill (frame : Frame α) (tree : BalTree α) : BalTree α :=
  join frame.side tree frame.value frame.balance frame.sibling

/-- Fill the hole of a context. -/
def plug : Context α → BalTree α → BalTree α
  | [], tree => tree
  | frame :: context, tree => plug context (frame.fill tree)

/-- Values to the left of the hole. -/
def before : Context α → List α
  | [] => []
  | frame :: context =>
    before context ++
      match frame.side with
      | .left => []
      | .right => frame.sibling.toList ++ [frame.value]

/-- Values to the right of the hole. -/
def after : Context α → List α
  | [] => []
  | frame :: context =>
    (match frame.side with
      | .left => frame.value :: frame.sibling.toList
      | .right => []) ++ after context

theorem toList_plug (context : Context α) (tree : BalTree α) :
    (plug context tree).toList = before context ++ tree.toList ++ after context := by
  induction context generalizing tree with
  | nil => simp [plug, before, after]
  | cons frame context ih =>
    rw [plug, ih, Frame.fill, toList_join]
    cases side_eq : frame.side <;> simp [arrange, before, after, side_eq]

theorem plug_append (inner outer : Context α) (tree : BalTree α) :
    plug (inner ++ outer) tree = plug outer (plug inner tree) := by
  induction inner generalizing tree with
  | nil => rfl
  | cons frame inner ih => exact ih (frame.fill tree)

/-- A subtree of the given height leaves every stored balance right. -/
def Fits : Context α → ℕ → Prop
  | [], _ => True
  | frame :: context, height =>
    frame.sibling.Balanced ∧
      frame.balance = frame.side.weight * ((height : ℤ) - frame.sibling.height) ∧
      -1 ≤ frame.balance ∧ frame.balance ≤ 1 ∧
      Fits context (max height frame.sibling.height + 1)

theorem balanced_plug (context : Context α) (tree : BalTree α) :
    (plug context tree).Balanced ↔ tree.Balanced ∧ Fits context tree.height := by
  induction context generalizing tree with
  | nil => simp [plug, Fits]
  | cons frame context ih =>
    rw [plug, ih, Frame.fill, balanced_join, height_join, Fits]
    tauto

theorem height_plug (context : Context α) {tree' : BalTree α} (same : tree.height = tree'.height) :
    (plug context tree).height = (plug context tree').height := by
  induction context generalizing tree tree' with
  | nil => exact same
  | cons frame context ih =>
    refine ih ?_
    rw [Frame.fill, Frame.fill, height_join, height_join, same]

/-- Restore the balances above a subtree that grew by one level. -/
def retraceInsert : Context α → BalTree α → BalTree α
  | [], tree => tree
  | frame :: context, tree =>
    let balance := frame.balance + frame.side.weight
    if balance = 0 then
      plug context (join frame.side tree frame.value 0 frame.sibling)
    else if frame.balance ≠ 0 then
      plug context (rotate frame.side tree frame.value frame.sibling).1
    else
      retraceInsert context (join frame.side tree frame.value balance frame.sibling)

/-- Restore the balances above a subtree that shrank by one level. -/
def retraceRemove : Context α → BalTree α → BalTree α
  | [], tree => tree
  | frame :: context, tree =>
    let balance := frame.balance - frame.side.weight
    if frame.balance = 0 then
      plug context (join frame.side tree frame.value balance frame.sibling)
    else if balance = 0 then
      retraceRemove context (join frame.side tree frame.value 0 frame.sibling)
    else
      match rotate frame.side.other frame.sibling frame.value tree with
      | (rotated, true) => retraceRemove context rotated
      | (rotated, false) => plug context rotated

theorem arrange_other (near : List α) (value : α) (far : List α) :
    arrange side.other near value far = arrange side far value near := by
  cases side <;> rfl

theorem toList_retraceInsert (context : Context α) (tree : BalTree α) :
    (retraceInsert context tree).toList = before context ++ tree.toList ++ after context := by
  rw [← toList_plug]
  induction context generalizing tree with
  | nil => rfl
  | cons frame context ih =>
    simp only [retraceInsert, plug]
    split_ifs
    · simp [toList_plug, Frame.fill]
    · simp [toList_plug, toList_rotate, Frame.fill]
    · rw [ih]
      simp [toList_plug, Frame.fill]

theorem toList_retraceRemove (context : Context α) (tree : BalTree α) :
    (retraceRemove context tree).toList = before context ++ tree.toList ++ after context := by
  rw [← toList_plug]
  induction context generalizing tree with
  | nil => rfl
  | cons frame context ih =>
    have rotated := toList_rotate frame.side.other frame.sibling frame.value tree
    rw [arrange_other] at rotated
    simp only [retraceRemove, plug]
    split_ifs
    · simp [toList_plug, Frame.fill]
    · rw [ih]
      simp [toList_plug, Frame.fill]
    · split
      · next result eq =>
          rw [eq] at rotated
          rw [ih]
          simp [toList_plug, Frame.fill, rotated]
      · next result eq =>
          rw [eq] at rotated
          simp [toList_plug, Frame.fill, rotated]

variable {context : Context α}

theorem Fits.grow {frame : Frame α} {height : ℕ} (fits : Fits (frame :: context) height)
    (tree_balanced : tree.Balanced) (grown : tree.height = height + 1) :
    (frame.balance = -frame.side.weight ∧
        (plug context (join frame.side tree frame.value 0 frame.sibling)).Balanced) ∨
      (frame.balance = frame.side.weight ∧ tree.height = frame.sibling.height + 2 ∧
        Fits context tree.height) ∨
      frame.balance = 0 ∧
      (join frame.side tree frame.value frame.side.weight frame.sibling).Balanced ∧
      (join frame.side tree frame.value frame.side.weight frame.sibling).height =
        max height frame.sibling.height + 1 + 1 := by
  obtain ⟨sibling_balanced, balance_eq, lower, upper, outer⟩ := fits
  simp only [balanced_plug, balanced_join, height_join, tree_balanced, sibling_balanced, true_and]
  obtain higher | level | lower :
      frame.sibling.height = height + 1 ∨ frame.sibling.height = height ∨
        frame.sibling.height + 1 = height := by
    rcases frame.side.weight_cases with weight | weight <;> rw [weight] at balance_eq <;> omega
  · refine .inl ⟨by rw [balance_eq, higher]; push_cast; ring,
      ⟨by simp [grown, higher], by omega⟩, ?_⟩
    convert outer using 2
    omega
  · refine .inr (.inr ⟨by rw [balance_eq, level]; simp, ⟨?_, ?_⟩, by omega⟩)
    · rw [grown, level]
      push_cast
      ring
    · rcases frame.side.weight_cases with weight | weight <;> omega
  · refine .inr (.inl ⟨by rw [balance_eq, ← lower]; push_cast; ring, by omega, ?_⟩)
    convert outer using 2
    omega

theorem Fits.shrink {frame : Frame α} (fits : Fits (frame :: context) (tree.height + 1))
    (tree_balanced : tree.Balanced) :
    (frame.balance = 0 ∧
        (plug context (join frame.side tree frame.value (-frame.side.weight)
          frame.sibling)).Balanced) ∨
      (frame.balance = frame.side.weight ∧
        (join frame.side tree frame.value 0 frame.sibling).Balanced ∧
        Fits context ((join frame.side tree frame.value 0 frame.sibling).height + 1)) ∨
      frame.balance = -frame.side.weight ∧ frame.sibling.height = tree.height + 2 ∧
      Fits context (tree.height + 3) := by
  obtain ⟨sibling_balanced, balance_eq, lower, upper, outer⟩ := fits
  simp only [balanced_plug, balanced_join, height_join, tree_balanced, sibling_balanced, true_and]
  push_cast at balance_eq
  obtain even | level | higher :
      frame.sibling.height = tree.height + 1 ∨ frame.sibling.height = tree.height ∨
        frame.sibling.height = tree.height + 2 := by
    rcases frame.side.weight_cases with weight | weight <;> rw [weight] at balance_eq <;> omega
  · refine .inl ⟨by rw [balance_eq, even]; push_cast; ring, ⟨by rw [even]; push_cast; ring, ?_⟩, ?_⟩
    · rcases frame.side.weight_cases with weight | weight <;> omega
    · convert outer using 2
      omega
  · refine .inr (.inl ⟨by rw [balance_eq, level]; ring, ⟨by simp [level], by omega⟩, ?_⟩)
    rw [level] at outer ⊢
    simpa using outer
  · refine .inr (.inr ⟨by rw [balance_eq, higher]; push_cast; ring, higher, ?_⟩)
    rwa [higher, max_eq_right (by omega)] at outer

theorem retraceInsert_balanced (context : Context α) (tree : BalTree α) (height : ℕ)
    (tree_balanced : tree.Balanced) (fits : Fits context height)
    (grown : tree.height = height + 1) (shape : tree.height = 1 ∨ tree.Lopsided) :
    (retraceInsert context tree).Balanced := by
  induction context generalizing tree height with
  | nil => exact tree_balanced
  | cons frame context ih =>
    have weight_ne := frame.side.weight_ne
    rw [retraceInsert]
    obtain ⟨balance, balanced⟩ | ⟨balance, tall, outer⟩ | ⟨balance, balanced, taller⟩ :=
      fits.grow tree_balanced grown
    · simpa [balance] using balanced
    · have lopsided : tree.Lopsided := shape.resolve_left (by omega)
      obtain ⟨rotated_balanced, rotated_height, lowers⟩ :=
        rotate_balanced frame.side frame.value tree_balanced fits.1 tall
      rw [lowers lopsided, if_pos rfl, ← tall] at rotated_height
      rw [if_neg (by omega), if_pos (by omega), balanced_plug, rotated_height]
      exact ⟨rotated_balanced, outer⟩
    · simpa [balance, weight_ne] using ih _ _ balanced fits.2.2.2.2 taller
        (.inr ((lopsided_join _ _ _ _ _).mpr weight_ne))

theorem retraceRemove_balanced (context : Context α) (tree : BalTree α)
    (tree_balanced : tree.Balanced) (fits : Fits context (tree.height + 1)) :
    (retraceRemove context tree).Balanced := by
  induction context generalizing tree with
  | nil => exact tree_balanced
  | cons frame context ih =>
    have weight_ne := frame.side.weight_ne
    rw [retraceRemove]
    obtain ⟨balance, balanced⟩ | ⟨balance, balanced, outer⟩ | ⟨balance, tall, outer⟩ :=
      fits.shrink tree_balanced
    · simpa [balance] using balanced
    · simpa [balance, weight_ne] using ih _ balanced outer
    · obtain ⟨rotated_balanced, rotated_height, -⟩ :=
        rotate_balanced frame.side.other frame.value fits.1 tree_balanced tall
      rw [if_neg (by omega), if_neg (by omega)]
      split
      · next rotated eq =>
          rw [eq] at rotated_balanced rotated_height
          exact ih rotated rotated_balanced (rotated_height ▸ outer)
      · next rotated eq =>
          rw [eq] at rotated_balanced rotated_height
          exact (balanced_plug _ _).mpr ⟨rotated_balanced, rotated_height ▸ outer⟩

/-- Walk down, by the sign of `diff`, to where it vanishes or an empty place. -/
def search (diff : α → ℤ) : BalTree α → Context α → Context α × BalTree α
  | nil, context => (context, nil)
  | node left value balance right, context =>
    if diff value = 0 then
      (context, node left value balance right)
    else if diff value < 0 then
      search diff left (⟨.left, value, balance, right⟩ :: context)
    else
      search diff right (⟨.right, value, balance, left⟩ :: context)

/-- The value at the root of a subtree. -/
def root? : BalTree α → Option α
  | nil => none
  | node _ value _ _ => some value

theorem plug_search (tree : BalTree α) (context : Context α) :
    plug (search diff tree context).1 (search diff tree context).2 = plug context tree := by
  induction tree generalizing context with
  | nil => rfl
  | node left value balance right ihl ihr =>
    simp only [search]
    split_ifs
    · rfl
    · rw [ihl]
      rfl
    · rw [ihr]
      rfl

theorem diff_search (tree : BalTree α) (context : Context α)
    (found : (search diff tree context).2.root? = some value) : diff value = 0 := by
  induction tree generalizing context with
  | nil => simp [search, root?] at found
  | node left other balance right ihl ihr =>
    simp only [search] at found
    split_ifs at found with equal
    · simp only [root?, Option.some.injEq] at found
      rwa [← found]
    · exact ihl _ found
    · exact ihr _ found

/-- The sign of `diff` never rises along a list. -/
def Falling (values : List α) : Prop :=
  values.Pairwise fun first second =>
    (diff first ≤ 0 → diff second ≤ 0) ∧ (diff first < 0 → diff second < 0)

/-- The two sides of a place that a search can reach. -/
def Straddles (context : Context α) : Prop :=
  (∀ value ∈ before context, 0 < diff value) ∧ ∀ value ∈ after context, diff value < 0

theorem straddles_search (tree : BalTree α) (context : Context α)
    (falling : Falling diff tree.toList) (straddles : Straddles diff context)
    (missing : (search diff tree context).2 = nil) :
    Straddles diff (search diff tree context).1 := by
  induction tree generalizing context with
  | nil => exact straddles
  | node left value balance right ihl ihr =>
    obtain ⟨falling_left, falling_right, crossing⟩ := pairwise_append.mp falling
    obtain ⟨below, falling_right⟩ := pairwise_cons.mp falling_right
    simp only [search] at missing ⊢
    split_ifs at missing ⊢ with equal less
    · refine ihl _ falling_left ⟨?_, ?_⟩ missing
      · simpa [before] using straddles.1
      · intro other member
        simp only [after, cons_append, mem_cons, mem_append] at member
        rcases member with rfl | member | member
        · exact less
        · exact (below other member).2 less
        · exact straddles.2 other member
    · have greater : 0 < diff value := by omega
      refine ihr _ falling_right ⟨?_, ?_⟩ missing
      · intro other member
        simp only [before, mem_append, mem_cons, not_mem_nil, or_false] at member
        rcases member with member | member | rfl
        · exact straddles.1 other member
        · have ordered := (crossing other member value (by simp)).1
          by_contra low
          exact absurd (ordered (by omega)) (by omega)
        · exact greater
      · simpa [after] using straddles.2

/-- The stored value next to a place, on the given side of it. -/
def nearest (side : Side) : Context α → Option α
  | [] => none
  | frame :: context => if frame.side = side then nearest side context else some frame.value

theorem nearest_left (context : Context α) : nearest .left context = (before context).getLast? := by
  induction context with
  | nil => rfl
  | cons frame context ih =>
    cases side_eq : frame.side <;> simp [nearest, before, side_eq, ih, ← append_assoc]

theorem nearest_right (context : Context α) : nearest .right context = (after context).head? := by
  induction context with
  | nil => rfl
  | cons frame context ih =>
    cases side_eq : frame.side <;> simp [nearest, after, side_eq, ih]

/-- A single new node. -/
def leaf (value : α) : BalTree α := node nil value 0 nil

theorem leaf_balanced (value : α) : (leaf value).Balanced := by
  simp [leaf, Balanced, height]

@[simp] theorem height_leaf (value : α) : (leaf value).height = 1 := by
  simp [leaf, height]

/-- Put a new node into an empty place. -/
def insertAt (context : Context α) (value : α) : BalTree α :=
  retraceInsert context (leaf value)

/-- The last node on one side of a subtree, with its context. -/
def extreme (side : Side) : BalTree α → Context α → Option (α × BalTree α × Context α)
  | nil, _ => none
  | node left value balance right, context =>
    match side with
    | .left =>
      match extreme .left left (⟨.left, value, balance, right⟩ :: context) with
      | none => some (value, right, context)
      | some found => some found
    | .right =>
      match extreme .right right (⟨.right, value, balance, left⟩ :: context) with
      | none => some (value, left, context)
      | some found => some found

/-- The side from which the neighbour of a removed node is taken. -/
def tallerSide (balance : ℤ) : Side :=
  if balance = 1 then .right else .left

/-- Remove the root of a subtree, or replace it by its neighbour. -/
def removeAt (context : Context α) : BalTree α → BalTree α
  | nil => plug context nil
  | node nil _ _ right => retraceRemove context right
  | node left _ _ nil => retraceRemove context left
  | node left value balance right =>
    match split (tallerSide balance) (node left value balance right) with
    | none => plug context nil
    | some (near, _, _, far) =>
      match extreme (tallerSide balance).other near [] with
      | none => plug context nil
      | some (neighbour, child, inner) =>
        retraceRemove (inner ++ ⟨tallerSide balance, neighbour, balance, far⟩ :: context) child

theorem extreme_join (value : α) (balance : ℤ) (context : Context α) :
    extreme side (join side near value balance far) context =
      some ((extreme side near (⟨side, value, balance, far⟩ :: context)).getD
        (value, far, context)) := by
  cases side <;> simp only [join, extreme] <;> split <;> simp [*]

theorem extreme_spec (nonempty : tree ≠ nil) (context : Context α) :
    ∃ value child balance inner, extreme side tree context = some (value, child, inner ++ context) ∧
    tree = plug inner (join side nil value balance child) ∧ ∀ frame ∈ inner, frame.side = side := by
  induction tree using joinRec side generalizing context with
  | nil => exact (nonempty rfl).elim
  | join near top balance far ih =>
    rw [extreme_join]
    by_cases near_nil : near = nil
    · exact ⟨top, far, balance, [], by simp [near_nil, extreme], by rw [near_nil]; rfl, by simp⟩
    · obtain ⟨value, child, lastBalance, inner, found, near_eq, sides⟩ :=
        ih near_nil (⟨side, top, balance, far⟩ :: context)
      refine ⟨value, child, lastBalance, inner ++ [⟨side, top, balance, far⟩], by simp [found], ?_,
        by simpa [or_imp, forall_and] using sides⟩
      rw [plug_append, ← near_eq]
      rfl

/-- The empty place beyond the last node on one side of a subtree. -/
def edge (side : Side) : BalTree α → Context α → Context α
  | nil, context => context
  | node left value balance right, context =>
    match side with
    | .left => edge .left left (⟨.left, value, balance, right⟩ :: context)
    | .right => edge .right right (⟨.right, value, balance, left⟩ :: context)

theorem edge_join (value : α) (balance : ℤ) (context : Context α) :
    edge side (join side near value balance far) context =
      edge side near (⟨side, value, balance, far⟩ :: context) := by
  cases side <;> rfl

theorem edge_spec (tree : BalTree α) (context : Context α) :
    ∃ inner, edge side tree context = inner ++ context ∧ plug inner nil = tree ∧
    ∀ frame ∈ inner, frame.side = side := by
  induction tree using joinRec side generalizing context with
  | nil => exact ⟨[], rfl, rfl, by simp⟩
  | join near value balance far ih =>
    obtain ⟨inner, eq, near_eq, sides⟩ := ih (⟨side, value, balance, far⟩ :: context)
    refine ⟨inner ++ [⟨side, value, balance, far⟩], by rw [edge_join, eq]; simp, ?_,
      by simpa [or_imp, forall_and] using sides⟩
    rw [plug_append, near_eq]
    rfl

theorem edge_plug {side : Side} {inner : Context α} (sides : ∀ frame ∈ inner, frame.side = side)
    (tree : BalTree α) (context : Context α) :
    edge side (plug inner tree) context = edge side tree (inner ++ context) := by
  induction inner generalizing tree with
  | nil => rfl
  | cons frame inner ih =>
    obtain rfl := sides frame (by simp)
    rw [plug, ih fun other member => sides other (by simp [member]), Frame.fill, edge_join]
    rfl

theorem before_append (inner outer : Context α) :
    before (inner ++ outer) = before outer ++ before inner := by
  induction inner with
  | nil => simp [before]
  | cons frame inner ih => simp [before, ih]

theorem after_append (inner outer : Context α) :
    after (inner ++ outer) = after inner ++ after outer := by
  induction inner with
  | nil => simp [after]
  | cons frame inner ih => simp [after, ih]

theorem before_eq_nil (sides : ∀ frame ∈ context, frame.side = .left) :
    before context = [] := by
  induction context with
  | nil => rfl
  | cons frame context ih =>
    simp [before, sides frame (by simp), ih fun other member => sides other (by simp [member])]

theorem after_eq_nil (sides : ∀ frame ∈ context, frame.side = .right) :
    after context = [] := by
  induction context with
  | nil => rfl
  | cons frame context ih =>
    simp [after, sides frame (by simp), ih fun other member => sides other (by simp [member])]

/-- The two cases of a removal: a root is cut out, or replaced by its neighbour. -/
theorem removeAt_cases (context : Context α) (left : BalTree α) (value : α) (balance : ℤ)
    (right : BalTree α) :
    (∃ side child, node left value balance right = join side nil value balance child ∧
      removeAt context (node left value balance right) = retraceRemove context child) ∨
    ∃ near far neighbour neighbourBalance child inner, near ≠ nil ∧ far ≠ nil ∧
      node left value balance right = join (tallerSide balance) near value balance far ∧
      near = plug inner (join (tallerSide balance).other nil neighbour neighbourBalance child) ∧
      (∀ frame ∈ inner, frame.side = (tallerSide balance).other) ∧
      removeAt context (node left value balance right) =
        retraceRemove
          (inner ++ ⟨tallerSide balance, neighbour, balance, far⟩ :: context) child := by
  rcases eq_or_ne left nil with rfl | left_ne
  · exact .inl ⟨.left, right, rfl, rfl⟩
  rcases eq_or_ne right nil with rfl | right_ne
  · cases left with
    | nil => exact (left_ne rfl).elim
    | node _ _ _ _ => exact .inl ⟨.right, _, rfl, rfl⟩
  obtain ⟨near, far, near_ne, far_ne, whole⟩ : ∃ near far, near ≠ nil ∧ far ≠ nil ∧
      node left value balance right = join (tallerSide balance) near value balance far := by
    cases tallerSide balance with
    | left => exact ⟨left, right, left_ne, right_ne, rfl⟩
    | right => exact ⟨right, left, right_ne, left_ne, rfl⟩
  obtain ⟨neighbour, child, neighbourBalance, inner, eq, near_eq, sides⟩ :=
    extreme_spec (tallerSide balance).other near_ne []
  rw [append_nil] at eq
  refine .inr ⟨near, far, neighbour, neighbourBalance, child, inner, near_ne, far_ne,
    whole, near_eq, sides, ?_⟩
  rw [removeAt.eq_4 _ _ _ _ _ left_ne right_ne]
  simp only [whole, split_join, eq]

/-- Removing the root drops exactly that root from the in-order list. -/
theorem toList_removeAt (context : Context α) (left : BalTree α) (value : α) (balance : ℤ)
    (right : BalTree α) :
    (removeAt context (node left value balance right)).toList =
      before context ++ (left.toList ++ right.toList) ++ after context := by
  obtain ⟨side, child, whole, eq⟩ |
      ⟨near, far, neighbour, neighbourBalance, child, inner, -, -, whole, near_eq, sides, eq⟩ :=
    removeAt_cases context left value balance right
  · rw [eq, toList_retraceRemove]
    cases side <;> (obtain ⟨rfl, -, -, rfl⟩ := node.injEq .. ▸ whole) <;> simp [toList]
  rw [eq, toList_retraceRemove, before_append, after_append]
  have near_list := congrArg toList near_eq
  rw [toList_plug, toList_join] at near_list
  cases taller : tallerSide balance with
  | left =>
    rw [taller] at whole sides near_list
    obtain ⟨rfl, -, -, rfl⟩ := node.injEq .. ▸ whole
    rw [after_eq_nil sides] at near_list ⊢
    simp [near_list, before, after, arrange, Side.other, toList]
  | right =>
    rw [taller] at whole sides near_list
    obtain ⟨rfl, -, -, rfl⟩ := node.injEq .. ▸ whole
    rw [before_eq_nil sides] at near_list ⊢
    simp [near_list, before, after, arrange, Side.other, toList]

theorem fits_append (inner outer : Context α) (tree : BalTree α) :
    tree.Balanced ∧ Fits (inner ++ outer) tree.height ↔
      (plug inner tree).Balanced ∧ Fits outer (plug inner tree).height := by
  rw [← balanced_plug, ← balanced_plug, plug_append]

theorem removeAt_balanced (context : Context α) (left : BalTree α) (value : α) (balance : ℤ)
    (right : BalTree α) (balanced : (plug context (node left value balance right)).Balanced) :
    (removeAt context (node left value balance right)).Balanced := by
  obtain ⟨side, child, whole, eq⟩ |
      ⟨near, far, neighbour, neighbourBalance, child, inner, -, -, whole, rfl, -, eq⟩ :=
    removeAt_cases context left value balance right
  · rw [whole, balanced_plug, balanced_join, height_join] at balanced
    rw [eq]
    exact retraceRemove_balanced context child balanced.1.2.1 (by simpa [height] using balanced.2)
  rw [whole, balanced_plug, balanced_join, height_join] at balanced
  obtain ⟨⟨near_balanced, frame_fits⟩, fits⟩ := balanced
  rw [eq]
  have inner_fits := (fits_append inner (⟨tallerSide balance, neighbour, balance, far⟩ :: context)
    (join (tallerSide balance).other nil neighbour neighbourBalance child)).mpr
      ⟨near_balanced, frame_fits.1, frame_fits.2.1, frame_fits.2.2.1, frame_fits.2.2.2, fits⟩
  obtain ⟨-, child_balanced, -⟩ := (balanced_join _ _ _ _ _).mp inner_fits.1
  exact retraceRemove_balanced _ child child_balanced (by simpa [height] using inner_fits.2)

/-- The values on the two sides of the place next to the root. -/
theorem before_after_edge (direction : Side) (near far : BalTree α) (value : α) (balance : ℤ)
    (context : Context α) :
    let place := edge direction.other near (⟨direction, value, balance, far⟩ :: context)
    plug place nil = plug context (join direction near value balance far) ∧
      before place = before context ++
        (match direction with | .left => near.toList | .right => far.toList ++ [value]) ∧
      after place =
        (match direction with | .left => value :: far.toList | .right => near.toList) ++
          after context := by
  obtain ⟨inner, eq, rfl, sides⟩ :=
    edge_spec direction.other near (⟨direction, value, balance, far⟩ :: context)
  simp only [eq, plug_append, before_append, after_append, toList_plug]
  refine ⟨rfl, ?_, ?_⟩
  · cases direction with
    | left => simp [before, after_eq_nil sides, toList]
    | right => simp [before, before_eq_nil sides]
  · cases direction with
    | left => simp [after, after_eq_nil sides]
    | right => simp [after, before_eq_nil sides, toList]

theorem toList_insertAt (context : Context α) (value : α) :
    (insertAt context value).toList = before context ++ value :: after context := by
  simp [insertAt, leaf, toList_retraceInsert, toList]

theorem insertAt_balanced (context : Context α) (value : α)
    (balanced : (plug context nil).Balanced) : (insertAt context value).Balanced := by
  refine retraceInsert_balanced context (leaf value) 0 (leaf_balanced value)
    ((balanced_plug _ _).mp balanced).2 ?_ (.inl ?_)
  · simp
  · simp

/-- Put a new node directly next to the root of a filled context. -/
def insertBeside (direction : Side) (context : Context α) (near : BalTree α) (here : α)
    (balance : ℤ)
    (far : BalTree α) (value : α) : BalTree α :=
  insertAt (edge direction.other near (⟨direction, here, balance, far⟩ :: context)) value

theorem toList_insertBeside_right (context : Context α) (left right : BalTree α) (here : α)
    (balance : ℤ) (value : α) :
    (insertBeside .right context right here balance left value).toList =
      before context ++ (left.toList ++ here :: value :: right.toList) ++ after context := by
  obtain ⟨-, before_eq, after_eq⟩ := before_after_edge .right right left here balance context
  rw [insertBeside, toList_insertAt, before_eq, after_eq]
  simp

theorem insertBeside_balanced (direction : Side) (context : Context α) (near : BalTree α) (here : α)
    (balance : ℤ) (far : BalTree α) (value : α)
    (balanced : (plug context (join direction near here balance far)).Balanced) :
    (insertBeside direction context near here balance far value).Balanced := by
  refine insertAt_balanced _ _ ?_
  rw [(before_after_edge direction near far here balance context).1]
  exact balanced

section Values

variable {β : Type*}

/-- Change every stored value, keeping the shape. -/
def map (change : α → β) : BalTree α → BalTree β
  | nil => nil
  | node left value balance right =>
    node (left.map change) (change value) balance (right.map change)

variable (old new : α) (change : α → β)

@[simp] theorem toList_map (tree : BalTree α) :
    (tree.map change).toList = tree.toList.map change := by
  induction tree with
  | nil => rfl
  | node left value balance right ihl ihr => simp [map, toList, ihl, ihr]

@[simp] theorem height_map (tree : BalTree α) :
    (tree.map change).height = tree.height := by
  induction tree with
  | nil => rfl
  | node left value balance right ihl ihr => simp [map, height, ihl, ihr]

theorem balanced_map (tree : BalTree α) :
    (tree.map change).Balanced ↔ tree.Balanced := by
  induction tree with
  | nil => rfl
  | node left value balance right ihl ihr => simp [map, Balanced, ihl, ihr]

variable [DecidableEq α]

/-- The subtree with the given root, and its context. -/
def locate (value : α) : BalTree α → Context α → Option (Context α × BalTree α)
  | nil, _ => none
  | node left root balance right, context =>
    if root = value then
      some (context, node left root balance right)
    else
      match locate value left (⟨.left, root, balance, right⟩ :: context) with
      | some found => some found
      | none => locate value right (⟨.right, root, balance, left⟩ :: context)

variable {value : α} {tree : BalTree α}

theorem locate_eq_none (context : Context α) (absent : value ∉ tree.toList) :
    locate value tree context = none := by
  induction tree generalizing context with
  | nil => rfl
  | node left root balance right ihl ihr =>
    simp only [toList, mem_append, mem_cons, not_or] at absent
    obtain ⟨not_left, not_root, not_right⟩ := absent
    rw [locate, if_neg (Ne.symm not_root), ihl _ not_left]
    exact ihr _ not_right

theorem locate_spec (context : Context α) (member : value ∈ tree.toList) :
    ∃ found left balance right, locate value tree context =
      some (found, node left value balance right) ∧
    plug found (node left value balance right) = plug context tree := by
  induction tree generalizing context with
  | nil => simp [toList] at member
  | node left root balance right ihl ihr =>
    simp only [toList, mem_append, mem_cons] at member
    by_cases here : root = value
    · subst here
      exact ⟨context, left, balance, right, by simp [locate], rfl⟩
    · by_cases inLeft : value ∈ left.toList
      · obtain ⟨found, l, b, r, eq, whole⟩ := ihl (⟨.left, root, balance, right⟩ :: context) inLeft
        exact ⟨found, l, b, r, by simp [locate, here, eq], whole⟩
      · have inRight : value ∈ right.toList := by
          rcases member with member | rfl | member
          · exact (inLeft member).elim
          · exact (here rfl).elim
          · exact member
        obtain ⟨found, l, b, r, eq, whole⟩ := ihr (⟨.right, root, balance, left⟩ :: context) inRight
        refine ⟨found, l, b, r, ?_, whole⟩
        rw [locate, if_neg here, locate_eq_none _ inLeft]
        exact eq

omit [DecidableEq α] in
/-- Every stored value is the root of a subtree that fills some context. -/
theorem exists_plug (member : value ∈ tree.toList) :
    ∃ context left balance right, tree = plug context (node left value balance right) := by
  classical
  obtain ⟨context, left, balance, right, -, whole⟩ := locate_spec [] member
  exact ⟨context, left, balance, right, whole.symm⟩

/-- Remove the node that holds the given value. -/
def removeValue (value : α) (tree : BalTree α) : BalTree α :=
  match locate value tree [] with
  | some (context, found) => removeAt context found
  | none => tree

theorem toList_removeValue (nodup : tree.toList.Nodup) :
    (removeValue value tree).toList = tree.toList.erase value := by
  by_cases member : value ∈ tree.toList
  · obtain ⟨found, left, balance, right, eq, whole⟩ := locate_spec [] member
    have list : tree.toList = (before found ++ left.toList) ++ value ::
        (right.toList ++ after found) := by
      rw [show tree = plug [] tree from rfl, ← whole, toList_plug]
      simp [toList]
    rw [list] at nodup ⊢
    have absent : value ∉ before found ++ left.toList := by
      rw [nodup_middle, nodup_cons] at nodup
      exact fun inside => nodup.1 (mem_append_left _ inside)
    rw [removeValue, eq, toList_removeAt, erase_append_right _ absent, erase_cons_head]
    simp
  · rw [removeValue, locate_eq_none _ member, erase_of_not_mem member]

theorem removeValue_balanced (balanced : tree.Balanced) :
    (removeValue value tree).Balanced := by
  by_cases member : value ∈ tree.toList
  · obtain ⟨found, left, balance, right, eq, whole⟩ := locate_spec [] member
    rw [removeValue, eq]
    refine removeAt_balanced _ _ _ _ _ ?_
    rw [whole]
    exact balanced
  · rw [removeValue, locate_eq_none _ member]
    exact balanced

/-- Overwrite a stored value in place. -/
def replaceValue (tree : BalTree α) : BalTree α :=
  tree.map fun value => if value = old then new else value

theorem replaceValue_balanced (balanced : tree.Balanced) :
    (replaceValue old new tree).Balanced :=
  (balanced_map _ _).mpr balanced

theorem toList_replaceValue {first second : List α} {old : α}
    (list : tree.toList = first ++ old :: second) (nodup : tree.toList.Nodup) :
    (replaceValue old new tree).toList = first ++ new :: second := by
  rw [list, nodup_middle, nodup_cons, mem_append, not_or] at nodup
  have keep : ∀ values : List α, old ∉ values →
      values.map (fun value => if value = old then new else value) = values := by
    intro values absent
    conv_rhs => rw [← map_id values]
    refine map_congr_left fun value member => ?_
    rw [if_neg, id]
    rintro rfl
    exact absent member
  rw [replaceValue, toList_map, list, map_append, map_cons, keep _ nodup.1.1,
    keep _ nodup.1.2, if_pos rfl]

end Values

end BalTree

end BalancedTree
