import Mathlib

/-!
# Charges along a path with reservations

A charge to a node of a path goes on to the next one as far as it exceeds what the node has
reserved.  Charges add up, and charges to two paths that join change the part below the junction as
if they were alone, and the part above as one charge of both.
-/

namespace ReservedCharge

open Function List

variable {Node : Type*} (used reserved : Node → ℤ)

/-- What the next node is charged for a change at a node. -/
def passOn (node : Node) (delta : ℤ) : ℤ :=
  max (used node + delta) (reserved node) - max (used node) (reserved node)

/-- What is left of a charge behind a list of nodes. -/
def through : List Node → ℤ → ℤ
  | [], delta => delta
  | node :: above, delta => through above (passOn used reserved node delta)

/-- The use of all nodes after a charge along a list of nodes. -/
def raised [DecidableEq Node] : List Node → ℤ → Node → ℤ
  | [], _ => used
  | node :: above, delta =>
    update (raised above (passOn used reserved node delta)) node (used node + delta)

variable {used reserved}

variable {delta : ℤ} {path : List Node} {used' : Node → ℤ} {node : Node}

theorem passOn_nonpos (node : Node) (nonpos : delta ≤ 0) : passOn used reserved node delta ≤ 0 := by
  rw [passOn]
  omega

theorem passOn_zero (node : Node) : passOn used reserved node 0 = 0 := by
  rw [passOn, add_zero, sub_self]

theorem through_zero (path : List Node) : through used reserved path 0 = 0 := by
  induction path with
  | nil => rfl
  | cons node above ih => rw [through, passOn_zero, ih]

theorem through_nonpos (nonpos : delta ≤ 0) : through used reserved path delta ≤ 0 := by
  induction path generalizing delta with
  | nil => exact nonpos
  | cons node above ih => exact ih (passOn_nonpos node nonpos)

theorem passOn_congr (same : used' node = used node) (delta : ℤ) :
    passOn used' reserved node delta = passOn used reserved node delta := by
  rw [passOn, passOn, same]

theorem through_congr (same : ∀ node ∈ path, used' node = used node) (delta : ℤ) :
    through used' reserved path delta = through used reserved path delta := by
  induction path generalizing delta with
  | nil => rfl
  | cons node above ih =>
    rw [through, through, passOn_congr (same node mem_cons_self),
      ih fun high member => same high (mem_cons_of_mem node member)]

variable [DecidableEq Node]

theorem raised_of_not_mem (outside : node ∉ path) (delta : ℤ) :
    raised used reserved path delta node = used node := by
  induction path generalizing delta with
  | nil => rfl
  | cons first above ih =>
    rw [mem_cons, not_or] at outside
    rw [raised, update_of_ne outside.1, ih outside.2]

theorem raised_congr (same : ∀ node ∈ path, used' node = used node) (member : node ∈ path)
    (delta : ℤ) : raised used' reserved path delta node = raised used reserved path delta node := by
  induction path generalizing delta with
  | nil => exact nomatch member
  | cons first above ih =>
    have same_first := same first mem_cons_self
    rw [raised, raised, passOn_congr same_first, same_first]
    by_cases own : node = first
    · rw [own, update_self, update_self]
    · rw [update_of_ne own, update_of_ne own]
      exact ih (fun high inside => same high (mem_cons_of_mem first inside))
        ((mem_cons.mp member).resolve_left own) _

theorem raised_append (path above : List Node) (delta : ℤ) (node : Node)
    (once : (path ++ above).Nodup) :
    raised used reserved (path ++ above) delta node =
      if node ∈ path then raised used reserved path delta node
      else raised used reserved above (through used reserved path delta) node := by
  induction path generalizing delta with
  | nil => rfl
  | cons first path ih =>
    rw [cons_append, raised, raised, through]
    by_cases own : node = first
    · rw [own, update_self, update_self, if_pos mem_cons_self]
    · rw [update_of_ne own, update_of_ne own,
        ih _ (nodup_cons.mp once).2]
      simp only [mem_cons, own, false_or]

theorem through_raised (once : path.Nodup) (first second : ℤ) :
    through used reserved path first +
        through (raised used reserved path first) reserved path second =
      through used reserved path (first + second) := by
  induction path generalizing first second with
  | nil => rfl
  | cons node above ih =>
    obtain ⟨outside, once⟩ := nodup_cons.mp once
    have same : ∀ high ∈ above, raised used reserved (node :: above) first high =
        raised used reserved above (passOn used reserved node first) high := fun high member =>
      update_of_ne (ne_of_mem_of_not_mem member outside) _ _
    have passed : passOn used reserved node first +
        passOn (raised used reserved (node :: above) first) reserved node second =
          passOn used reserved node (first + second) := by
      rw [passOn, passOn, passOn, raised, update_self, add_assoc]
      ring
    rw [through, through, through, through_congr same, ih once, passed]

theorem raised_raised (once : path.Nodup) (first second : ℤ) :
    raised (raised used reserved path first) reserved path second =
      raised used reserved path (first + second) := by
  funext node
  by_cases member : node ∈ path
  · obtain ⟨before, above, rfl⟩ := append_of_mem member
    obtain ⟨outside, apart⟩ := nodup_append'.mp once |>.2
    have not_before : node ∉ before := fun inside => apart inside mem_cons_self
    have value : ∀ use : Node → ℤ, ∀ delta,
        raised use reserved (before ++ node :: above) delta node =
        use node + through use reserved before delta := by
      intro use delta
      rw [raised_append _ _ _ _ once, if_neg not_before, raised, update_self]
    have same : ∀ low ∈ before, raised used reserved (before ++ node :: above) first low =
        raised used reserved before first low := fun low inside => by
      rw [raised_append _ _ _ _ once, if_pos inside]
    rw [value, value, value, through_congr same, add_assoc,
      through_raised (nodup_append'.mp once).1]
  · rw [raised_of_not_mem member, raised_of_not_mem member, raised_of_not_mem member]

variable (used reserved) in
/-- The use after charges to two lists and to what is above both. -/
def joined (left right above : List Node) (atLeft atRight atAbove : ℤ) (node : Node) : ℤ :=
  if node ∈ left then raised used reserved left atLeft node
  else if node ∈ right then raised used reserved right atRight node
  else raised used reserved above atAbove node

variable {left right above : List Node}

theorem joined_zero : joined used reserved left right above 0 0 0 = used := by
  have unchanged : ∀ path : List Node, raised used reserved path 0 = used := by
    intro path
    induction path with
    | nil => rfl
    | cons node above ih => rw [raised, passOn_zero, ih, add_zero, update_eq_self]
  funext node
  simp only [joined, unchanged, ite_self]

theorem joined_comm (apart : ∀ node ∈ left, node ∉ right) (atLeft atRight atAbove : ℤ) :
    joined used reserved left right above atLeft atRight atAbove =
      joined used reserved right left above atRight atLeft atAbove := by
  funext node
  simp only [joined]
  by_cases in_left : node ∈ left
  · rw [if_pos in_left, if_neg (apart node in_left), if_pos in_left]
  · rw [if_neg in_left, if_neg in_left]

/-- A charge to one of the lists and on to the common part. -/
theorem raised_joined (once : (left ++ above).Nodup) (apart : ∀ node ∈ right, node ∉ left ++ above)
    (atLeft atRight atAbove delta : ℤ) :
    raised (joined used reserved left right above atLeft atRight atAbove) reserved (left ++ above)
        delta =
      joined used reserved left right above (atLeft + delta) atRight
        (atAbove + (through used reserved left (atLeft + delta) -
          through used reserved left atLeft)) := by
  obtain ⟨left_once, above_once, disjoint⟩ := nodup_append'.mp once
  have on_left : ∀ node ∈ left, joined used reserved left right above atLeft atRight atAbove node =
      raised used reserved left atLeft node := fun node member => if_pos member
  have on_above : ∀ node ∈ above,
      joined used reserved left right above atLeft atRight atAbove node =
      raised used reserved above atAbove node := by
    intro node member
    have not_right : node ∉ right := fun inside => apart node inside (mem_append_right _ member)
    rw [joined, if_neg (fun inside => disjoint inside member), if_neg not_right]
  have passed : through (joined used reserved left right above atLeft atRight atAbove) reserved left
      delta = through used reserved left (atLeft + delta) - through used reserved left atLeft := by
    rw [through_congr on_left, ← through_raised left_once, add_sub_cancel_left]
  funext node
  rw [raised_append _ _ _ _ once, passed]
  by_cases in_left : node ∈ left
  · rw [if_pos in_left, raised_congr on_left in_left, raised_raised left_once, joined,
      if_pos in_left]
  · rw [if_neg in_left]
    by_cases in_above : node ∈ above
    · have not_right : node ∉ right :=
        fun inside => apart node inside (mem_append_right _ in_above)
      rw [raised_congr on_above in_above, raised_raised above_once, joined, if_neg in_left,
        if_neg not_right]
    · rw [raised_of_not_mem in_above, joined, joined, if_neg in_left, if_neg in_left,
        raised_of_not_mem in_above, raised_of_not_mem in_above]

end ReservedCharge
