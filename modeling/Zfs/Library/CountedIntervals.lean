import Mathlib.Tactic

/-!
# Lists of counted intervals

Items that stand for half-open intervals with a weight, one behind the other.  The weight at a point
is that of the item over it; items without a gap between two points tile what is between them.
-/

namespace CountedIntervals

open List

variable {α : Type*} (lo hi weight : α → ℕ)

/-- Every item ends before the ones behind it start. -/
def Ordered (items : List α) : Prop := items.Pairwise fun first second => hi first ≤ lo second

/-- The weight over a point. -/
def weightAt : List α → ℕ → ℕ
  | [], _ => 0
  | item :: items, x => (if lo item ≤ x ∧ x < hi item then weight item else 0) + weightAt items x

/-- No item goes over a point from one side to the other. -/
def Cut (items : List α) (x : ℕ) : Prop := ∀ item ∈ items, x ≤ lo item ∨ hi item ≤ x

/-- The items lead without a gap from one point to another. -/
def Tiles : ℕ → List α → ℕ → Prop
  | start, [], stop => start = stop
  | start, item :: items, stop => lo item = start ∧ Tiles (hi item) items stop

variable {lo hi weight} {items before after : List α} {item : α} {x start stop : ℕ}

theorem weightAt_append (before after : List α) (x : ℕ) :
    weightAt lo hi weight (before ++ after) x =
      weightAt lo hi weight before x + weightAt lo hi weight after x := by
  induction before with
  | nil => rw [nil_append, weightAt, Nat.zero_add]
  | cons item before ih => rw [cons_append, weightAt, weightAt, ih, Nat.add_assoc]

theorem weightAt_perm (permuted : before.Perm after) (x : ℕ) :
    weightAt lo hi weight before x = weightAt lo hi weight after x := by
  induction permuted with
  | nil => rfl
  | cons item _ ih => rw [weightAt, weightAt, ih]
  | swap first second items => rw [weightAt, weightAt, weightAt, weightAt, Nat.add_left_comm]
  | trans _ _ ih ih' => rw [ih, ih']

theorem weightAt_eq_zero (beside : ∀ item ∈ items, x < lo item ∨ hi item ≤ x) :
    weightAt lo hi weight items x = 0 := by
  induction items with
  | nil => rfl
  | cons item items ih =>
    have first := beside item mem_cons_self
    rw [weightAt, if_neg (by omega), ih fun other member => beside other (.tail _ member)]

theorem Ordered.weightAt_eq (ordered : Ordered lo hi items) (member : item ∈ items)
    (lower : lo item ≤ x) (upper : x < hi item) : weightAt lo hi weight items x = weight item := by
  induction items with
  | nil => cases member
  | cons first items ih =>
    obtain ⟨behind, ordered⟩ := pairwise_cons.mp ordered
    rw [weightAt]
    rcases mem_cons.mp member with rfl | member
    · rw [if_pos ⟨lower, upper⟩, weightAt_eq_zero, Nat.add_zero]
      intro other member
      have := behind other member
      omega
    · have := behind item member
      rw [if_neg (by omega), ih ordered member, Nat.zero_add]

theorem exists_of_weightAt_pos (positive : 0 < weightAt lo hi weight items x) :
    ∃ item ∈ items, lo item ≤ x ∧ x < hi item := by
  by_contra none
  push Not at none
  rw [weightAt_eq_zero fun item member => ?_] at positive
  · omega
  · have := none item member
    omega

theorem ordered_append : Ordered lo hi (before ++ after) ↔
    Ordered lo hi before ∧ Ordered lo hi after ∧
    ∀ first ∈ before, ∀ second ∈ after, hi first ≤ lo second := pairwise_append

theorem Ordered.filter_append_filter (ordered : Ordered lo hi items)
    (proper : ∀ item ∈ items, lo item < hi item) (x : ℕ) :
    (items.filter fun item => lo item < x) ++ (items.filter fun item => x ≤ lo item) = items := by
  induction items with
  | nil => rfl
  | cons first items ih =>
    obtain ⟨behind, ordered⟩ := pairwise_cons.mp ordered
    have proper' := fun item member => proper item (.tail first member)
    by_cases starts : lo first < x
    · rw [filter_cons_of_pos (by simpa using starts),
        filter_cons_of_neg (by simpa using starts), cons_append, ih ordered proper']
    · have first_proper := proper first mem_cons_self
      have none_before : items.filter (fun item => lo item < x) = [] := by
        refine filter_eq_nil_iff.mpr fun item member => ?_
        have := behind item member
        simp only [decide_eq_true_eq]
        omega
      have all_behind : items.filter (fun item => x ≤ lo item) = items := by
        refine filter_eq_self.mpr fun item member => ?_
        have := behind item member
        simp only [decide_eq_true_eq]
        omega
      rw [filter_cons_of_neg (by simpa using starts),
        filter_cons_of_pos (by simpa using not_lt.mp starts), none_before, all_behind,
        nil_append]

theorem Ordered.filter_append_cons (ordered : Ordered lo hi items)
    (proper : ∀ item ∈ items, lo item < hi item) (member : item ∈ items) :
    (items.filter fun other => lo other < lo item) ++
      item :: (items.filter fun other => lo item < lo other) = items := by
  obtain ⟨before, after, rfl⟩ := append_of_mem member
  obtain ⟨-, behind, apart⟩ := ordered_append.mp ordered
  have item_proper := proper item member
  have starts_before : ∀ other ∈ before, lo other < lo item := by
    intro other member
    have := apart other member item mem_cons_self
    have := proper other (mem_append_left _ member)
    omega
  have starts_behind : ∀ other ∈ after, lo item < lo other := by
    intro other member
    have := (pairwise_cons.mp behind).1 other member
    omega
  have first : (before ++ item :: after).filter (fun other => lo other < lo item) = before := by
    rw [filter_append, filter_cons_of_neg (by simp),
      filter_eq_self.mpr fun other member => by simpa using starts_before other member,
      filter_eq_nil_iff.mpr fun other member => ?_, append_nil]
    have := starts_behind other member
    simp only [decide_eq_true_eq]
    omega
  have second : (before ++ item :: after).filter (fun other => lo item < lo other) = after := by
    rw [filter_append, filter_cons_of_neg (by simp),
      filter_eq_nil_iff.mpr fun other member => ?_, nil_append,
      filter_eq_self.mpr fun other member => by simpa using starts_behind other member]
    have := starts_before other member
    simp only [decide_eq_true_eq]
    omega
  rw [first, second]

theorem Ordered.eq_of_over (ordered : Ordered lo hi items) {other : α} (member : item ∈ items)
    (member' : other ∈ items) (inside : lo item ≤ x ∧ x < hi item)
    (inside' : lo other ≤ x ∧ x < hi other) : item = other := by
  induction items with
  | nil => cases member
  | cons first items ih =>
    obtain ⟨behind, ordered⟩ := pairwise_cons.mp ordered
    rcases mem_cons.mp member with rfl | later <;>
      rcases mem_cons.mp member' with rfl | later'
    · rfl
    · have := behind other later'
      omega
    · have := behind item later
      omega
    · exact ih ordered later later'

theorem Tiles.within (tiled : Tiles lo hi start items stop)
    (proper : ∀ item ∈ items, lo item < hi item) :
    start ≤ stop ∧ ∀ item ∈ items, start ≤ lo item ∧ hi item ≤ stop := by
  induction items generalizing start with
  | nil => exact ⟨tiled.le, nofun⟩
  | cons first items ih =>
    obtain ⟨start_eq, tiled⟩ := tiled
    obtain ⟨order, within⟩ := ih tiled fun item member => proper item (.tail _ member)
    have first_proper := proper first mem_cons_self
    refine ⟨by omega, forall_mem_cons.mpr ⟨by omega, fun item member => ?_⟩⟩
    have := within item member
    omega

variable (ordered : Ordered lo hi items) (proper : ∀ item ∈ items, lo item < hi item)

include ordered proper

/-- Items from a point on that cover what is before a cut tile it. -/
theorem exists_tiles_prefix
    (behind : ∀ item ∈ items, start ≤ lo item) (cut : Cut lo hi items stop) (order : start ≤ stop)
    (covered : ∀ x, start ≤ x → x < stop → ∃ item ∈ items, lo item ≤ x ∧ x < hi item) :
    ∃ tiles rest, items = tiles ++ rest ∧ Tiles lo hi start tiles stop := by
  induction items generalizing start with
  | nil =>
    refine ⟨[], [], rfl, le_antisymm order ?_⟩
    by_contra open_
    obtain ⟨item, member, _⟩ := covered start le_rfl (by omega)
    cases member
  | cons first items ih =>
    rcases order.eq_or_lt with rfl | open_
    · exact ⟨[], first :: items, rfl, rfl⟩
    obtain ⟨apart, ordered⟩ := pairwise_cons.mp ordered
    have first_proper := proper first mem_cons_self
    have first_behind := behind first mem_cons_self
    have first_cut := cut first mem_cons_self
    have start_eq : lo first = start := by
      obtain ⟨item, member, lower, upper⟩ := covered start le_rfl open_
      rcases mem_cons.mp member with rfl | member
      · omega
      · have := apart item member
        omega
    obtain ⟨tiles, rest, items_eq, tiled⟩ := ih ordered
      (fun item member => proper item (.tail _ member)) (fun item member => apart item member)
      (fun item member => cut item (.tail _ member)) (by omega) (fun x lower upper => by
        obtain ⟨item, member, below, above⟩ := covered x (by omega) upper
        rcases mem_cons.mp member with rfl | member
        · omega
        · exact ⟨item, member, below, above⟩)
    exact ⟨first :: tiles, rest, by rw [items_eq, cons_append], start_eq, tiled⟩

/-- Items that cover what is between two cuts tile it. -/
theorem exists_tiles
    (cut : Cut lo hi items start) (cut' : Cut lo hi items stop) (order : start ≤ stop)
    (covered : ∀ x, start ≤ x → x < stop → ∃ item ∈ items, lo item ≤ x ∧ x < hi item) :
    ∃ tiles after, (items.filter fun item => start ≤ lo item) = tiles ++ after ∧
      Tiles lo hi start tiles stop := by
  have later : ∀ item ∈ items.filter fun item => start ≤ lo item, item ∈ items ∧ start ≤ lo item :=
    fun item member => by simpa using member
  refine exists_tiles_prefix (ordered.filter _) (fun item member =>
    proper item (later item member).1)
    (fun item member => (later item member).2) (fun item member => cut' item (later item member).1)
    order fun x lower upper => ?_
  obtain ⟨item, member, below, above⟩ := covered x lower upper
  have := cut item member
  exact ⟨item, by simpa using ⟨member, by omega⟩, below, above⟩

end CountedIntervals
