import Mathlib.Tactic

/-!
# Logs in a ring

Logical positions grow without bound and are mapped to the cells of a ring that starts at some base.
Writes and reads of consecutive positions are split in two where the ring ends.
-/

namespace RingLog

open List Nat

variable {α : Type*}

/-- Write items from a cell on. -/
def overwrite (store : ℕ → α) (start : ℕ) (items : List α) : ℕ → α := fun i =>
  if i < start then store i else items[i - start]?.getD (store i)

/-- Read a number of items from a cell on. -/
def readAt (store : ℕ → α) (start count : ℕ) : List α :=
  (range count).map fun i => store (start + i)

variable {store : ℕ → α} {start i : ℕ}

theorem overwrite_of_lt (items : List α) (before : i < start) :
    overwrite store start items i = store i := if_pos before

variable {items : List α}

theorem overwrite_of_ge (behind : start + items.length ≤ i) :
    overwrite store start items i = store i := by
  rw [overwrite, if_neg (by omega), getElem?_eq_none (by omega), Option.getD_none]

theorem overwrite_get (inside : i < items.length) :
    overwrite store start items (start + i) = items[i] := by
  rw [overwrite, if_neg (by omega), Nat.add_sub_cancel_left, getElem?_eq_getElem inside,
    Option.getD_some]

theorem length_readAt (store : ℕ → α) (start count : ℕ) :
    (readAt store start count).length = count := by
  simp [readAt]

variable {count : ℕ}

theorem getElem_readAt (inside : i < (readAt store start count).length) :
    (readAt store start count)[i] = store (start + i) := by
  simp [readAt]

theorem readAt_add {skip total : ℕ} (inside : skip + count ≤ total) :
    readAt store (start + skip) count = ((readAt store start total).drop skip).take count := by
  refine ext_getElem ?_ fun i left right => ?_
  · rw [length_readAt, length_take, length_drop, length_readAt]
    omega
  · rw [getElem_readAt, getElem_take, getElem_drop, getElem_readAt, add_assoc]

/-- The cell of a logical position. -/
def cell (base size pos : ℕ) : ℕ := (pos - base) % size + base

theorem le_cell (base size pos : ℕ) : base ≤ cell base size pos := le_add_left _ _

theorem cell_lt {size : ℕ} (positive : 0 < size) (base pos : ℕ) :
    cell base size pos < base + size := by
  have := mod_lt (pos - base) positive
  rw [cell]
  omega

variable {base size pos : ℕ}

/-- The cell of a position some way on: the ring ends at most once. -/
theorem cell_add (after : base ≤ pos) (short : i < size) :
    cell base size (pos + i) =
      if cell base size pos + i < base + size then cell base size pos + i
      else cell base size pos + i - size := by
  have split : pos + i - base = (pos - base) + i := by omega
  have below := mod_lt (pos - base) (by omega : 0 < size)
  rw [cell, cell, split, add_mod, mod_eq_of_lt short]
  split_ifs with fits
  · rw [mod_eq_of_lt (by omega)]
    omega
  · rw [mod_eq_sub_mod (by omega), mod_eq_of_lt (by omega)]
    omega

/-- The items at a position and behind it. -/
def Holds (store : ℕ → α) (base size pos : ℕ) (items : List α) : Prop :=
  ∀ i, (inside : i < items.length) → store (cell base size (pos + i)) = items[i]

theorem Holds.append {first second : List α} (holds_first : Holds store base size pos first)
    (holds_second : Holds store base size (pos + first.length) second) :
    Holds store base size pos (first ++ second) := by
  intro i inside
  rcases lt_or_ge i first.length with left | right
  · rw [getElem_append_left left]
    exact holds_first i left
  · have inside' : i - first.length < second.length := by
      rw [length_append] at inside
      omega
    rw [getElem_append_right right, ← holds_second _ inside']
    congr 2
    omega

theorem Holds.of_append {first second : List α}
    (holds : Holds store base size pos (first ++ second)) :
    Holds store base size pos first ∧ Holds store base size (pos + first.length) second := by
  refine ⟨fun i inside => ?_, fun i inside => ?_⟩
  · rw [holds i (by simp; omega), getElem_append_left inside]
  · rw [add_assoc, holds (first.length + i) (by simp; omega),
      getElem_append_right (by omega)]
    simp

/-- Write items at a position, around the end of the ring. -/
def ringWrite (store : ℕ → α) (base size pos : ℕ) (items : List α) : ℕ → α :=
  let first := min items.length (base + size - cell base size pos)
  overwrite (overwrite store (cell base size pos) (items.take first)) base (items.drop first)

/-- Read items at a position, around the end of the ring. -/
def ringRead (store : ℕ → α) (base size pos count : ℕ) : List α :=
  let first := min count (base + size - cell base size pos)
  readAt store (cell base size pos) first ++ readAt store base (count - first)

theorem holds_ringWrite (after : base ≤ pos) (short : items.length ≤ size) :
    Holds (ringWrite store base size pos items) base size pos items := by
  intro i inside
  have start_lt := cell_lt (by omega : 0 < size) base pos
  have start_ge := le_cell base size pos
  rw [cell_add after (by omega), ringWrite]
  generalize cell base size pos = start at *
  have rest : (items.drop (min items.length (base + size - start))).length =
      items.length - min items.length (base + size - start) := length_drop
  split_ifs with fits
  · have taken : i < (items.take (min items.length (base + size - start))).length := by
      rw [length_take]
      omega
    rw [overwrite_of_ge (by omega), overwrite_get taken, getElem_take]
  · have first : min items.length (base + size - start) = base + size - start := by omega
    have wrapped : start + i - size = base + (i - (base + size - start)) := by omega
    have dropped : i - (base + size - start) <
        (items.drop (min items.length (base + size - start))).length := by omega
    rw [wrapped, overwrite_get dropped, getElem_drop]
    congr 1
    omega

/-- Positions less than a turn before the end keep their items. -/
theorem ringWrite_cell {gap : ℕ} (after : base ≤ pos) (before : 0 < gap)
    (short : gap + items.length ≤ size) :
    ringWrite store base size (pos + gap) items (cell base size pos) =
      store (cell base size pos) := by
  rcases items.eq_nil_or_concat with rfl | ⟨_, _, nonempty⟩
  · simp [ringWrite, overwrite]
  have positive : 0 < items.length := by simp [nonempty]
  have other_lt := cell_lt (by omega : 0 < size) base pos
  have other_ge := le_cell base size pos
  rw [ringWrite, cell_add after (by omega : gap < size)]
  generalize cell base size pos = other at *
  split_ifs with fits
  · have rest : (items.drop (min items.length (base + size - (other + gap)))).length =
        items.length - min items.length (base + size - (other + gap)) := length_drop
    rw [overwrite_of_ge (by omega), overwrite_of_lt _ (by omega)]
  · have whole : min items.length (base + size - (other + gap - size)) = items.length := by omega
    rw [whole, take_length, drop_length]
    simp only [overwrite, getElem?_nil, Option.getD_none, ite_self]
    rw [if_neg (by omega), getElem?_eq_none (by omega), Option.getD_none]

theorem ringWrite_of_lt (before : i < base) :
    ringWrite store base size pos items i = store i := by
  rw [ringWrite, overwrite_of_lt _ before,
    overwrite_of_lt _ (before.trans_le (le_cell base size pos))]

theorem readAt_ringWrite (before : count ≤ base) :
    readAt (ringWrite store base size pos items) 0 count = readAt store 0 count := by
  refine map_congr_left fun i member => ?_
  rw [mem_range] at member
  exact ringWrite_of_lt (by omega)

/-- Less than a turn behind them, a write keeps the items. -/
theorem Holds.ringWrite (after : base ≤ pos) (holds : Holds store base size pos items)
    (more : List α) (short : items.length + more.length ≤ size) :
    Holds (ringWrite store base size (pos + items.length) more) base size pos
      (items ++ more) := by
  refine Holds.append (fun i inside => ?_) (holds_ringWrite (by omega) (by omega))
  have end_eq : pos + items.length = pos + i + (items.length - i) := by omega
  rw [end_eq, ringWrite_cell (by omega) (by omega) (by omega), holds i inside]

theorem Holds.ringRead (after : base ≤ pos) (holds : Holds store base size pos items) {skip : ℕ}
    (inside : skip + count ≤ items.length) (short : items.length ≤ size) :
    ringRead store base size (pos + skip) count = (items.drop skip).take count := by
  have length : (RingLog.ringRead store base size (pos + skip) count).length = count := by
    rw [RingLog.ringRead, length_append, length_readAt, length_readAt]
    omega
  refine ext_getElem (by rw [length, length_take, length_drop]; omega) ?_
  intro i left right
  rw [length] at left
  have start_lt := cell_lt (by omega : 0 < size) base (pos + skip)
  have item : store (cell base size (pos + skip + i)) = items[skip + i] := by
    rw [add_assoc]
    exact holds (skip + i) (by omega)
  rw [cell_add (by omega) (by omega)] at item
  rw [getElem_take, getElem_drop, ← item]
  simp only [RingLog.ringRead]
  split_ifs with fits
  · rw [getElem_append_left (by rw [length_readAt]; omega), getElem_readAt]
  · rw [getElem_append_right (by rw [length_readAt]; omega), getElem_readAt]
    congr 1
    rw [length_readAt]
    omega

end RingLog
