import Zfs.SpaceMap.Invariant

/-!
# `space_map_excise`, `space_map_union` and `space_map_vacate`

The loop of `space_map_excise` removes, in each round, everything it wants from one more segment, so
the number of segments that still meet the interval goes down.
-/

namespace Zfs

open BalancedTree BalTree Segments List

/-- A segment meets the interval `[start, stop)`. -/
def Seg.Meets (start stop : ℕ) (ss : Seg) : Prop := start < ss.ssEnd ∧ ss.ssStart < stop

instance (start stop : ℕ) (ss : Seg) : Decidable (ss.Meets start stop) :=
  inferInstanceAs (Decidable (_ ∧ _))

/-- The segments of a map that still meet the interval to excise. -/
def meeting (start stop : ℕ) (sm : SpaceMap) : ℕ := sm.segs.countP (Seg.Meets start stop)

variable {sm : SpaceMap} {start : ℕ} {ss : Seg}

/-- One round of `space_map_excise` finds the first segment after `start`. -/
theorem exciseSeg_some (wf : sm.Wf) (found : exciseSeg sm start = some ss) :
    ss ∈ sm.segs ∧ start < ss.ssEnd ∧ ∀ other ∈ sm.segs, start < other.ssEnd →
      ss.ssStart ≤ other.ssStart := by
  unfold exciseSeg at found
  split at found
  · next place missing =>
      obtain ⟨whole, left, right⟩ := wf.findSeg_missing missing
      rw [nearest_right] at found
      have list : sm.segs = before place ++ after place := by
        rw [SpaceMap.segs, ← whole, toList_plug]
        simp [toList]
      obtain ⟨rest, after_eq⟩ := head?_eq_some_iff.mp found
      have separated := wf.separated
      rw [list, after_eq] at separated
      obtain ⟨-, separated_after, -⟩ := separated_append.mp separated
      obtain ⟨proper, gap, -⟩ := separated_cons.mp separated_after
      have ss_right := right ss (by simp [after_eq])
      refine ⟨by simp [list, after_eq], by omega, fun other member ends => ?_⟩
      rw [list, after_eq, mem_append, mem_cons] at member
      rcases member with member | rfl | member
      · have other_left := left other member
        omega
      · exact le_rfl
      · have other_gap := gap other member
        omega
  · next place left ss' balance right result =>
      cases found
      obtain ⟨-, member, start_lt, overlap⟩ := wf.findSeg_found result
      refine ⟨member, start_lt, fun other other_member ends => ?_⟩
      rcases wf.separated.eq_or_gap member other_member with rfl | gap | gap
      · exact le_rfl
      · omega
      · omega

theorem exciseSeg_none (wf : sm.Wf) (missing : exciseSeg sm start = none) :
    ∀ ss ∈ sm.segs, ss.ssEnd ≤ start := by
  unfold exciseSeg at missing
  split at missing
  · next place result =>
      obtain ⟨whole, left, -⟩ := wf.findSeg_missing result
      rw [nearest_right, head?_eq_none_iff] at missing
      intro ss member
      rw [SpaceMap.segs, ← whole, toList_plug, missing] at member
      exact left ss (by simpa [toList] using member)
  · cases missing

variable {zfsRecover : Bool} {sm' : SpaceMap} {size : ℕ}

/-- `space_map_remove` replaces one segment by what is left of it. -/
theorem spaceMapRemove_segs (wf : sm.Wf) (noWrap : start + size < 2 ^ 64)
    (ok : spaceMapRemove zfsRecover sm start size = .ok sm') (member : ss ∈ sm.segs)
    (start_le : ss.ssStart ≤ start) (end_le : start + size ≤ ss.ssEnd) :
    ∃ first last, sm.segs = first ++ ss :: last ∧
    sm'.segs = first ++ leftovers ss start (start + size) ++ last := by
  obtain ⟨⟨nonempty, -, -⟩, cut | ⟨-, -, place, missing⟩⟩ := spaceMapRemove_cases ok
  · obtain ⟨place, left, other, balance, right, found, other_start, other_end, rfl⟩ := cut
    rw [add64_eq noWrap] at found other_end
    obtain ⟨whole, other_member, -⟩ := wf.findSeg_found found
    obtain rfl : ss = other := by
      rcases wf.separated.eq_or_gap member other_member with same | gap | gap
      · exact same
      · omega
      · omega
    refine ⟨before place ++ left.toList, right.toList ++ after place, ?_, ?_⟩
    · rw [SpaceMap.segs, ← whole, toList_plug]
      simp [toList]
    · rw [SpaceMap.segs, add64_eq noWrap]
      exact toList_cutOut _ _ _ _ _ _ _
  · rw [add64_eq noWrap] at missing
    have apart := wf.disjoint_of_missing missing
    exact (Set.disjoint_left.mp apart (⟨le_rfl, by omega⟩ : start ∈ Set.Ico start (start + size))
      ⟨ss, member, start_le, by omega⟩).elim

theorem spaceMapRemove_ne_fuel (zfsRecover : Bool) (sm : SpaceMap) (start size : ℕ) :
    spaceMapRemove zfsRecover sm start size ≠ .error .fuel := by
  unfold spaceMapRemove
  extract_lets stop
  repeat' split
  all_goals simp

theorem spaceMapAdd_ne_fuel (zfsRecover : Bool) (sm : SpaceMap) (start size : ℕ) :
    spaceMapAdd zfsRecover sm start size ≠ .error .fuel := by
  unfold spaceMapAdd
  extract_lets stop
  repeat' split
  all_goals simp

/-- A call returns a value with a property, or panics. -/
def Returns {α : Type} (call : Except Halt α) (post : α → Prop) : Prop :=
  call ≠ .error .fuel ∧ ∀ value, call = .ok value → post value

section Returns

variable {α β : Type} {call : Except Halt α} {post post' : α → Prop}

theorem Returns.ok {value : α} (holds : post value) : Returns (.ok value) post :=
  ⟨nofun, fun _ same => Except.ok.inj same ▸ holds⟩

theorem Returns.imp (returns : Returns call post) (weaker : ∀ value, post value → post' value) :
    Returns call post' :=
  ⟨returns.1, fun value ok => weaker value (returns.2 value ok)⟩

theorem Returns.bind {rest : α → Except Halt β} {final : β → Prop} (returns : Returns call post)
    (later : ∀ value, post value → Returns (rest value) final) : Returns (call >>= rest) final := by
  cases call with
  | error halt => exact ⟨fun same => returns.1 (by cases same; rfl), nofun⟩
  | ok value => exact later value (returns.2 value rfl)

end Returns

/-- One round of `space_map_excise` settles one segment. -/
theorem meeting_remove {stop : ℕ} (wf : sm.Wf) (member : ss ∈ sm.segs)
    (meets : ss.Meets start stop) (proper : start < stop)
    (ok : spaceMapRemove zfsRecover sm (max ss.ssStart start)
      (min ss.ssEnd stop - max ss.ssStart start) = .ok sm') :
    meeting start stop sm' < meeting start stop sm := by
  have ss_proper := wf.separated.proper ss member
  have ss_bounded := wf.bounded ss member
  obtain ⟨after_start, before_stop⟩ := meets
  have sum : max ss.ssStart start + (min ss.ssEnd stop - max ss.ssStart start) =
    min ss.ssEnd stop := by omega
  obtain ⟨first, last, old, new⟩ := spaceMapRemove_segs wf (by omega) ok member (by omega)
    (by omega)
  have settled : (leftovers ss (max ss.ssStart start) (min ss.ssEnd stop)).countP
      (Seg.Meets start stop) = 0 := by
    rw [countP_eq_zero]
    intro piece inside
    simp only [leftovers, mem_append] at inside
    simp only [Seg.Meets]
    rcases inside with inside | inside
    · split_ifs at inside with left_over
      · have cut : max ss.ssStart start = start := max_eq_right (by grind)
        rw [mem_singleton.mp inside, cut]
        simp
      · cases inside
    · split_ifs at inside with right_over
      · have cut : min ss.ssEnd stop = stop := min_eq_right (by grind)
        rw [mem_singleton.mp inside, cut]
        simp
      · cases inside
  rw [sum] at new
  have counted : decide (Seg.Meets start stop ss) = true :=
    decide_eq_true ⟨after_start, before_stop⟩
  unfold meeting
  rw [old, new, countP_append, countP_append, countP_append, countP_cons, settled,
    if_pos counted]
  omega

/-- The loop of `space_map_excise` ends and removes the interval. -/
theorem spaceMapExciseLoop_spec (zfsRecover : Bool) {stop : ℕ} (order : start ≤ stop)
    (bound : stop < 2 ^ 64) (fuel : ℕ) (wf : sm.Wf) (enough : meeting start stop sm < fuel) :
    Returns (spaceMapExciseLoop zfsRecover start stop fuel sm) fun sm' =>
      sm'.Wf ∧ sm'.points = sm.points \ Set.Ico start stop ∧ SameRange sm sm' := by
  induction fuel generalizing sm with
  | zero => omega
  | succ fuel ih =>
    have untouched : (∀ ss ∈ sm.segs, start < ss.ssEnd → stop ≤ ss.ssStart) →
        sm.points = sm.points \ Set.Ico start stop := by
      intro outside
      refine (sdiff_eq_left.mpr (Set.disjoint_left.mpr ?_)).symm
      rintro point ⟨ss, member, lower, upper⟩ ⟨above, below⟩
      have apart := outside ss member (by omega)
      omega
    rw [spaceMapExciseLoop]
    cases found : exciseSeg sm start with
    | none =>
      refine .ok ⟨wf, untouched fun ss member ends => ?_, .refl _⟩
      have before_start := exciseSeg_none wf found ss member
      omega
    | some ss =>
      obtain ⟨member, ends, first⟩ := exciseSeg_some wf found
      simp only
      by_cases beyond : ss.ssStart ≥ stop
      · rw [if_pos beyond]
        exact .ok ⟨wf, untouched fun other inside later => beyond.trans (first other inside later),
          .refl _⟩
      · rw [if_neg beyond]
        have ss_proper := wf.separated.proper ss member
        have length : sub64 (min ss.ssEnd stop) (max ss.ssStart start) =
            min ss.ssEnd stop - max ss.ssStart start := sub64_eq (by omega) (by omega)
        rw [length]
        have inside : max ss.ssStart start + (min ss.ssEnd stop - max ss.ssStart start) =
            min ss.ssEnd stop := by omega
        refine .bind ⟨spaceMapRemove_ne_fuel _ _ _ _, fun _ removed => removed⟩
          fun next removed => ?_
        have nonempty := (spaceMapRemove_cases removed).1.1
        obtain ⟨next_wf, next_points, next_range⟩ := spaceMapRemove_ok wf (by omega) removed
        have fewer := meeting_remove wf member ⟨ends, by omega⟩ (by omega) removed
        refine (ih next_wf (by omega)).imp fun sm' ⟨wf', points', range'⟩ =>
          ⟨wf', ?_, next_range.trans range'⟩
        rw [points', next_points, inside, sdiff_sdiff,
          sup_eq_right.mpr (Set.Ico_subset_Ico (le_max_right _ _) (min_le_right _ _))]

theorem spaceMapExcise_spec (zfsRecover : Bool) (wf : sm.Wf) (noWrap : start + size < 2 ^ 64) :
    Returns (spaceMapExcise zfsRecover sm start size) fun sm' =>
      sm'.Wf ∧ sm'.points = sm.points \ Set.Ico start (start + size) ∧ SameRange sm sm' := by
  rw [spaceMapExcise, add64_eq noWrap]
  refine spaceMapExciseLoop_spec zfsRecover (by omega) noWrap _ wf ?_
  exact Nat.lt_succ_of_le countP_le_length

/-- What a callback does to the set of its map. -/
inductive SetAction where
  | insert
  | delete
  deriving DecidableEq, Repr

/-- The set after a callback has been called for the offsets `part`. -/
def SetAction.apply (action : SetAction) (whole part : Set ℕ) : Set ℕ :=
  match action with
  | insert => whole ∪ part
  | delete => whole \ part

theorem SetAction.apply_empty (action : SetAction) (whole : Set ℕ) :
    action.apply whole ∅ = whole := by
  cases action <;> simp [apply]

theorem SetAction.apply_union (action : SetAction) (whole first second : Set ℕ) :
    action.apply (action.apply whole first) second = action.apply whole (first ∪ second) := by
  cases action with
  | insert => exact Set.union_assoc _ _ _
  | delete => exact sdiff_sdiff _ _ _

/-- A callback that returns or panics and acts on the set as `action`. -/
structure Implements (func : SpaceMapFunc) (action : SetAction) : Prop where
  /-- It does not run out of fuel. -/
  terminates : ∀ sm start size, sm.Wf → start + size < 2 ^ 64 → func sm start size ≠ .error .fuel
  acts : ∀ sm sm' start size, sm.Wf → start + size < 2 ^ 64 → func sm start size = .ok sm' →
    sm'.Wf ∧ sm'.points = action.apply sm.points (Set.Ico start (start + size)) ∧ SameRange sm sm'

theorem implements_add (zfsRecover : Bool) : Implements (spaceMapAdd zfsRecover) .insert :=
  ⟨fun sm start size _ _ => spaceMapAdd_ne_fuel zfsRecover sm start size,
    fun _ _ _ _ wf noWrap ok => spaceMapAdd_ok wf noWrap ok⟩

theorem implements_remove (zfsRecover : Bool) : Implements (spaceMapRemove zfsRecover) .delete :=
  ⟨fun sm start size _ _ => spaceMapRemove_ne_fuel zfsRecover sm start size,
    fun _ _ _ _ wf noWrap ok => spaceMapRemove_ok wf noWrap ok⟩

theorem implements_excise (zfsRecover : Bool) : Implements (spaceMapExcise zfsRecover) .delete :=
  ⟨fun _ _ _ wf noWrap => (spaceMapExcise_spec zfsRecover wf noWrap).1,
    fun _ sm' _ _ wf noWrap => (spaceMapExcise_spec zfsRecover wf noWrap).2 sm'⟩

theorem Implements.returns {func : SpaceMapFunc} {action : SetAction}
    (implements : Implements func action) (wf : sm.Wf) (noWrap : start + size < 2 ^ 64) :
    Returns (func sm start size) fun sm' => sm'.Wf ∧
      sm'.points = action.apply sm.points (Set.Ico start (start + size)) ∧ SameRange sm sm' :=
  ⟨implements.terminates _ _ _ wf noWrap, fun _ => implements.acts _ _ _ _ wf noWrap⟩

/-- Segments with 64-bit ends, as a callback receives them. -/
def Callable (segs : List Seg) : Prop := ∀ ss ∈ segs, ss.ssStart < ss.ssEnd ∧ ss.ssEnd < 2 ^ 64

theorem SpaceMap.Wf.callable (wf : sm.Wf) : Callable sm.segs :=
  fun ss member => ⟨wf.separated.proper ss member, wf.bounded ss member⟩

/-- Calling a callback for every segment acts with the set they cover. -/
theorem Implements.applyFunc {func : SpaceMapFunc} {action : SetAction}
    (implements : Implements func action) (segs : List Seg) (callable : Callable segs)
    {mdest : SpaceMap} (wf : mdest.Wf) :
    Returns (Zfs.applyFunc func mdest segs) fun mdest' => mdest'.Wf ∧
      mdest'.points = action.apply mdest.points (segsCover segs) ∧ SameRange mdest mdest' := by
  induction segs generalizing mdest with
  | nil =>
    refine .ok ⟨wf, ?_, .refl _⟩
    rw [segsCover, cover_nil, action.apply_empty]
  | cons ss segs ih =>
    obtain ⟨proper, bounded⟩ := callable ss (by simp)
    have length : sub64 ss.ssEnd ss.ssStart = ss.ssEnd - ss.ssStart := sub64_eq proper.le bounded
    have sum : ss.ssStart + (ss.ssEnd - ss.ssStart) = ss.ssEnd := by omega
    rw [Zfs.applyFunc, length]
    refine (implements.returns wf (by omega)).bind fun next ⟨next_wf, next_points, next_range⟩ => ?_
    refine (ih (fun other member => callable other (by simp [member])) next_wf).imp
      fun mdest' ⟨wf', points', range'⟩ => ⟨wf', ?_, next_range.trans range'⟩
    rw [points', next_points, sum, action.apply_union, segsCover, segsCover, cover_cons]

end Zfs
