import Zfs.SpaceMap.Code
import Zfs.Library.Segments

/-!
# The invariant of a space map

A well-formed space map holds separated, aligned segments inside its range, and `sm_space` is their
total length.  Each operation is specified by what it does to the set of offsets in the map.
-/

namespace Zfs

open BalancedTree BalTree Segments Nat Set

/-- The segments are not empty, increase and do not touch. -/
abbrev SegsSeparated (segs : List Seg) : Prop := Separated Seg.ssStart Seg.ssEnd segs

/-- The offsets covered by a list of segments. -/
abbrev segsCover (segs : List Seg) : Set ℕ := cover Seg.ssStart Seg.ssEnd segs

/-- The total length of a list of segments. -/
abbrev segsTotal (segs : List Seg) : ℕ := total Seg.ssStart Seg.ssEnd segs

namespace SpaceMap

/-- The segments of a map, in tree order. -/
def segs (sm : SpaceMap) : List Seg := sm.smRoot.toList

/-- The offsets in a map. -/
def points (sm : SpaceMap) : Set ℕ := segsCover sm.segs

/-- What every operation on a map keeps. -/
structure Wf (sm : SpaceMap) : Prop where
  balanced : sm.smRoot.Balanced
  /-- The segments do not touch. -/
  separated : SegsSeparated sm.segs
  /-- They are of whole units. -/
  aligned : ∀ ss ∈ sm.segs, ss.ssStart % 2 ^ sm.smShift = 0 ∧ ss.ssEnd % 2 ^ sm.smShift = 0
  /-- They are in the range. -/
  inside : ∀ ss ∈ sm.segs, sm.smStart ≤ ss.ssStart ∧ ss.ssEnd ≤ sm.smStart + sm.smSize
  /-- They end at 64-bit numbers. -/
  bounded : ∀ ss ∈ sm.segs, ss.ssEnd < 2 ^ 64
  /-- The space is the sum of their sizes. -/
  space_eq : sm.smSpace = segsTotal sm.segs

end SpaceMap

theorem SpaceMap.wf_of_nil {sm : SpaceMap} (nothing : sm.smRoot = .nil) (space : sm.smSpace = 0) :
    sm.Wf := by
  have segs_eq : sm.segs = [] := by rw [segs, nothing, toList]
  refine ⟨by rw [nothing]; trivial, ?_, ?_, ?_, ?_, by rw [segs_eq]; exact space⟩
  all_goals rw [segs_eq]
  · exact .nil
  all_goals simp

theorem wf_spaceMapCreate (start size shift : ℕ) : (spaceMapCreate start size shift).Wf :=
  SpaceMap.wf_of_nil rfl rfl

@[simp] theorem points_spaceMapCreate (start size shift : ℕ) :
    (spaceMapCreate start size shift).points = ∅ := by
  simp [SpaceMap.points, SpaceMap.segs, spaceMapCreate, toList]

variable {start stop : ℕ} {ss : Seg}

theorem spaceMapSegCompare_pos (proper : ss.ssStart < ss.ssEnd) :
    0 < spaceMapSegCompare ⟨start, stop⟩ ss ↔ ss.ssEnd ≤ start := by
  simp only [spaceMapSegCompare]
  split_ifs <;> omega

theorem spaceMapSegCompare_neg :
    spaceMapSegCompare ⟨start, stop⟩ ss < 0 ↔ start < ss.ssStart ∧ stop ≤ ss.ssStart := by
  simp only [spaceMapSegCompare]
  split_ifs <;> omega

theorem spaceMapSegCompare_zero (equal : spaceMapSegCompare ⟨start, stop⟩ ss = 0)
    (proper : ss.ssStart < ss.ssEnd) :
    start < ss.ssEnd ∧ (ss.ssStart ≤ start ∨ ss.ssStart < stop) := by
  have not_pos := (spaceMapSegCompare_pos proper).not.mp equal.not_gt
  have not_neg := spaceMapSegCompare_neg.not.mp equal.not_lt
  omega

variable {segs : List Seg}

/-- The comparison changes sign once along separated segments. -/
theorem falling_compare (separated : SegsSeparated segs) (start stop : ℕ) :
    Falling (spaceMapSegCompare ⟨start, stop⟩) segs := by
  refine separated.gaps.imp_of_mem fun {first second} first_mem second_mem gap => ⟨?_, ?_⟩
  · intro low
    by_contra high
    have second_left := (spaceMapSegCompare_pos (separated.proper second second_mem)).mp
      (not_le.mp high)
    have second_proper := separated.proper second second_mem
    have first_left : first.ssEnd ≤ start := by omega
    exact absurd ((spaceMapSegCompare_pos (separated.proper first first_mem)).mpr first_left)
      (not_lt.mpr low)
  · intro low
    have first_right := spaceMapSegCompare_neg.mp low
    have first_proper := separated.proper first first_mem
    exact spaceMapSegCompare_neg.mpr ⟨by omega, by omega⟩

variable {sm : SpaceMap} {place : Context Seg}

/-- The segments around the place where a search that failed ended. -/
theorem SpaceMap.Wf.findSeg_missing (wf : sm.Wf)
    (missing : findSeg sm start stop = (place, .nil)) :
    plug place .nil = sm.smRoot ∧ (∀ ss ∈ before place, ss.ssEnd ≤ start) ∧
    ∀ ss ∈ after place, start < ss.ssStart ∧ stop ≤ ss.ssStart := by
  have whole := plug_search (spaceMapSegCompare ⟨start, stop⟩) sm.smRoot []
  have straddles := straddles_search (spaceMapSegCompare ⟨start, stop⟩) sm.smRoot []
    (falling_compare wf.separated start stop) ⟨by simp [before], by simp [after]⟩
  rw [findSeg] at missing
  rw [missing] at whole straddles
  obtain ⟨left, right⟩ := straddles rfl
  have inside : ∀ ss ∈ before place, ss ∈ sm.segs := by
    intro ss member
    rw [SpaceMap.segs, show sm.smRoot = plug [] sm.smRoot from rfl, ← whole, toList_plug]
    simp [member]
  refine ⟨whole, fun ss member => ?_, fun ss member => spaceMapSegCompare_neg.mp (right ss member)⟩
  exact (spaceMapSegCompare_pos (wf.separated.proper ss (inside ss member))).mp (left ss member)

theorem SpaceMap.Wf.disjoint_of_missing (wf : sm.Wf)
    (missing : findSeg sm start stop = (place, .nil)) :
    Disjoint (Ico start stop) sm.points := by
  obtain ⟨whole, left, right⟩ := wf.findSeg_missing missing
  rw [disjoint_left]
  rintro point ⟨above, below⟩ ⟨ss, member, lower, upper⟩
  rw [SpaceMap.segs, ← whole, toList_plug] at member
  simp only [toList, List.append_nil, List.mem_append] at member
  rcases member with member | member
  · have before_start := left ss member
    omega
  · have after_stop := right ss member
    omega

variable {left right : BalTree Seg} {balance : ℤ}

theorem SpaceMap.Wf.findSeg_found (wf : sm.Wf)
    (found : findSeg sm start stop = (place, .node left ss balance right)) :
    plug place (.node left ss balance right) = sm.smRoot ∧ ss ∈ sm.segs ∧
    start < ss.ssEnd ∧ (ss.ssStart ≤ start ∨ ss.ssStart < stop) := by
  have whole := plug_search (spaceMapSegCompare ⟨start, stop⟩) sm.smRoot []
  have equal := diff_search (spaceMapSegCompare ⟨start, stop⟩) sm.smRoot []
    (by rw [show search _ sm.smRoot [] = _ from found]; rfl)
  rw [show search _ sm.smRoot [] = _ from found] at whole
  have member : ss ∈ sm.segs := by
    rw [SpaceMap.segs, show sm.smRoot = plug [] sm.smRoot from rfl, ← whole, toList_plug]
    simp [toList]
  exact ⟨whole, member, spaceMapSegCompare_zero equal (wf.separated.proper ss member)⟩

theorem mergeBefore_cases (separated : SegsSeparated segs) (left : ∀ ss ∈ segs, ss.ssEnd ≤ start) :
    (∃ rest ss, segs.getLast?.filter (fun ss => ss.ssEnd = start) = some ss ∧
        segs = rest ++ [ss] ∧ ss.ssEnd = start) ∨
      segs.getLast?.filter (fun ss => ss.ssEnd = start) = none ∧ ∀ ss ∈ segs, ss.ssEnd < start := by
  rcases segs.eq_nil_or_concat with rfl | ⟨rest, last, rfl⟩
  · exact .inr ⟨rfl, by simp⟩
  rw [List.concat_eq_append] at *
  by_cases touching : last.ssEnd = start
  · exact .inl ⟨rest, last, by simp [touching], rfl, touching⟩
  · refine .inr ⟨by simp [touching], fun ss member => ?_⟩
    have last_left := left last (by simp)
    obtain ⟨-, separated_last, crossing⟩ := separated_append.mp separated
    rcases List.mem_append.mp member with member | member
    · have gap := crossing ss member last (by simp)
      have proper := separated_last.proper last (by simp)
      omega
    · obtain rfl := List.mem_singleton.mp member
      omega

theorem mergeAfter_cases (separated : SegsSeparated segs)
    (right : ∀ ss ∈ segs, stop ≤ ss.ssStart) :
    (∃ rest ss, segs.head?.filter (fun ss => ss.ssStart = stop) = some ss ∧
        segs = ss :: rest ∧ ss.ssStart = stop) ∨
      segs.head?.filter (fun ss => ss.ssStart = stop) = none ∧ ∀ ss ∈ segs, stop < ss.ssStart := by
  cases segs with
  | nil => exact .inr ⟨rfl, by simp⟩
  | cons first rest =>
    by_cases touching : first.ssStart = stop
    · exact .inl ⟨rest, first, by simp [touching], rfl, touching⟩
    · refine .inr ⟨by simp [touching], fun ss member => ?_⟩
      have first_right := right first (by simp)
      obtain ⟨proper, gap, -⟩ := separated_cons.mp separated
      rcases List.mem_cons.mp member with rfl | member
      · omega
      · have above := gap ss member
        omega

/-- Touching neighbours and the new segment become one, in one place. -/
def Merged (old new : List Seg) (start stop : ℕ) : Prop :=
  ∃ left middle right seg, old = left ++ middle ++ right ∧ new = left ++ seg :: right ∧
    (∀ ss ∈ left, ss.ssEnd < seg.ssStart) ∧ (∀ ss ∈ right, seg.ssEnd < ss.ssStart) ∧
    segsCover middle ∪ Ico start stop = Ico seg.ssStart seg.ssEnd ∧
    segsTotal middle + (stop - start) = seg.ssEnd - seg.ssStart ∧
    (seg.ssStart = start ∨ ∃ ss ∈ middle, ss.ssStart = seg.ssStart) ∧
    (seg.ssEnd = stop ∨ ∃ ss ∈ middle, ss.ssEnd = seg.ssEnd)

theorem mergeIn_merged {root : BalTree Seg} (whole : plug place .nil = root)
    (separated : SegsSeparated root.toList) (proper : start < stop)
    (left : ∀ ss ∈ before place, ss.ssEnd ≤ start)
    (right : ∀ ss ∈ after place, stop ≤ ss.ssStart) :
    Merged root.toList (mergeIn root place start stop).toList start stop := by
  have list : root.toList = before place ++ after place := by
    rw [← whole, toList_plug]
    simp [toList]
  have nodup := separated.nodup
  rw [list] at separated
  obtain ⟨separated_before, separated_after, crossing⟩ := separated_append.mp separated
  simp only [mergeIn, nearest_left, nearest_right]
  rcases mergeBefore_cases separated_before left with
    ⟨before_rest, ssBefore, before_eq, before_list, before_touch⟩ | ⟨before_eq, before_apart⟩ <;>
  rcases mergeAfter_cases separated_after right with
    ⟨after_rest, ssAfter, after_eq, after_list, after_touch⟩ | ⟨after_eq, after_apart⟩ <;>
  simp only [before_eq, after_eq]
  · -- Both neighbours touch: the left one goes away, the right one takes over its start.
    have old : root.toList = before_rest ++ ssBefore :: ssAfter :: after_rest := by
      rw [list, before_list, after_list]
      simp
    rw [before_list] at separated_before crossing
    rw [after_list] at separated_after crossing
    obtain ⟨-, before_proper, before_gap⟩ := separated_append.mp separated_before
    obtain ⟨after_proper, after_gap, -⟩ := separated_cons.mp separated_after
    have before_proper := before_proper.proper ssBefore (by simp)
    have not_before : ssBefore ∉ before_rest := by
      intro member
      have gap := before_gap ssBefore member ssBefore (by simp)
      omega
    have erased : (root.removeValue ssBefore).toList = before_rest ++ ssAfter :: after_rest := by
      rw [toList_removeValue nodup, old, List.erase_append_right _ not_before, List.erase_cons_head]
    have erased_nodup : (root.removeValue ssBefore).toList.Nodup := by
      rw [toList_removeValue nodup]
      exact nodup.erase _
    refine ⟨before_rest, [ssBefore, ssAfter], after_rest, ⟨ssBefore.ssStart, ssAfter.ssEnd⟩,
      by simp [old], toList_replaceValue _ erased erased_nodup, ?_, after_gap, ?_, ?_,
      .inr ⟨ssBefore, by simp, rfl⟩, .inr ⟨ssAfter, by simp, rfl⟩⟩
    · intro ss member
      exact before_gap ss member ssBefore (by simp)
    · ext point
      simp
      omega
    · simp
      omega
  · have old : root.toList = before_rest ++ ssBefore :: after place := by
      rw [list, before_list]
      simp
    rw [before_list] at separated_before
    obtain ⟨-, before_proper, before_gap⟩ := separated_append.mp separated_before
    have before_proper := before_proper.proper ssBefore (by simp)
    refine ⟨before_rest, [ssBefore], after place, ⟨ssBefore.ssStart, stop⟩, by simp [old],
      toList_replaceValue _ old nodup, ?_, after_apart, ?_, ?_, .inr ⟨ssBefore, by simp, rfl⟩,
      .inl rfl⟩
    · intro ss member
      exact before_gap ss member ssBefore (by simp)
    · ext point
      simp
      omega
    · simp
      omega
  · have old : root.toList = before place ++ ssAfter :: after_rest := by
      rw [list, after_list]
    rw [after_list] at separated_after
    obtain ⟨after_proper, after_gap, -⟩ := separated_cons.mp separated_after
    refine ⟨before place, [ssAfter], after_rest, ⟨start, ssAfter.ssEnd⟩, by simp [old],
      toList_replaceValue _ old nodup, before_apart, after_gap, ?_, ?_, .inl rfl,
      .inr ⟨ssAfter, by simp, rfl⟩⟩
    · ext point
      simp
      omega
    · simp
      omega
  · refine ⟨before place, [], after place, ⟨start, stop⟩, by simp [list], toList_insertAt _ _,
      before_apart, after_apart, by simp, by simp, .inl rfl, .inl rfl⟩

theorem mergeIn_balanced {root : BalTree Seg} (start stop : ℕ) (whole : plug place .nil = root)
    (balanced : root.Balanced) :
    (mergeIn root place start stop).Balanced := by
  simp only [mergeIn]
  split
  · exact replaceValue_balanced _ _ (removeValue_balanced balanced)
  · exact replaceValue_balanced _ _ balanced
  · exact replaceValue_balanced _ _ balanced
  · exact insertAt_balanced _ _ (whole ▸ balanced)

/-- The range and the unit of a map never change. -/
structure SameRange (sm sm' : SpaceMap) : Prop where
  start : sm'.smStart = sm.smStart
  size : sm'.smSize = sm.smSize
  shift : sm'.smShift = sm.smShift

theorem SameRange.refl (sm : SpaceMap) : SameRange sm sm := ⟨rfl, rfl, rfl⟩

theorem SameRange.trans {first second third : SpaceMap} (one : SameRange first second)
    (two : SameRange second third) : SameRange first third :=
  ⟨two.start.trans one.start, two.size.trans one.size, two.shift.trans one.shift⟩

theorem unit64_iff {value : ℕ} : Unit64 sm value ↔ value % 2 ^ sm.smShift = 0 := by
  rw [Unit64, p2phase_two_pow]

variable {zfsRecover : Bool} {sm' : SpaceMap} {size : ℕ}

theorem spaceMapAdd_cases (ok : spaceMapAdd zfsRecover sm start size = .ok sm') :
    AddVerify sm start size ∧
    ((∃ place, findSeg sm start (add64 start size) = (place, .nil) ∧
        sm' = { sm with
          smRoot := mergeIn sm.smRoot place start (add64 start size)
          smSpace := add64 sm.smSpace size }) ∨
      (zfsRecover = true ∧ sm' = sm ∧ ∃ place left ss balance right,
        findSeg sm start (add64 start size) = (place, .node left ss balance right) ∧
        ss.ssStart ≤ start ∧ add64 start size ≤ ss.ssEnd)) := by
  unfold spaceMapAdd at ok
  extract_lets stop at ok
  split_ifs at ok with verified
  refine ⟨verified, ?_⟩
  split at ok
  · next place missing => exact .inl ⟨place, missing, (Except.ok.inj ok).symm⟩
  · next place left ss balance right found =>
      split_ifs at ok with contained
      exact .inr ⟨contained.2.2, (Except.ok.inj ok).symm, place, left, ss, balance, right, found,
        contained.1, contained.2.1⟩

theorem SpaceMap.Wf.space_lt (wf : sm.Wf) : sm.smSpace < 2 ^ 64 := by
  have short : segsTotal sm.segs ≤ 2 ^ 64 - 1 - 0 :=
    wf.separated.total_le (fun ss _ => zero_le ss.ssStart)
      fun ss member => le_sub_one_of_lt (wf.bounded ss member)
  rw [wf.space_eq]
  omega

theorem SpaceMap.Wf.space_le (wf : sm.Wf) : sm.smSpace ≤ sm.smSize := by
  have short := wf.separated.total_le (fun ss member => (wf.inside ss member).1)
    fun ss member => (wf.inside ss member).2
  rwa [add_tsub_cancel_left, ← segsTotal, ← wf.space_eq] at short

theorem SpaceMap.Wf.splice {first middle pieces last : List Seg} {root : BalTree Seg} {space : ℕ}
    (wf : sm.Wf) (old : sm.segs = first ++ middle ++ last)
    (new : root.toList = first ++ pieces ++ last) (balanced : root.Balanced)
    (separated : SegsSeparated pieces)
    (after_first : ∀ ss ∈ first, ∀ piece ∈ pieces, ss.ssEnd < piece.ssStart)
    (before_last : ∀ piece ∈ pieces, ∀ ss ∈ last, piece.ssEnd < ss.ssStart)
    (aligned : ∀ piece ∈ pieces,
      piece.ssStart % 2 ^ sm.smShift = 0 ∧ piece.ssEnd % 2 ^ sm.smShift = 0)
    (inside : ∀ piece ∈ pieces, sm.smStart ≤ piece.ssStart ∧
      piece.ssEnd ≤ sm.smStart + sm.smSize ∧ piece.ssEnd < 2 ^ 64)
    (totals : space + segsTotal middle = sm.smSpace + segsTotal pieces) :
    ({ sm with smRoot := root, smSpace := space } : SpaceMap).Wf := by
  have member_cases : ∀ ss ∈ root.toList, ss ∈ sm.segs ∨ ss ∈ pieces := by
    intro ss member
    rw [new, List.mem_append, List.mem_append] at member
    rw [old, List.mem_append, List.mem_append]
    tauto
  refine ⟨balanced, ?_, fun ss member => ?_, fun ss member => ?_, fun ss member => ?_, ?_⟩
  · rw [segs, new]
    exact (old ▸ wf.separated).splice separated after_first before_last
  · exact (member_cases ss member).elim (wf.aligned ss) (aligned ss)
  · exact (member_cases ss member).elim (wf.inside ss) fun piece =>
      ⟨(inside ss piece).1, (inside ss piece).2.1⟩
  · exact (member_cases ss member).elim (wf.bounded ss) fun piece => (inside ss piece).2.2
  · rw [wf.space_eq, old] at totals
    simp only [segs, new, segsTotal, total_append] at totals ⊢
    omega

theorem SpaceMap.Wf.mergeIn (wf : sm.Wf) (noWrap : start + size < 2 ^ 64) (nonempty : size ≠ 0)
    (lower : sm.smStart ≤ start) (upper : start + size ≤ sm.smStart + sm.smSize)
    (start_unit : Unit64 sm start) (size_unit : Unit64 sm size)
    (missing : findSeg sm start (start + size) = (place, .nil)) :
    let sm' : SpaceMap := { sm with
      smRoot := Zfs.mergeIn sm.smRoot place start (start + size)
      smSpace := sm.smSpace + size }
    sm'.Wf ∧ sm'.points = sm.points ∪ Ico start (start + size) ∧ sm.smSpace + size < 2 ^ 64 := by
  obtain ⟨whole, left, right⟩ := wf.findSeg_missing missing
  obtain ⟨first, middle, last, seg, old, new, after_first, before_last, cover_eq, total_eq,
    seg_start, seg_end⟩ := mergeIn_merged whole wf.separated (by omega : start < start + size) left
      fun ss member => (right ss member).2
  intro sm'
  rw [unit64_iff] at start_unit size_unit
  have stop_unit : (start + size) % 2 ^ sm.smShift = 0 := mod_eq_zero_of_dvd
    (dvd_add (dvd_of_mod_eq_zero start_unit) (dvd_of_mod_eq_zero size_unit))
  have segs_old : sm.segs = first ++ middle ++ last := old
  have old_middle : ∀ ss ∈ middle, ss ∈ sm.segs := by simp +contextual [segs_old]
  -- A property of both ends that the old segments and the new ends have is kept.
  have ends_kept : ∀ P Q : ℕ → Prop, (∀ ss ∈ sm.segs, P ss.ssStart ∧ Q ss.ssEnd) → P start →
      Q (start + size) → P seg.ssStart ∧ Q seg.ssEnd := by
    intro P Q held at_start at_end
    refine ⟨?_, ?_⟩
    · rcases seg_start with eq | ⟨other, member, eq⟩
      · exact eq ▸ at_start
      · exact eq ▸ (held other (old_middle other member)).1
    · rcases seg_end with eq | ⟨other, member, eq⟩
      · exact eq ▸ at_end
      · exact eq ▸ (held other (old_middle other member)).2
  have wf' : sm'.Wf := by
    clear seg_start seg_end
    refine wf.splice segs_old (by simpa using new : _ = first ++ [seg] ++ last)
      (mergeIn_balanced _ _ whole wf.balanced) (separated_cons.mpr ⟨by omega, by simp, .nil⟩)
      (by simpa using after_first) (by simpa using before_last) ?_ ?_ ?_
    · simpa using ends_kept (· % 2 ^ sm.smShift = 0) (· % 2 ^ sm.smShift = 0) wf.aligned start_unit
        stop_unit
    · simpa using ends_kept (sm.smStart ≤ ·) (fun stop => stop ≤ sm.smStart + sm.smSize ∧
        stop < 2 ^ 64) (fun ss member => ⟨(wf.inside ss member).1, (wf.inside ss member).2,
          wf.bounded ss member⟩) lower ⟨upper, noWrap⟩
    · simp only [segsTotal, total_cons, total_nil] at total_eq ⊢
      omega
  refine ⟨wf', ?_, wf'.space_lt⟩
  rw [SpaceMap.points, SpaceMap.points, show sm'.segs = _ from new, segs_old]
  simp only [cover_append, cover_cons, ← cover_eq]
  ext point
  simp only [mem_union]
  tauto

/-- `space_map_add` inserts its segment into the set, when no sum wraps around. -/
theorem spaceMapAdd_ok (wf : sm.Wf) (noWrap : start + size < 2 ^ 64)
    (ok : spaceMapAdd zfsRecover sm start size = .ok sm') :
    sm'.Wf ∧ sm'.points = sm.points ∪ Ico start (start + size) ∧ SameRange sm sm' := by
  obtain ⟨⟨nonempty, lower, upper, -, start_unit, size_unit⟩, merged | kept⟩ := spaceMapAdd_cases ok
  · obtain ⟨place, missing, rfl⟩ := merged
    rw [add64_eq noWrap] at missing upper ⊢
    have upper' : start + size ≤ sm.smStart + sm.smSize := upper.trans (mod_le _ _)
    obtain ⟨wf', points', small⟩ :=
      wf.mergeIn noWrap nonempty lower upper' start_unit size_unit missing
    rw [add64_eq small]
    exact ⟨wf', points', rfl, rfl, rfl⟩
  · obtain ⟨-, rfl, place, left, ss, balance, right, found, start_le, end_le⟩ := kept
    rw [add64_eq noWrap] at found end_le
    obtain ⟨-, member, -⟩ := wf.findSeg_found found
    refine ⟨wf, ?_, .refl _⟩
    rw [union_eq_left.mpr]
    intro point inside
    exact ⟨ss, member, start_le.trans inside.1, inside.2.trans_le end_le⟩

theorem SpaceMap.Wf.findSeg_of_disjoint (wf : sm.Wf) (proper : start < stop)
    (disjoint : Disjoint (Ico start stop) sm.points) :
    ∃ place, findSeg sm start stop = (place, .nil) := by
  cases result : findSeg sm start stop with
  | mk place found =>
    cases found with
    | nil => exact ⟨place, rfl⟩
    | node left ss balance right =>
      obtain ⟨-, member, start_lt, overlap⟩ := wf.findSeg_found result
      have ss_proper := wf.separated.proper ss member
      have common : max start ss.ssStart ∈ Ico start stop := ⟨by omega, by omega⟩
      exact (disjoint_left.mp disjoint common
        ⟨ss, member, by omega, by omega⟩).elim

/-- `space_map_add` accepts every segment that is not in the map. -/
theorem spaceMapAdd_of_disjoint (zfsRecover : Bool) (wf : sm.Wf)
    (range : sm.smStart + sm.smSize < 2 ^ 64) (nonempty : size ≠ 0) (lower : sm.smStart ≤ start)
    (upper : start + size ≤ sm.smStart + sm.smSize) (start_unit : Unit64 sm start)
    (size_unit : Unit64 sm size) (disjoint : Disjoint (Ico start (start + size)) sm.points) :
    ∃ sm', spaceMapAdd zfsRecover sm start size = .ok sm' := by
  have noWrap : start + size < 2 ^ 64 := by omega
  obtain ⟨place, missing⟩ := wf.findSeg_of_disjoint (by omega : start < start + size) disjoint
  obtain ⟨wf', -, small⟩ := wf.mergeIn noWrap nonempty lower upper start_unit size_unit missing
  have verified : AddVerify sm start size := by
    refine ⟨nonempty, lower, ?_, ?_, start_unit, size_unit⟩
    · rw [add64_eq noWrap, add64_eq range]
      exact upper
    · rw [add64_eq small]
      exact wf'.space_le
  simp only [spaceMapAdd, if_pos verified, add64_eq noWrap, missing]
  exact ⟨_, rfl⟩

/-- What is left of a segment when `[start, stop)` is cut out of it. -/
def leftovers (ss : Seg) (start stop : ℕ) : List Seg :=
  (if ss.ssStart ≠ start then [⟨ss.ssStart, start⟩] else []) ++
    if ss.ssEnd ≠ stop then [⟨stop, ss.ssEnd⟩] else []

theorem toList_cutOut (place : Context Seg) (left right : BalTree Seg) (ss : Seg) (balance : ℤ)
    (start stop : ℕ) :
    (cutOut place left ss balance right start stop).toList =
      before place ++ left.toList ++ leftovers ss start stop ++ (right.toList ++ after place) := by
  unfold cutOut leftovers
  by_cases left_over : ss.ssStart = start <;> by_cases right_over : ss.ssEnd = stop
  · rw [if_neg (by simp [left_over]), if_neg (by simp [left_over]), if_neg (by simp [right_over]),
      toList_removeAt]
    simp [left_over, right_over]
  · rw [if_neg (by simp [left_over]), if_neg (by simp [left_over]), if_pos right_over, toList_plug]
    simp [left_over, right_over, toList]
  · rw [if_neg (by simp [right_over]), if_pos left_over, toList_plug]
    simp [left_over, right_over, toList]
  · rw [if_pos ⟨left_over, right_over⟩, toList_insertBeside_right]
    simp [left_over, right_over]

theorem cutOut_balanced (start stop : ℕ)
    (balanced : (plug place (.node left ss balance right)).Balanced) :
    (cutOut place left ss balance right start stop).Balanced := by
  have relabel : ∀ other : Seg, (plug place (.node left other balance right)).Balanced := by
    intro other
    rw [balanced_plug] at balanced ⊢
    exact balanced
  unfold cutOut
  split_ifs
  · exact insertBeside_balanced _ _ _ _ _ _ _ (relabel _)
  · exact relabel _
  · exact relabel _
  · exact removeAt_balanced _ _ _ _ _ balanced

theorem leftovers_separated (start_le : ss.ssStart ≤ start) (end_le : stop ≤ ss.ssEnd)
    (proper : start < stop) : SegsSeparated (leftovers ss start stop) := by
  unfold leftovers
  split_ifs with left_over right_over right_over
  all_goals
    simp only [List.append_nil, List.nil_append, List.cons_append, separated_cons, List.mem_cons,
      List.not_mem_nil, or_false, false_implies, implies_true, forall_eq, true_and]
  · exact ⟨by omega, proper, by omega, .nil⟩
  · exact ⟨by omega, .nil⟩
  · exact ⟨by omega, .nil⟩
  · exact .nil

theorem mem_leftovers {piece : Seg} (member : piece ∈ leftovers ss start stop) :
    (piece.ssStart = ss.ssStart ∨ piece.ssStart = stop) ∧
    (piece.ssEnd = ss.ssEnd ∨ piece.ssEnd = start) := by
  unfold leftovers at member
  split_ifs at member <;> simp at member
  · rcases member with rfl | rfl
    · exact ⟨.inl rfl, .inr rfl⟩
    · exact ⟨.inr rfl, .inl rfl⟩
  · subst member
    exact ⟨.inl rfl, .inr rfl⟩
  · subst member
    exact ⟨.inr rfl, .inl rfl⟩

theorem cover_leftovers (start_le : ss.ssStart ≤ start) (end_le : stop ≤ ss.ssEnd)
    (proper : start < stop) :
    segsCover (leftovers ss start stop) = Ico ss.ssStart ss.ssEnd \ Ico start stop := by
  ext point
  unfold leftovers
  split_ifs <;> simp <;> omega

theorem total_leftovers (start_le : ss.ssStart ≤ start) (end_le : stop ≤ ss.ssEnd)
    (proper : start < stop) :
    segsTotal (leftovers ss start stop) + (stop - start) = ss.ssEnd - ss.ssStart := by
  unfold leftovers
  split_ifs <;> simp <;> omega

theorem SpaceMap.Wf.cutOut (wf : sm.Wf) (nonempty : size ≠ 0) (start_unit : Unit64 sm start)
    (size_unit : Unit64 sm size) (whole : plug place (.node left ss balance right) = sm.smRoot)
    (start_le : ss.ssStart ≤ start) (end_le : start + size ≤ ss.ssEnd) :
    let sm' : SpaceMap := { sm with
      smRoot := Zfs.cutOut place left ss balance right start (start + size)
      smSpace := sm.smSpace - size }
    sm'.Wf ∧ sm'.points = sm.points \ Ico start (start + size) ∧ size ≤ sm.smSpace := by
  intro sm'
  have proper : start < start + size := by omega
  have segs_old : sm.segs = before place ++ left.toList ++ [ss] ++
      (right.toList ++ after place) := by
    rw [SpaceMap.segs, ← whole, toList_plug]
    simp [toList]
  have segs_new : sm'.segs = before place ++ left.toList ++ leftovers ss start (start + size) ++
      (right.toList ++ after place) := toList_cutOut _ _ _ _ _ _ _
  generalize before place ++ left.toList = first at segs_old segs_new
  generalize right.toList ++ after place = last at segs_old segs_new
  have wf_separated := wf.separated
  rw [segs_old, List.append_assoc] at wf_separated
  obtain ⟨-, separated_rest, crossing⟩ := separated_append.mp wf_separated
  obtain ⟨-, gap, -⟩ := separated_cons.mp separated_rest
  have ss_member : ss ∈ sm.segs := by simp [segs_old]
  have pieces : ∀ piece ∈ leftovers ss start (start + size),
      ss.ssStart ≤ piece.ssStart ∧ piece.ssEnd ≤ ss.ssEnd := by
    intro piece member
    have ends := mem_leftovers member
    omega
  have piece_total := total_leftovers start_le end_le proper
  have space_eq := wf.space_eq
  simp only [segs_old, segsTotal, total_append, total_cons, total_nil] at space_eq piece_total
  have room : size ≤ sm.smSpace := by omega
  rw [unit64_iff] at start_unit size_unit
  have stop_unit : (start + size) % 2 ^ sm.smShift = 0 := mod_eq_zero_of_dvd
    (dvd_add (dvd_of_mod_eq_zero start_unit) (dvd_of_mod_eq_zero size_unit))
  refine ⟨?_, ?_, room⟩
  · refine wf.splice segs_old segs_new (cutOut_balanced _ _ (whole ▸ wf.balanced))
      (leftovers_separated start_le end_le proper) ?_ ?_ ?_ ?_ ?_
    · intro other other_member piece member
      exact (crossing other other_member ss (by simp)).trans_le (pieces piece member).1
    · intro piece member other other_member
      exact (pieces piece member).2.trans_lt (gap other other_member)
    · intro piece member
      have ends := mem_leftovers member
      have units := wf.aligned ss ss_member
      exact ⟨by grind, by grind⟩
    · intro piece member
      have ends := pieces piece member
      have ss_inside := wf.inside ss ss_member
      have bounded := wf.bounded ss ss_member
      omega
    · simp only [segsTotal, total_cons, total_nil]
      omega
  · have first_below : ∀ point ∈ segsCover first, point < start := by
      rintro point ⟨other, member, -, below⟩
      have apart := crossing other member ss (by simp)
      omega
    have last_above : ∀ point ∈ segsCover last, start + size ≤ point := by
      rintro point ⟨other, member, above, -⟩
      have apart := gap other member
      omega
    rw [SpaceMap.points, SpaceMap.points, segs_new, segs_old]
    simp only [segsCover, cover_append, cover_cons, cover_nil]
    rw [show cover Seg.ssStart Seg.ssEnd (leftovers ss start (start + size)) = _ from
      cover_leftovers start_le end_le proper]
    ext point
    simp only [mem_union, mem_sdiff, mem_Ico]
    grind

theorem spaceMapRemove_cases (ok : spaceMapRemove zfsRecover sm start size = .ok sm') :
    UnitVerify sm start size ∧
    ((∃ place left ss balance right,
        findSeg sm start (add64 start size) = (place, .node left ss balance right) ∧
        ss.ssStart ≤ start ∧ add64 start size ≤ ss.ssEnd ∧
        sm' = { sm with
          smRoot := cutOut place left ss balance right start (add64 start size)
          smSpace := sub64 sm.smSpace size }) ∨
      (zfsRecover = true ∧ sm' = sm ∧ ∃ place,
        findSeg sm start (add64 start size) = (place, .nil))) := by
  by_cases verified : UnitVerify sm start size
  swap
  · simp only [spaceMapRemove, if_neg verified] at ok
    cases ok
  simp only [spaceMapRemove, if_pos verified] at ok
  refine ⟨verified, ?_⟩
  split at ok
  · next place missing =>
      split_ifs at ok with recover
      exact .inr ⟨recover, (Except.ok.inj ok).symm, place, missing⟩
  · next place left ss balance right found =>
      split_ifs at ok with contained
      exact .inl ⟨place, left, ss, balance, right, found, contained.1, contained.2.1,
        (Except.ok.inj ok).symm⟩

/-- `space_map_remove` takes its segment out of the set, when no sum wraps around. -/
theorem spaceMapRemove_ok (wf : sm.Wf) (noWrap : start + size < 2 ^ 64)
    (ok : spaceMapRemove zfsRecover sm start size = .ok sm') :
    sm'.Wf ∧ sm'.points = sm.points \ Ico start (start + size) ∧ SameRange sm sm' := by
  obtain ⟨⟨nonempty, start_unit, size_unit⟩, cut | kept⟩ := spaceMapRemove_cases ok
  · obtain ⟨place, left, ss, balance, right, found, start_le, end_le, rfl⟩ := cut
    rw [add64_eq noWrap] at found end_le ⊢
    obtain ⟨whole, -⟩ := wf.findSeg_found found
    obtain ⟨wf', points', room⟩ :=
      wf.cutOut nonempty start_unit size_unit whole start_le end_le
    rw [sub64_eq room wf.space_lt]
    exact ⟨wf', points', rfl, rfl, rfl⟩
  · obtain ⟨-, rfl, place, missing⟩ := kept
    rw [add64_eq noWrap] at missing
    refine ⟨wf, ?_, .refl _⟩
    exact (sdiff_eq_left.mpr (wf.disjoint_of_missing missing).symm).symm

/-- A segment that `space_map_remove` accepts was in the map. -/
theorem spaceMapRemove_subset (wf : sm.Wf) (noWrap : start + size < 2 ^ 64)
    (ok : spaceMapRemove false sm start size = .ok sm') :
    Ico start (start + size) ⊆ sm.points := by
  obtain ⟨-, ⟨place, left, ss, balance, right, found, start_le, end_le, -⟩ | ⟨recover, -⟩⟩ :=
    spaceMapRemove_cases ok
  · rw [add64_eq noWrap] at found end_le
    obtain ⟨-, member, -⟩ := wf.findSeg_found found
    intro point inside
    exact ⟨ss, member, start_le.trans inside.1, inside.2.trans_le end_le⟩
  · cases recover

theorem SpaceMap.Wf.findSeg_of_subset (wf : sm.Wf) (proper : start < stop)
    (subset : Ico start stop ⊆ sm.points) :
    ∃ place left ss balance right, findSeg sm start stop = (place, .node left ss balance right) ∧
    ss.ssStart ≤ start ∧ stop ≤ ss.ssEnd := by
  obtain ⟨ss, member, start_le, end_le⟩ := (wf.separated.Ico_subset_iff proper).mp subset
  cases result : findSeg sm start stop with
  | mk place found =>
    cases found with
    | nil =>
      have apart := wf.disjoint_of_missing result
      exact (disjoint_left.mp apart ⟨le_rfl, proper⟩ (subset ⟨le_rfl, proper⟩)).elim
    | node left other balance right =>
      obtain ⟨-, other_member, start_lt, overlap⟩ := wf.findSeg_found result
      have same : other = ss := by
        rcases wf.separated.eq_or_gap other_member member with same | gap | gap
        · exact same
        · omega
        · omega
      subst same
      exact ⟨place, left, other, balance, right, rfl, start_le, end_le⟩

/-- `space_map_remove` accepts every aligned segment of the set. -/
theorem spaceMapRemove_of_subset (zfsRecover : Bool) (wf : sm.Wf) (nonempty : size ≠ 0)
    (start_unit : Unit64 sm start) (size_unit : Unit64 sm size)
    (subset : Ico start (start + size) ⊆ sm.points) :
    ∃ sm', spaceMapRemove zfsRecover sm start size = .ok sm' := by
  have proper : start < start + size := by omega
  obtain ⟨place, left, ss, balance, right, found, start_le, end_le⟩ :=
    wf.findSeg_of_subset proper subset
  obtain ⟨whole, member, -⟩ := wf.findSeg_found found
  have noWrap : start + size < 2 ^ 64 := end_le.trans_lt (wf.bounded ss member)
  obtain ⟨wf', -, room⟩ := wf.cutOut nonempty start_unit size_unit whole start_le end_le
  have verified : UnitVerify sm start size := ⟨nonempty, start_unit, size_unit⟩
  have accepted : ss.ssStart ≤ start ∧ start + size ≤ ss.ssEnd ∧
      sub64 sm.smSpace size ≤ sm.smSize := by
    refine ⟨start_le, end_le, ?_⟩
    rw [sub64_eq room wf.space_lt]
    exact wf'.space_le
  simp only [spaceMapRemove, if_pos verified, add64_eq noWrap, found, if_pos accepted]
  exact ⟨_, rfl⟩

/-- `space_map_contains` decides whether its segment is a subset of the map. -/
theorem spaceMapContains_iff (wf : sm.Wf) (noWrap : start + size < 2 ^ 64)
    (verified : UnitVerify sm start size) :
    ∃ answer, spaceMapContains sm start size = .ok answer ∧
    (answer = true ↔ Ico start (start + size) ⊆ sm.points) := by
  have proper : start < start + size := by
    have nonempty := verified.1
    omega
  simp only [spaceMapContains, if_pos verified, add64_eq noWrap]
  cases result : findSeg sm start (start + size) with
  | mk place found =>
    cases found with
    | nil =>
      refine ⟨false, rfl, fun impossible => absurd impossible Bool.false_ne_true, fun subset => ?_⟩
      have apart := wf.disjoint_of_missing result
      exact (disjoint_left.mp apart ⟨le_rfl, proper⟩ (subset ⟨le_rfl, proper⟩)).elim
    | node left ss balance right =>
      refine ⟨_, rfl, ?_⟩
      obtain ⟨-, member, -⟩ := wf.findSeg_found result
      simp only [decide_eq_true_eq]
      constructor
      · rintro ⟨start_le, end_le⟩ point inside
        exact ⟨ss, member, start_le.trans inside.1, inside.2.trans_le end_le⟩
      · intro subset
        obtain ⟨_, _, _, _, _, found, start_le, end_le⟩ := wf.findSeg_of_subset proper subset
        rw [result] at found
        obtain ⟨-, -, rfl, -, -⟩ := by simpa using found
        exact ⟨start_le, end_le⟩

end Zfs
