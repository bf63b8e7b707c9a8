import Zfs.SpaceMap.Replay

/-!
# Histories of the on-disk space map

After any sequence of batches that are consistent with each other, `space_map_load` finds in the log
the set of offsets whose last recorded action is an allocation, or the complement of that set.
-/

namespace Zfs

open BalancedTree BalTree Segments List Set

variable {zfsRecover : Bool} {maptype : MapType} {mapstart : ℕ} {sm sm' : SpaceMap}

/-- A prefix of a log that replays also replays. -/
theorem loadEntries_prefix {first second : List ℕ}
    (ok : loadEntries zfsRecover maptype mapstart (first ++ second) sm = .ok sm') :
    ∃ next, loadEntries zfsRecover maptype mapstart first sm = .ok next ∧
    loadEntries zfsRecover maptype mapstart second next = .ok sm' := by
  rw [loadEntries_append] at ok
  exact bind_ok ok

variable {entries : List ℕ} {part : Set ℕ} {object' : DmuObject}

theorem loadEntries_same (ok : loadEntries zfsRecover maptype mapstart entries sm = .ok sm') :
    SameRange sm sm' ∧ SameLoad sm sm' := by
  induction entries generalizing sm with
  | nil =>
    cases ok
    exact ⟨.refl _, rfl, rfl⟩
  | cons entry entries ih =>
    obtain ⟨next, loaded, rest⟩ := bind_ok ok
    obtain ⟨range, load⟩ := ih rest
    simp only [loadEntry] at loaded
    split_ifs at loaded with debug same
    · cases loaded
      exact ⟨range, load⟩
    · obtain ⟨one, one'⟩ := spaceMapAdd_same loaded
      exact ⟨one.trans range, one'.trans load⟩
    · obtain ⟨one, one'⟩ := spaceMapRemove_same loaded
      exact ⟨one.trans range, one'.trans load⟩

theorem dmuRead_block (object : DmuObject) {stop offset : ℕ} (words : 8 ∣ stop)
    (block : 8 ∣ offset) :
    dmuRead object offset (stop - offset) =
      dmuRead object offset (min (stop - offset) spaceMapBlock) ++
        dmuRead object (offset + spaceMapBlock) (stop - (offset + spaceMapBlock)) := by
  have block_eq : spaceMapBlock = 4096 := rfl
  by_cases last : stop - offset ≤ spaceMapBlock
  · have rest : stop - (offset + spaceMapBlock) = 0 := by omega
    rw [min_eq_left last, rest]
    simp [dmuRead]
  · have split : stop - offset = spaceMapBlock + (stop - (offset + spaceMapBlock)) := by omega
    rw [min_eq_right (by omega)]
    nth_rewrite 1 [split]
    exact dmuRead_append _ _ _ (by rw [block_eq]; decide)

variable {object : DmuObject}

/-- The loop of `space_map_load` from a block on replays the rest of the log, or stops at an error.
-/
theorem loadBlocks_spec {stop : ℕ} (readError : ℕ → ℕ) (words : 8 ∣ stop) {count block : ℕ}
    (count_eq : count = (stop - block * spaceMapBlock + spaceMapBlock - 1) / spaceMapBlock)
    (replayed : loadEntries zfsRecover maptype mapstart
      (dmuRead object (block * spaceMapBlock) (stop - block * spaceMapBlock)) sm = .ok sm') :
    ((∀ index, block ≤ index → index * spaceMapBlock < stop →
        readError (index * spaceMapBlock) = 0) →
      loadBlocks zfsRecover maptype mapstart stop object readError
        ((range' block count).map (· * spaceMapBlock)) sm = .ok (sm', 0)) ∧
    ((∃ index, block ≤ index ∧ index * spaceMapBlock < stop ∧
        readError (index * spaceMapBlock) ≠ 0) →
      ∃ stopped error, loadBlocks zfsRecover maptype mapstart stop object readError
        ((range' block count).map (· * spaceMapBlock)) sm = .ok (stopped, error) ∧
          error ≠ 0 ∧ SameLoad sm stopped) := by
  have block_eq : spaceMapBlock = 4096 := rfl
  rw [block_eq] at count_eq replayed ⊢
  induction count generalizing block sm with
  | zero =>
    have finished : stop - block * 4096 = 0 := by omega
    rw [finished] at replayed
    refine ⟨fun _ => ?_, fun ⟨index, later, inside, _⟩ => by omega⟩
    rw [← Except.ok.inj replayed]
    rfl
  | succ count ih =>
    simp only [range'_succ, map_cons, loadBlocks, block_eq]
    generalize size_eq : min (stop - block * 4096) 4096 = size
    have whole : p2phase size 8 = 0 ∧ size ≠ 0 := by
      rw [show 8 = 1 <<< 3 from rfl, p2phase_two_pow]
      omega
    rw [if_pos whole]
    have split_read : dmuRead object (block * 4096) (stop - block * 4096) =
        dmuRead object (block * 4096) size ++
          dmuRead object ((block + 1) * 4096) (stop - (block + 1) * 4096) := by
      rw [dmuRead_block object words (by omega), block_eq, size_eq, Nat.succ_mul]
    rw [split_read] at replayed
    obtain ⟨next, loaded, replayed⟩ := loadEntries_prefix replayed
    obtain ⟨success, failure⟩ := ih (by omega) replayed
    by_cases failed : readError (block * 4096) ≠ 0
    · rw [if_pos failed]
      exact ⟨fun clean => absurd (clean block le_rfl (by omega)) failed,
        fun _ => ⟨sm, _, rfl, failed, rfl, rfl⟩⟩
    · rw [if_neg failed, loaded]
      refine ⟨fun clean => success fun index later => clean index (by omega), ?_⟩
      rintro ⟨index, later, inside, error⟩
      have other : index ≠ block := by
        rintro rfl
        exact failed error
      obtain ⟨stopped, code, ok, nonzero, same⟩ := failure ⟨index, by omega, inside, error⟩
      exact ⟨stopped, code, ok, nonzero, (loadEntries_same loaded).2.trans same⟩

/-- The offsets of a map loaded with a type. -/
def loadedSet (range : SpaceMap) (allocated : Set ℕ) : MapType → Set ℕ
  | .alloc => allocated
  | .free => Ico range.smStart (range.smStart + range.smSize) \ allocated

variable {range : SpaceMap} {allocated : Set ℕ}

/-- A batch permitted in the allocated set does the same to a map of either type. -/
theorem loadedSet_apply (inside : part ⊆ Ico range.smStart (range.smStart + range.smSize))
    (permitted : (loadAction maptype .alloc).Permits allocated part) (loadtype : MapType) :
    (loadAction maptype loadtype).Permits (loadedSet range allocated loadtype) part ∧
    (loadAction maptype loadtype).apply (loadedSet range allocated loadtype) part =
      loadedSet range ((loadAction maptype .alloc).apply allocated part) loadtype := by
  cases maptype with
  | alloc =>
    cases loadtype with
    | alloc => exact ⟨permitted, rfl⟩
    | free => exact ⟨subset_sdiff.mpr ⟨inside, permitted⟩, sdiff_sdiff _ _ _⟩
  | free =>
    cases loadtype with
    | alloc => exact ⟨permitted, rfl⟩
    | free =>
      refine ⟨Set.disjoint_sdiff_right.mono_left permitted, ?_⟩
      exact (Set.sdiff_sdiff_right.trans
        (congrArg _ (Set.inter_eq_right.mpr inside))).symm

/-- The log of an object records an allocated set. -/
structure Recorded (range : SpaceMap) (allocated : Set ℕ) (smo : SpaceMapObj)
    (object : DmuObject) : Prop where
  /-- The log has whole words. -/
  words : 8 ∣ smo.smoObjsize
  /-- The object counts the set. -/
  alloc_eq : smo.smoAlloc = allocated.ncard
  /-- The set is in the range. -/
  inside : allocated ⊆ Ico range.smStart (range.smStart + range.smSize)
  /-- The log replays as the allocated set, or its complement. -/
  replays : ∀ zfsRecover loadtype sm, sm.Wf → SameRange range sm →
    sm.points = loadedSet range ∅ loadtype →
      ∃ sm', loadEntries zfsRecover loadtype range.smStart (dmuRead object 0 smo.smoObjsize) sm =
        .ok sm' ∧ Becomes sm sm' (loadedSet range allocated loadtype)

variable {smo : SpaceMapObj}

theorem recorded_empty (range : SpaceMap) (object : DmuObject) (objsize : smo.smoObjsize = 0)
    (alloc : smo.smoAlloc = 0) : Recorded range ∅ smo object := by
  refine ⟨by simp [objsize], by simp [alloc], by simp, ?_⟩
  intro zfsRecover loadtype sm wf same points_eq
  rw [← points_eq, objsize]
  exact ⟨sm, rfl, wf.becomes⟩

theorem Recorded.congr (recorded : Recorded range allocated smo object)
    (same : dmuRead object' 0 smo.smoObjsize = dmuRead object 0 smo.smoObjsize) :
    Recorded range allocated smo object' :=
  { recorded with replays := by rw [same]; exact recorded.replays }

theorem ncard_le_size (inside : part ⊆ Ico range.smStart (range.smStart + range.smSize)) :
    part.Finite ∧ part.ncard ≤ range.smSize := by
  have whole := Set.finite_Ico range.smStart (range.smStart + range.smSize)
  refine ⟨whole.subset inside, ?_⟩
  calc part.ncard ≤ (Set.Ico range.smStart (range.smStart + range.smSize)).ncard :=
        Set.ncard_le_ncard inside whole
    _ = range.smSize := by
        rw [← Finset.coe_Ico, Set.ncard_coe_finset, Nat.card_Ico, Nat.add_sub_cancel_left]

theorem SameRange.symm (same : SameRange sm sm') : SameRange sm' sm :=
  ⟨same.start.symm, same.size.symm, same.shift.symm⟩

theorem SpaceMap.Ranged.congr (ranged : range.Ranged) (same : SameRange range sm) : sm.Ranged := by
  obtain ⟨start_unit, size_unit, nonempty, noWrap⟩ := ranged
  refine ⟨?_, ?_, by rwa [same.size], by rwa [same.start, same.size]⟩
  · rwa [Unit64, same.start, same.shift]
  · rwa [Unit64, same.size, same.shift]

theorem SpaceMap.Wf.points_inside (wf : sm.Wf) (same : SameRange range sm) :
    sm.points ⊆ Ico range.smStart (range.smStart + range.smSize) := by
  have subset := wf.points_subset
  rwa [same.start, same.size] at subset

theorem dmuRead_prefix {size size' : ℕ} (words : 8 ∣ size) (words' : 8 ∣ size')
    (log_eq : dmuRead object' 0 size' = dmuRead object 0 size ++ entries) :
    size ≤ size' ∧ dmuRead object' 0 size = dmuRead object 0 size := by
  have lengths := congrArg length log_eq
  simp only [dmuRead, length_append, length_map, length_range] at lengths
  have longer : size ≤ size' := by omega
  refine ⟨longer, ?_⟩
  obtain ⟨rest, rfl⟩ := Nat.exists_eq_add_of_le longer
  rw [dmuRead_append _ _ _ words] at log_eq
  exact append_inj_left log_eq (by simp [dmuRead])

/-- `smo_alloc` follows the size of the allocated set. -/
theorem Recorded.allocAfter_eq (ranged : range.Ranged)
    (recorded : Recorded range allocated smo object) (wf : sm.Wf) (same : SameRange range sm)
    (permitted : (loadAction maptype .alloc).Permits allocated sm.points) :
    allocAfter maptype smo.smoAlloc sm.smSpace =
        ((loadAction maptype .alloc).apply allocated sm.points).ncard ∧
      (loadAction maptype .alloc).apply allocated sm.points ⊆
        Ico range.smStart (range.smStart + range.smSize) := by
  have noWrap := ranged.noWrap
  obtain ⟨part_count, part_finite⟩ := wf.ncard_points
  obtain ⟨finite, small⟩ := ncard_le_size recorded.inside
  rw [recorded.alloc_eq, ← part_count]
  cases maptype with
  | alloc =>
    have union_inside := union_subset recorded.inside (wf.points_inside same)
    have count := ncard_union_eq permitted.symm finite part_finite
    refine ⟨(add64_eq ?_).trans count.symm, union_inside⟩
    have := (ncard_le_size union_inside).2
    omega
  | free =>
    exact ⟨(sub64_eq (ncard_le_ncard permitted finite) (by omega)).trans
      (ncard_sdiff permitted part_finite).symm, sdiff_subset.trans recorded.inside⟩

/-- `space_map_sync` records one more batch and leaves the log before it alone. -/
theorem Recorded.sync (ranged : range.Ranged) (recorded : Recorded range allocated smo object)
    (maptype : MapType) (syncPass txg : ℕ) (wf : sm.Wf) (same : SameRange range sm)
    (fits : sm.Fits) (permitted : (loadAction maptype .alloc).Permits allocated sm.points) :
    ∃ sm' smo' object', spaceMapSync maptype syncPass txg sm smo object = .ok (sm', smo', object') ∧
    Recorded range ((loadAction maptype .alloc).apply allocated sm.points) smo' object' ∧
    smo.smoObjsize ≤ smo'.smoObjsize ∧
    dmuRead object' 0 smo.smoObjsize = dmuRead object 0 smo.smoObjsize ∧
    smo'.smoObject = smo.smoObject ∧ Becomes sm sm' ∅ := by
  have noWrap := ranged.noWrap
  have small := (ncard_le_size recorded.inside).2
  obtain ⟨sm', smo', object', entries, ok, words, log_eq, replays, alloc, object_eq, emptied⟩ :=
    spaceMapSync_spec maptype syncPass txg wf (ranged.congr same) fits recorded.words
      (by rw [recorded.alloc_eq]; omega) object
  obtain ⟨alloc_eq, inside⟩ := recorded.allocAfter_eq ranged wf same permitted
  obtain ⟨longer, prefix_eq⟩ := dmuRead_prefix recorded.words words log_eq
  refine ⟨sm', smo', object', ok, ⟨words, alloc.trans alloc_eq, inside, ?_⟩, longer, prefix_eq,
    object_eq, emptied⟩
  intro zfsRecover loadtype target target_wf target_range points_eq
  obtain ⟨next, loaded, next_becomes⟩ :=
    recorded.replays zfsRecover loadtype target target_wf target_range points_eq
  obtain ⟨allowed, applied⟩ := loadedSet_apply (wf.points_inside same) permitted loadtype
  rw [← next_becomes.points] at allowed applied
  obtain ⟨final, loaded', becomes⟩ := replays zfsRecover loadtype next next_becomes.wf
    (same.symm.trans (target_range.trans next_becomes.range)) allowed
  rw [same.start] at loaded'
  refine ⟨final, ?_, next_becomes.trans (applied ▸ becomes)⟩
  rw [log_eq, loadEntries_append, loaded]
  exact loaded'

theorem loadStart_spec (zfsRecover : Bool) (maptype : MapType) (wf : sm.Wf) (ranged : sm.Ranged)
    (empty : sm.points = ∅) :
    ∃ started, loadStart zfsRecover maptype sm = .ok started ∧
    Becomes { sm with smLoading := true } started (loadedSet sm ∅ maptype) := by
  have wf' : ({ sm with smLoading := true } : SpaceMap).Wf := wf.reload _ _
  have empty' : ({ sm with smLoading := true } : SpaceMap).points = ∅ := empty
  cases maptype with
  | alloc => exact ⟨_, rfl, empty' ▸ wf'.becomes⟩
  | free =>
    obtain ⟨started, ok, becomes⟩ := SetAction.call zfsRecover .insert wf' ranged.noWrap
      ranged.nonempty le_rfl le_rfl ranged.start_unit ranged.size_unit
      (by rw [empty']; exact disjoint_empty _)
    refine ⟨started, ok, ?_⟩
    rw [empty'] at becomes
    simpa [loadedSet, SetAction.apply] using becomes

/-- The `VERIFY` at the end of `space_map_load` holds. -/
theorem Recorded.loadSpace_eq (ranged : range.Ranged)
    (recorded : Recorded range allocated smo object) (maptype : MapType) (wf : sm.Wf)
    (points_eq : sm.points = loadedSet range allocated maptype) :
    sm.smSpace = loadSpace maptype range smo := by
  have noWrap := ranged.noWrap
  obtain ⟨finite, small⟩ := ncard_le_size recorded.inside
  rw [← wf.ncard_points.1, points_eq]
  cases maptype with
  | alloc => exact recorded.alloc_eq.symm
  | free =>
    rw [loadSpace, sub64_eq (by rw [recorded.alloc_eq]; exact small) (by omega), loadedSet,
      ncard_sdiff recorded.inside finite, recorded.alloc_eq, ← Finset.coe_Ico,
      ncard_coe_finset, Nat.card_Ico, Nat.add_sub_cancel_left]

theorem Recorded.load (ranged : sm.Ranged) (recorded : Recorded sm allocated smo object)
    (wf : sm.Wf) (empty : sm.points = ∅) (unloaded : sm.smLoaded = false) (zfsRecover : Bool)
    (maptype : MapType) (readError : ℕ → ℕ) :
    ((∀ block, block * spaceMapBlock < smo.smoObjsize → readError (block * spaceMapBlock) = 0) →
      ∃ sm', spaceMapLoad zfsRecover maptype sm smo object readError = .ok (sm', 0) ∧ sm'.Wf ∧
      SameRange sm sm' ∧ sm'.points = loadedSet sm allocated maptype ∧
      sm'.smLoaded = true ∧ sm'.smLoading = false) ∧
    ((∃ block, block * spaceMapBlock < smo.smoObjsize ∧ readError (block * spaceMapBlock) ≠ 0) →
      ∃ sm' error, spaceMapLoad zfsRecover maptype sm smo object readError = .ok (sm', error) ∧
      error ≠ 0 ∧ sm'.points = ∅ ∧ sm'.smSpace = 0 ∧ sm'.smLoaded = false ∧
      sm'.smLoading = false) := by
  have vacant : sm.smSpace = 0 := by rw [← wf.ncard_points.1, empty, ncard_empty]
  obtain ⟨started, start_ok, start_becomes⟩ := loadStart_spec zfsRecover maptype wf ranged empty
  obtain ⟨final, replayed, becomes⟩ := recorded.replays zfsRecover maptype started start_becomes.wf
    ⟨start_becomes.range.start, start_becomes.range.size, start_becomes.range.shift⟩
    start_becomes.points
  obtain ⟨success, failure⟩ := @loadBlocks_spec zfsRecover maptype sm.smStart started final object
    smo.smoObjsize readError recorded.words _ 0 rfl (by simpa using replayed)
  simp only [Nat.zero_mul, Nat.sub_zero, ← range_eq_range', Nat.zero_le, true_and,
    forall_const] at success failure
  have load_eq : spaceMapLoad zfsRecover maptype sm smo object readError =
      (loadBlocks zfsRecover maptype sm.smStart smo.smoObjsize object readError
        (loadOffsets smo.smoObjsize) started).bind
          fun result => loadFinish result.1 result.2 (loadSpace maptype sm smo) := by
    rw [spaceMapLoad, unloaded, vacant, start_ok]
    rfl
  rw [load_eq]
  refine ⟨fun clean => ?_, fun failed => ?_⟩
  · have space := recorded.loadSpace_eq ranged maptype becomes.wf becomes.points
    have range := start_becomes.range.trans becomes.range
    refine ⟨{ final with smLoaded := true, smLoading := false }, ?_, becomes.wf.reload _ _,
      ⟨range.start, range.size, range.shift⟩, becomes.points, rfl, rfl⟩
    rw [loadOffsets, success clean]
    change loadFinish final 0 _ = _
    rw [loadFinish, if_pos rfl, if_pos space]
  · obtain ⟨stopped, error, ok, nonzero, same⟩ := failure failed
    refine ⟨{ spaceMapEmpty stopped with smLoading := false }, error, ?_, nonzero,
      points_spaceMapEmpty stopped, rfl, ?_, rfl⟩
    · rw [loadOffsets, ok]
      exact if_neg nonzero
    · exact same.1.trans (start_becomes.load.1.trans unloaded)

/-- One call of `space_map_sync`. -/
structure Batch where
  /-- Allocations or frees. -/
  maptype : MapType
  /-- `spa_sync_pass`. -/
  syncPass : ℕ
  /-- The transaction group. -/
  txg : ℕ
  /-- The map that is written. -/
  map : SpaceMap

variable (batches : List Batch) (batch : Batch)

/-- The calls of `space_map_sync` for a list of batches. -/
def syncBatches (disk : SpaceMapObj × DmuObject) :
    Except Halt (SpaceMapObj × DmuObject) :=
  batches.foldlM (fun disk batch => do
    let (_, smo, object) ←
      spaceMapSync batch.maptype batch.syncPass batch.txg batch.map disk.1 disk.2
    return (smo, object)) disk

open Classical in
/-- The last action recorded for an offset. -/
noncomputable def lastAction (batches : List Batch) (point : ℕ) : Option MapType :=
  batches.foldl (fun last batch => if point ∈ batch.map.points then some batch.maptype else last)
    none

/-- The offsets whose last recorded action is an allocation. -/
def allocatedAfter : Set ℕ := {point | lastAction batches point = some .alloc}

/-- What is allocated was not allocated, and what is freed was. -/
def Batch.Consistent (allocated : Set ℕ) : Prop :=
  match batch.maptype with
  | .alloc => Disjoint batch.map.points allocated
  | .free => batch.map.points ⊆ allocated

/-- A batch that may follow earlier ones in the log of a map. -/
structure Batch.Legal (range : SpaceMap) (earlier : List Batch) (batch : Batch) : Prop where
  /-- The map is well-formed. -/
  wf : batch.map.Wf
  /-- It is a map of the range. -/
  range : SameRange range batch.map
  /-- Its entries fit. -/
  fits : batch.map.Fits
  /-- It fits the earlier batches. -/
  consistent : batch.Consistent (allocatedAfter earlier)

/-- Every batch is legal after those before it. -/
def LegalHistory (range : SpaceMap) (batches : List Batch) : Prop :=
  ∀ earlier batch later, batches = earlier ++ batch :: later → batch.Legal range earlier

theorem legalHistory_nil (range : SpaceMap) : LegalHistory range [] := by
  intro earlier batch later split
  simp at split

theorem legalHistory_concat {batches : List Batch} {batch : Batch} :
    LegalHistory range (batches ++ [batch]) ↔
      LegalHistory range batches ∧ batch.Legal range batches := by
  constructor
  · intro legal
    refine ⟨fun earlier other later split => legal earlier other (later ++ [batch]) ?_,
      legal batches batch [] rfl⟩
    rw [split, append_assoc, cons_append]
  · rintro ⟨legal, last⟩ earlier other later split
    induction later using reverseRecOn with
    | nil =>
      obtain ⟨rfl, same⟩ := append_inj' split rfl
      cases same
      exact last
    | append_singleton later final _ =>
      rw [← cons_append, ← append_assoc] at split
      exact legal earlier other later (append_inj' split rfl).1

theorem allocatedAfter_nil : allocatedAfter [] = ∅ := by
  ext point
  simp [allocatedAfter, lastAction]

theorem allocatedAfter_concat :
    allocatedAfter (batches ++ [batch]) =
      (loadAction batch.maptype .alloc).apply (allocatedAfter batches) batch.map.points := by
  ext point
  simp only [allocatedAfter, lastAction, foldl_append, foldl_cons, foldl_nil,
    mem_ofPred_eq, loadAction]
  cases batch.maptype <;> by_cases inside : point ∈ batch.map.points <;>
    simp [SetAction.apply, inside]

theorem Batch.Consistent.permits {batch : Batch} (consistent : batch.Consistent allocated) :
    (loadAction batch.maptype .alloc).Permits allocated batch.map.points := by
  rw [Batch.Consistent] at consistent
  cases type : batch.maptype with
  | alloc => rwa [type] at consistent
  | free => rwa [type] at consistent

theorem syncBatches_recorded (ranged : range.Ranged) {batches : List Batch}
    (legal : LegalHistory range batches) (smoObject : ℕ) (object : DmuObject) :
    ∃ smo object', syncBatches batches (⟨smoObject, 0, 0⟩, object) = .ok (smo, object') ∧
    Recorded range (allocatedAfter batches) smo object' := by
  induction batches using reverseRecOn with
  | nil =>
    rw [allocatedAfter_nil]
    exact ⟨⟨smoObject, 0, 0⟩, object, rfl, recorded_empty range object rfl rfl⟩
  | append_singleton batches batch ih =>
    obtain ⟨earlier, last⟩ := legalHistory_concat.mp legal
    obtain ⟨smo, disk, ok, recorded⟩ := ih earlier
    obtain ⟨sm', smo', object', synced, recorded', -⟩ :=
      recorded.sync ranged batch.maptype batch.syncPass batch.txg last.wf last.range last.fits
        last.consistent.permits
    refine ⟨smo', object', ?_, by rwa [allocatedAfter_concat]⟩
    rw [syncBatches] at ok ⊢
    rw [foldlM_append, ok]
    change (do
      let (_, smo, object) ← spaceMapSync batch.maptype batch.syncPass batch.txg batch.map smo disk
      return (smo, object)) >>= _ = _
    rw [synced]
    rfl

/-- Every legal history of batches loads back as the allocated offsets or as their complement; when
a read fails the map is left empty. -/
theorem space_map_sync_load (zfsRecover : Bool) {sm : SpaceMap} (ranged : sm.Ranged) (wf : sm.Wf)
    (empty : sm.points = ∅) (unloaded : sm.smLoaded = false) {batches : List Batch}
    (legal : LegalHistory sm batches) (smoObject : ℕ) (object : DmuObject) :
    ∃ smo object', syncBatches batches (⟨smoObject, 0, 0⟩, object) = .ok (smo, object') ∧
    smo.smoAlloc = (allocatedAfter batches).ncard ∧
    ∀ maptype readError,
      ((∀ block, block * spaceMapBlock < smo.smoObjsize →
          readError (block * spaceMapBlock) = 0) →
        ∃ sm', spaceMapLoad zfsRecover maptype sm smo object' readError = .ok (sm', 0) ∧ sm'.Wf ∧
        SameRange sm sm' ∧ sm'.points = loadedSet sm (allocatedAfter batches) maptype ∧
        sm'.smLoaded = true ∧ sm'.smLoading = false) ∧
      ((∃ block, block * spaceMapBlock < smo.smoObjsize ∧
          readError (block * spaceMapBlock) ≠ 0) →
        ∃ sm' error, spaceMapLoad zfsRecover maptype sm smo object' readError = .ok (sm', error) ∧
        error ≠ 0 ∧ sm'.points = ∅ ∧ sm'.smSpace = 0 ∧ sm'.smLoaded = false ∧
        sm'.smLoading = false) := by
  obtain ⟨smo, object', ok, recorded⟩ := syncBatches_recorded ranged legal smoObject object
  exact ⟨smo, object', ok, recorded.alloc_eq, fun maptype readError =>
    recorded.load ranged wf empty unloaded zfsRecover maptype readError⟩

/-- A map that holds one segment. -/
def SpaceMap.single (range : SpaceMap) (ss : Seg) : SpaceMap :=
  { range with smRoot := leaf ss, smSpace := ss.ssEnd - ss.ssStart }

theorem SpaceMap.points_single (range : SpaceMap) (ss : Seg) :
    (range.single ss).points = Set.Ico ss.ssStart ss.ssEnd := by
  simp [SpaceMap.points, SpaceMap.segs, single, leaf, toList]

theorem SpaceMap.wf_single {ss : Seg} (proper : ss.ssStart < ss.ssEnd)
    (aligned : ss.ssStart % 2 ^ range.smShift = 0 ∧ ss.ssEnd % 2 ^ range.smShift = 0)
    (inside : range.smStart ≤ ss.ssStart ∧ ss.ssEnd ≤ range.smStart + range.smSize)
    (bounded : ss.ssEnd < 2 ^ 64) : (range.single ss).Wf := by
  have segs_eq : (range.single ss).segs = [ss] := rfl
  refine ⟨leaf_balanced ss, ⟨?_, ?_⟩, ?_, ?_, ?_, ?_⟩
  all_goals rw [segs_eq]
  · simpa using proper
  · exact pairwise_singleton _ _
  · simpa [single] using aligned
  · simpa [single] using inside
  · simpa using bounded
  · simp [single]

/-- A long segment is split into four entries, and a part of it is freed again. -/
theorem space_map_sync_load_long :
    ∃ smo object', syncBatches
        [⟨.alloc, 1, 7, (spaceMapCreate 0 131072 0).single ⟨0, 100000⟩⟩,
          ⟨.free, 1, 8, (spaceMapCreate 0 131072 0).single ⟨512, 1024⟩⟩] (⟨5, 0, 0⟩, fun _ => 0) =
      .ok (smo, object') ∧ ∃ sm', spaceMapLoad false .alloc (spaceMapCreate 0 131072 0) smo object'
        (fun _ => 0) = .ok (sm', 0) ∧ sm'.points = Set.Ico 0 100000 \ Set.Ico 512 1024 := by
  let sm := spaceMapCreate 0 131072 0
  let long : Batch := ⟨.alloc, 1, 7, sm.single ⟨0, 100000⟩⟩
  let part : Batch := ⟨.free, 1, 8, sm.single ⟨512, 1024⟩⟩
  have first : allocatedAfter [long] = Set.Ico 0 100000 := by
    rw [← nil_append [long], allocatedAfter_concat, allocatedAfter_nil, SpaceMap.points_single]
    exact Set.empty_union _
  have second : allocatedAfter [long, part] = Set.Ico 0 100000 \ Set.Ico 512 1024 := by
    rw [← singleton_append, allocatedAfter_concat, first, SpaceMap.points_single]
    rfl
  have long_legal : long.Legal sm [] := by
    refine ⟨SpaceMap.wf_single (by decide) (by decide) (by decide) (by decide),
      ⟨rfl, rfl, rfl⟩, ?_, ?_⟩
    · rintro ss member
      obtain rfl := mem_singleton.mp member
      decide
    · rw [allocatedAfter_nil]
      exact disjoint_empty _
  have part_legal : part.Legal sm [long] := by
    refine ⟨SpaceMap.wf_single (by decide) (by decide) (by decide) (by decide),
      ⟨rfl, rfl, rfl⟩, ?_, ?_⟩
    · rintro ss member
      obtain rfl := mem_singleton.mp member
      decide
    · rw [first]
      change (sm.single ⟨512, 1024⟩).points ⊆ _
      rw [SpaceMap.points_single]
      exact Set.Ico_subset_Ico (by decide) (by decide)
  have legal : LegalHistory sm ([long] ++ [part]) :=
    legalHistory_concat.mpr
      ⟨legalHistory_concat.mpr ⟨legalHistory_nil sm, long_legal⟩, part_legal⟩
  obtain ⟨smo, object', ok, -, load⟩ := space_map_sync_load false
    (⟨by decide, by decide, by decide, by decide⟩ : sm.Ranged) (wf_spaceMapCreate _ _ _)
    (points_spaceMapCreate _ _ _) rfl legal 5 fun _ => 0
  obtain ⟨sm', loaded, -, -, points_eq, -⟩ := (load .alloc fun _ => 0).1 fun _ _ => rfl
  exact ⟨smo, object', ok, sm', loaded, points_eq.trans second⟩

/-- An offset of 48 bits loses its highest bit in the log: the segment that is read back is another
one. -/
theorem space_map_sync_load_truncates :
    let sm := spaceMapCreate 0 (2 ^ 64 - 1) 0
    let batch : Batch := ⟨.alloc, 1, 7, sm.single ⟨2 ^ 47, 2 ^ 47 + 1⟩⟩
    sm.Ranged ∧ batch.map.Wf ∧ SameRange sm batch.map ∧ batch.Consistent ∅ ∧
      (do
        let (smo, object) ← syncBatches [batch] (⟨5, 0, 0⟩, fun _ => 0)
        let (sm', error) ← spaceMapLoad false .alloc sm smo object fun _ => 0
        return (sm'.segs, error) : Except Halt (List Seg × ℕ)) = .ok ([⟨0, 1⟩], 0) ∧
      allocatedAfter [batch] = Set.Ico (2 ^ 47) (2 ^ 47 + 1) := by
  refine ⟨⟨by decide, by decide, by decide, by decide⟩,
    SpaceMap.wf_single (by decide) (by decide) (by decide) (by decide), ⟨rfl, rfl, rfl⟩,
    Set.disjoint_empty _, by decide +kernel, ?_⟩
  rw [← nil_append [_], allocatedAfter_concat, allocatedAfter_nil, SpaceMap.points_single]
  exact empty_union _

end Zfs
