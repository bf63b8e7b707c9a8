import Zfs.SpaceMap.Log
import Zfs.SpaceMap.Run

/-!
# Replaying the on-disk space map

What `space_map_sync` appends to the log, `space_map_load` replays as the same change of the set of
offsets, whatever the buffer boundaries and however long the segments.
-/

namespace Zfs

open BalancedTree BalTree Segments BitFields List Nat

theorem smRunMax_eq : smRunMax = 2 ^ 15 := by decide

variable (object : DmuObject) (words : List ℕ) (maptype : MapType)

theorem MapType.code_lt : maptype.code < 2 ^ 1 := by
  cases maptype <;> decide

theorem MapType.code_inj {first second : MapType} : first.code = second.code ↔ first = second := by
  cases first <;> cases second <;> decide

theorem smDebugDecode_debugEntry (syncPass txg : ℕ) :
    smDebugDecode (debugEntry maptype syncPass txg) = 1 := by
  simp only [smDebugDecode, debugEntry, smDebugEncode, smDebugActionEncode, smDebugSyncpassEncode,
    smDebugTxgEncode, bf64Encode_eq, bf64Decode_eq, get_or]
  rw [get_put_of_lt 63 (by decide : 1 < 2 ^ 1), get_put_apart _ (by omega),
    get_put_apart _ (by omega), get_put_apart _ (by omega)]
  rfl

theorem smDebugDecode_runEntry (start runLen : ℕ) :
    smDebugDecode (runEntry maptype start runLen) = 0 := by
  simp only [smDebugDecode, runEntry, smOffsetEncode, smTypeEncode, smRunEncode, bf64Encode_eq,
    bf64Decode_eq, get_or]
  rw [get_put_apart _ (by omega), get_put_apart _ (by omega), get_put_apart _ (by omega)]
  rfl

theorem smTypeDecode_runEntry (start runLen : ℕ) :
    smTypeDecode (runEntry maptype start runLen) = maptype.code := by
  simp only [smTypeDecode, runEntry, smOffsetEncode, smTypeEncode, smRunEncode, bf64Encode_eq,
    bf64Decode_eq, get_or]
  rw [get_put_apart _ (by omega), get_put_of_lt 15 maptype.code_lt, get_put_apart _ (by omega),
    zero_or, or_zero]

variable {start : ℕ}

theorem smOffsetDecode_runEntry (runLen : ℕ) (fits : start < 2 ^ 47) :
    smOffsetDecode (runEntry maptype start runLen) = start := by
  simp only [smOffsetDecode, runEntry, smOffsetEncode, smTypeEncode, smRunEncode, bf64Encode_eq,
    bf64Decode_eq, get_or]
  rw [get_put_of_lt 16 fits, get_put_apart _ (by omega), get_put_apart _ (by omega), or_zero,
    or_zero]

variable {runLen : ℕ}

theorem smRunDecode_runEntry (start : ℕ) (nonempty : runLen ≠ 0) (short : runLen ≤ smRunMax) :
    smRunDecode (runEntry maptype start runLen) = runLen := by
  simp only [smRunDecode, runEntry, smOffsetEncode, smTypeEncode, smRunEncode, bf64Encode_eq,
    bf64Decode_eq, get_or]
  rw [smRunMax_eq] at short
  rw [get_put_apart _ (by omega), get_put_apart _ (by omega),
    get_put_of_lt 0 (by omega : runLen - 1 < 2 ^ 15), zero_or, zero_or]
  omega

/-- The load state of two maps is the same. -/
def SameLoad (sm sm' : SpaceMap) : Prop :=
  sm'.smLoaded = sm.smLoaded ∧ sm'.smLoading = sm.smLoading

theorem SameLoad.trans {first second third : SpaceMap} (one : SameLoad first second)
    (two : SameLoad second third) : SameLoad first third :=
  ⟨two.1.trans one.1, two.2.trans one.2⟩

variable {sm : SpaceMap}

theorem SpaceMap.Wf.reload (wf : sm.Wf) (loaded loading : Bool) :
    ({ sm with smLoaded := loaded, smLoading := loading } : SpaceMap).Wf :=
  { wf with }

variable {zfsRecover : Bool} {sm' : SpaceMap} {size : ℕ}

theorem spaceMapAdd_same (ok : spaceMapAdd zfsRecover sm start size = .ok sm') :
    SameRange sm sm' ∧ SameLoad sm sm' := by
  obtain ⟨-, ⟨place, -, rfl⟩ | ⟨-, rfl, -⟩⟩ := spaceMapAdd_cases ok
  all_goals exact ⟨⟨rfl, rfl, rfl⟩, rfl, rfl⟩

theorem spaceMapRemove_same (ok : spaceMapRemove zfsRecover sm start size = .ok sm') :
    SameRange sm sm' ∧ SameLoad sm sm' := by
  obtain ⟨-, ⟨place, left, ss, balance, right, -, -, -, rfl⟩ | ⟨-, rfl, -⟩⟩ :=
    spaceMapRemove_cases ok
  all_goals exact ⟨⟨rfl, rfl, rfl⟩, rfl, rfl⟩

/-- `sm'` is `sm` with its offsets changed to `set`. -/
structure Becomes (sm sm' : SpaceMap) (set : Set ℕ) : Prop where
  wf : sm'.Wf
  points : sm'.points = set
  range : SameRange sm sm'
  load : SameLoad sm sm'

theorem SpaceMap.Wf.becomes (wf : sm.Wf) : Becomes sm sm sm.points :=
  ⟨wf, rfl, .refl sm, rfl, rfl⟩

theorem Becomes.trans {first second third : SpaceMap} {set set' : Set ℕ}
    (one : Becomes first second set) (two : Becomes second third set') : Becomes first third set' :=
  ⟨two.wf, two.points, one.range.trans two.range, one.load.trans two.load⟩

/-- The operation that acts as a set action. -/
def SetAction.func (zfsRecover : Bool) : SetAction → SpaceMapFunc
  | insert => spaceMapAdd zfsRecover
  | delete => spaceMapRemove zfsRecover

/-- What is inserted is new, and what is deleted is present. -/
def SetAction.Permits (action : SetAction) (whole part : Set ℕ) : Prop :=
  match action with
  | insert => Disjoint part whole
  | delete => part ⊆ whole

theorem SetAction.permits_union {action : SetAction} {whole first second : Set ℕ}
    (apart : Disjoint first second) :
    action.Permits whole (first ∪ second) ↔
      action.Permits whole first ∧ action.Permits (action.apply whole first) second := by
  cases action with
  | insert =>
    simp only [Permits, apply, Set.disjoint_union_left, Set.disjoint_union_right]
    exact and_congr_right fun _ => (and_iff_left apart.symm).symm
  | delete =>
    simp only [Permits, apply, Set.union_subset_iff, Set.subset_sdiff]
    exact and_congr_right fun _ => (and_iff_left apart.symm).symm

theorem SetAction.call (zfsRecover : Bool) (action : SetAction) (wf : sm.Wf)
    (range : sm.smStart + sm.smSize < 2 ^ 64) (nonempty : size ≠ 0) (lower : sm.smStart ≤ start)
    (upper : start + size ≤ sm.smStart + sm.smSize) (start_unit : Unit64 sm start)
    (size_unit : Unit64 sm size)
    (permitted : action.Permits sm.points (Set.Ico start (start + size))) :
    ∃ sm', action.func zfsRecover sm start size = .ok sm' ∧
    Becomes sm sm' (action.apply sm.points (Set.Ico start (start + size))) := by
  have noWrap : start + size < 2 ^ 64 := by omega
  cases action with
  | insert =>
    obtain ⟨sm', ok⟩ :=
      spaceMapAdd_of_disjoint zfsRecover wf range nonempty lower upper start_unit size_unit
        permitted
    obtain ⟨wf', points', range'⟩ := spaceMapAdd_ok wf noWrap ok
    exact ⟨sm', ok, wf', points', range', (spaceMapAdd_same ok).2⟩
  | delete =>
    obtain ⟨sm', ok⟩ :=
      spaceMapRemove_of_subset zfsRecover wf nonempty start_unit size_unit permitted
    obtain ⟨wf', points', range'⟩ := spaceMapRemove_ok wf noWrap ok
    exact ⟨sm', ok, wf', points', range', (spaceMapRemove_same ok).2⟩

/-- The action of an entry when a map of a type is loaded. -/
def loadAction (loadtype : MapType) : SetAction :=
  if maptype = loadtype then .insert else .delete

theorem loadEntries_append (zfsRecover : Bool) (maptype : MapType) (mapstart : ℕ)
    (first second : List ℕ) (sm : SpaceMap) :
    loadEntries zfsRecover maptype mapstart (first ++ second) sm =
      (loadEntries zfsRecover maptype mapstart first sm).bind
        (loadEntries zfsRecover maptype mapstart second) := by
  induction first generalizing sm with
  | nil => rfl
  | cons entry first ih =>
    simp only [cons_append, loadEntries]
    cases loadEntry zfsRecover maptype mapstart sm entry with
    | error halt => rfl
    | ok next => exact ih next

/-- Entries of one type replay as a change of the given offsets. -/
def Replays (range : SpaceMap) (maptype : MapType) (entries : List ℕ) (part : Set ℕ) : Prop :=
  ∀ zfsRecover loadtype sm, sm.Wf → SameRange range sm →
    (loadAction maptype loadtype).Permits sm.points part →
      ∃ sm', loadEntries zfsRecover loadtype range.smStart entries sm = .ok sm' ∧
      Becomes sm sm' ((loadAction maptype loadtype).apply sm.points part)

theorem replays_nil (range : SpaceMap) (maptype : MapType) : Replays range maptype [] ∅ := by
  intro zfsRecover loadtype sm wf same permitted
  rw [SetAction.apply_empty]
  exact ⟨sm, rfl, wf.becomes⟩

variable {range : SpaceMap}

theorem Replays.append {maptype : MapType} {first second : List ℕ} {part part' : Set ℕ}
    (one : Replays range maptype first part) (two : Replays range maptype second part')
    (apart : Disjoint part part') :
    Replays range maptype (first ++ second) (part ∪ part') := by
  intro zfsRecover loadtype sm wf same permitted
  obtain ⟨permitted, permitted'⟩ := (SetAction.permits_union apart).mp permitted
  obtain ⟨next, loaded, next_becomes⟩ := one zfsRecover loadtype sm wf same permitted
  rw [← next_becomes.points] at permitted'
  obtain ⟨sm', loaded', becomes⟩ :=
    two zfsRecover loadtype next next_becomes.wf (same.trans next_becomes.range) permitted'
  refine ⟨sm', by rw [loadEntries_append, loaded]; exact loaded', ?_⟩
  rw [next_becomes.points, SetAction.apply_union] at becomes
  exact next_becomes.trans becomes

theorem replays_debugEntry (range : SpaceMap) (maptype : MapType) (syncPass txg : ℕ) :
    Replays range maptype [debugEntry maptype syncPass txg] ∅ := by
  intro zfsRecover loadtype sm wf same permitted
  rw [SetAction.apply_empty]
  refine ⟨sm, ?_, wf.becomes⟩
  simp only [loadEntries, loadEntry, smDebugDecode_debugEntry]
  rfl

/-- A range of whole units whose end is a 64-bit number. -/
structure SpaceMap.Ranged (range : SpaceMap) : Prop where
  /-- It starts at a unit. -/
  start_unit : Unit64 range range.smStart
  /-- It has whole units. -/
  size_unit : Unit64 range range.smSize
  /-- It is not empty. -/
  nonempty : range.smSize ≠ 0
  /-- It does not wrap around. -/
  noWrap : range.smStart + range.smSize < 2 ^ 64

/-- The offsets of a run of units. -/
def runPart (range : SpaceMap) (start runLen : ℕ) : Set ℕ :=
  Set.Ico (range.smStart + start * 2 ^ range.smShift)
    (range.smStart + (start + runLen) * 2 ^ range.smShift)

theorem loadEntry_runEntry (zfsRecover : Bool) (maptype loadtype : MapType) (mapstart : ℕ)
    (sm : SpaceMap) (nonempty : runLen ≠ 0) (short : runLen ≤ smRunMax) (fits : start < 2 ^ 47) :
    loadEntry zfsRecover loadtype mapstart sm (runEntry maptype start runLen) =
      (loadAction maptype loadtype).func zfsRecover sm
        (add64 ((start * 2 ^ sm.smShift) % 2 ^ 64) mapstart)
          ((runLen * 2 ^ sm.smShift) % 2 ^ 64) := by
  simp only [loadEntry, smDebugDecode_runEntry, smTypeDecode_runEntry,
    smOffsetDecode_runEntry maptype runLen fits, smRunDecode_runEntry maptype start nonempty short,
    MapType.code_inj, shiftLeft_eq, ne_eq, not_true_eq_false, if_false, loadAction]
  split_ifs <;> rfl

theorem replays_runEntry (ranged : range.Ranged) (maptype : MapType) (nonempty : runLen ≠ 0)
    (short : runLen ≤ smRunMax) (fits : start < 2 ^ 47)
    (inside : (start + runLen) * 2 ^ range.smShift ≤ range.smSize) :
    Replays range maptype [runEntry maptype start runLen] (runPart range start runLen) := by
  intro zfsRecover loadtype sm wf same permitted
  obtain ⟨first, length, shift⟩ := same
  have start_unit := unit64_iff.mp ranged.start_unit
  have noWrap := ranged.noWrap
  have length_pos : runLen * 2 ^ range.smShift ≠ 0 := mul_ne_zero nonempty (by positivity)
  rw [add_mul] at inside
  rw [runPart, add_mul, ← add_assoc] at permitted ⊢
  obtain ⟨sm', ok, becomes⟩ := SetAction.call zfsRecover _ wf (by omega) length_pos (by omega)
    (by omega) (unit64_iff.mpr (by rw [shift]; simpa using start_unit))
    (unit64_iff.mpr (by rw [shift]; simp)) permitted
  refine ⟨sm', ?_, becomes⟩
  rw [loadEntries, loadEntry_runEntry _ _ _ _ _ nonempty short fits, shift,
    mod_eq_of_lt (by omega : start * 2 ^ range.smShift < 2 ^ 64),
    mod_eq_of_lt (by omega : runLen * 2 ^ range.smShift < 2 ^ 64),
    add64_eq (by omega), add_comm (start * _), ok]
  rfl

theorem dmuRead_append (offset : ℕ) {first : ℕ} (second : ℕ) (words : 8 ∣ first) :
    dmuRead object offset (first + second) =
      dmuRead object offset first ++ dmuRead object (offset + first) second := by
  obtain ⟨count, rfl⟩ := words
  have whole : (8 * count + second) / 8 = count + second / 8 := by omega
  have left : 8 * count / 8 = count := by omega
  have next : (offset + 8 * count) / 8 = offset / 8 + count := by omega
  simp only [dmuRead, whole, left, next, range_add, map_append, map_map]
  simp only [Function.comp_def, add_assoc]

theorem dmuRead_dmuWrite_below (offset : ℕ) :
    dmuRead (dmuWrite object offset words) 0 offset = dmuRead object 0 offset := by
  apply map_congr_left
  intro index member
  rw [mem_range] at member
  rw [dmuWrite, if_neg (by omega)]

theorem dmuRead_dmuWrite_same (offset : ℕ) :
    dmuRead (dmuWrite object offset words) offset (8 * words.length) = words := by
  apply ext_getElem
  · simp [dmuRead]
  · intro index bound bound'
    simp [dmuRead, dmuWrite, bound']

namespace SyncState

/-- The words written so far, those still in the buffer included. -/
def log (state : SyncState) : List ℕ :=
  dmuRead state.object 0 state.smo.smoObjsize ++ state.entryMap

/-- `state'` comes from `state` by storing `entries`. -/
structure Stores (state state' : SyncState) (entries : List ℕ) : Prop where
  words : 8 ∣ state'.smo.smoObjsize
  log_eq : state'.log = state.log ++ entries
  alloc_eq : state'.smo.smoAlloc = state.smo.smoAlloc
  object_eq : state'.smo.smoObject = state.smo.smoObject

theorem Stores.trans {first second third : SyncState} {entries entries' : List ℕ}
    (one : Stores first second entries) (two : Stores second third entries') :
    Stores first third (entries ++ entries') :=
  ⟨two.words, by rw [two.log_eq, one.log_eq, append_assoc], two.alloc_eq.trans one.alloc_eq,
    two.object_eq.trans one.object_eq⟩

variable {state : SyncState}

theorem stores_nil (words : 8 ∣ state.smo.smoObjsize) : state.Stores state [] :=
  ⟨words, (append_nil _).symm, rfl, rfl⟩

theorem stores_flush (words : 8 ∣ state.smo.smoObjsize) :
    state.Stores state.flush [] := by
  refine ⟨words.add (dvd_mul_right 8 _), ?_, rfl, rfl⟩
  simp only [log, flush, append_nil]
  rw [dmuRead_append _ _ _ words, dmuRead_dmuWrite_below, zero_add, dmuRead_dmuWrite_same]

/-- The last write of `space_map_sync` leaves nothing in the buffer. -/
theorem stores_last (words : 8 ∣ state.smo.smoObjsize) :
    ∃ last, (if state.entryMap ≠ [] then state.flush else state) = last ∧ state.Stores last [] ∧
    last.smSpace = state.smSpace ∧ last.log = dmuRead last.object 0 last.smo.smoObjsize := by
  by_cases pending : state.entryMap ≠ []
  · exact ⟨state.flush, if_pos pending, stores_flush words, rfl, append_nil _⟩
  · refine ⟨state, if_neg pending, stores_nil words, rfl, ?_⟩
    rw [log, not_ne_iff.mp pending, append_nil]

theorem stores_emit (capacity : ℕ) (words : 8 ∣ state.smo.smoObjsize) (entry : ℕ) :
    state.Stores (state.emit capacity entry) [entry] := by
  have append : ∀ {state : SyncState}, 8 ∣ state.smo.smoObjsize →
      state.Stores { state with entryMap := state.entryMap ++ [entry] } [entry] :=
    fun words => ⟨words, (append_assoc _ _ _).symm, rfl, rfl⟩
  rw [emit]
  split_ifs with full
  · have flushed := stores_flush words
    exact flushed.trans (append flushed.words)
  · exact append words

theorem smSpace_emit (capacity : ℕ) (state : SyncState) (entry : ℕ) :
    (state.emit capacity entry).smSpace = state.smSpace := by
  rw [emit]
  split_ifs <;> rfl

end SyncState

theorem runPart_add (range : SpaceMap) (start first second : ℕ) :
    runPart range start (first + second) =
        runPart range start first ∪ runPart range (start + first) second ∧
      Disjoint (runPart range start first) (runPart range (start + first) second) := by
  have middle : start * 2 ^ range.smShift ≤ (start + first) * 2 ^ range.smShift :=
    mul_le_mul_right _ (by omega)
  have upper : (start + first) * 2 ^ range.smShift ≤ (start + first + second) * 2 ^ range.smShift :=
    mul_le_mul_right _ (by omega)
  rw [runPart, runPart, runPart, ← add_assoc start]
  refine ⟨(Set.Ico_union_Ico_eq_Ico (by omega) (by omega)).symm, ?_⟩
  rw [Set.disjoint_left]
  intro point before after
  exact absurd (before.2.trans_le after.1) (lt_irrefl _)

/-- The offset of the last entry of a segment fits its field. -/
def LastRunFits (start size : ℕ) : Prop := start + (size - 1) / smRunMax * smRunMax < 2 ^ 47

instance (start size : ℕ) : Decidable (LastRunFits start size) :=
  inferInstanceAs (Decidable (_ < _))

/-- The inner loop of `space_map_sync` stores what replays. -/
theorem syncRuns_spec (ranged : range.Ranged) (maptype : MapType) (capacity : ℕ) {fuel : ℕ}
    (enough : size ≤ fuel * smRunMax) {state : SyncState} (words : 8 ∣ state.smo.smoObjsize)
    (fits : size ≠ 0 → LastRunFits start size)
    (inside : (start + size) * 2 ^ range.smShift ≤ range.smSize) :
    ∃ entries state', syncRuns maptype capacity (fuel + 1) start size state = .ok state' ∧
    state.Stores state' entries ∧ state'.smSpace = state.smSpace ∧
    Replays range maptype entries (runPart range start size) := by
  induction fuel generalizing start size state with
  | zero =>
    obtain rfl : size = 0 := by omega
    refine ⟨[], state, rfl, SyncState.stores_nil words, rfl, ?_⟩
    simpa [runPart] using replays_nil range maptype
  | succ fuel ih =>
    rw [syncRuns]
    by_cases done : size = 0
    · subst done
      refine ⟨[], state, rfl, SyncState.stores_nil words, rfl, ?_⟩
      simpa [runPart] using replays_nil range maptype
    · have fits := fits done
      rw [LastRunFits] at fits
      have limit := smRunMax_eq
      simp only [if_neg done]
      generalize run_eq : min size smRunMax = runLen
      obtain ⟨rest, rfl⟩ : ∃ rest, size = runLen + rest := ⟨size - runLen, by omega⟩
      obtain ⟨union, apart⟩ := runPart_add range start runLen rest
      have below : (start + runLen) * 2 ^ range.smShift ≤ range.smSize :=
        (Nat.mul_le_mul_right _ (by omega)).trans inside
      have one := state.stores_emit capacity words (runEntry maptype start runLen)
      obtain ⟨entries, state', ok, stores, space, replays⟩ := @ih (start + runLen) rest
        (by rw [Nat.succ_mul] at enough; omega) _ one.words
        (fun more => by rw [LastRunFits]; rw [limit] at fits run_eq ⊢; omega)
        (by rwa [Nat.add_assoc])
      refine ⟨_, state', by rwa [Nat.add_sub_cancel_left], one.trans stores,
        space.trans (state.smSpace_emit _ _), ?_⟩
      rw [union]
      exact (replays_runEntry ranged maptype (by omega) (by omega) (by omega) below).append
        replays apart

/-- A segment of whole units in a range, whose entries fit. -/
structure Seg.Recordable (range : SpaceMap) (ss : Seg) : Prop where
  proper : ss.ssStart < ss.ssEnd
  aligned : ss.ssStart % 2 ^ range.smShift = 0 ∧ ss.ssEnd % 2 ^ range.smShift = 0
  inside : range.smStart ≤ ss.ssStart ∧ ss.ssEnd ≤ range.smStart + range.smSize
  fits : LastRunFits ((ss.ssStart - range.smStart) >>> range.smShift)
    ((ss.ssEnd - ss.ssStart) >>> range.smShift)

/-- The units of a segment, and back. -/
theorem Seg.Recordable.runPart_eq (ranged : range.Ranged) {ss : Seg}
    (recordable : ss.Recordable range) :
    runPart range ((ss.ssStart - range.smStart) >>> range.smShift)
        ((ss.ssEnd - ss.ssStart) >>> range.smShift) = Set.Ico ss.ssStart ss.ssEnd ∧
      ((ss.ssStart - range.smStart) >>> range.smShift +
        (ss.ssEnd - ss.ssStart) >>> range.smShift) * 2 ^ range.smShift ≤ range.smSize := by
  obtain ⟨proper, ⟨start_unit, end_unit⟩, ⟨lower, upper⟩, -⟩ := recordable
  have base_unit := Nat.dvd_of_mod_eq_zero (unit64_iff.mp ranged.start_unit)
  have start_unit := Nat.dvd_of_mod_eq_zero start_unit
  have before := Nat.div_mul_cancel (Nat.dvd_sub start_unit base_unit)
  have length := Nat.div_mul_cancel (Nat.dvd_sub (Nat.dvd_of_mod_eq_zero end_unit) start_unit)
  rw [runPart, Nat.shiftRight_eq_div_pow, Nat.shiftRight_eq_div_pow, Nat.add_mul, before, length]
  refine ⟨?_, by omega⟩
  rw [show range.smStart + (ss.ssStart - range.smStart) = ss.ssStart by omega,
    show range.smStart + (ss.ssStart - range.smStart + (ss.ssEnd - ss.ssStart)) = ss.ssEnd by omega]

/-- No two segments of a list meet. -/
def SegsDisjoint (segs : List Seg) : Prop :=
  segs.Pairwise fun first second =>
    Disjoint (Set.Ico first.ssStart first.ssEnd) (Set.Ico second.ssStart second.ssEnd)

theorem SegsDisjoint.head {ss : Seg} {segs : List Seg} (disjoint : SegsDisjoint (ss :: segs)) :
    Disjoint (Set.Ico ss.ssStart ss.ssEnd) (segsCover segs) := by
  rw [Set.disjoint_left]
  rintro point inside ⟨other, member, covered⟩
  exact Set.disjoint_left.mp ((pairwise_cons.mp disjoint).1 other member) inside covered

theorem SpaceMap.Wf.segsDisjoint_postorder (wf : sm.Wf) :
    SegsDisjoint sm.smRoot.postorder := by
  rw [SegsDisjoint, sm.smRoot.postorder_perm.pairwise_iff (fun disjoint => disjoint.symm)]
  refine wf.separated.gaps.imp fun gap => Set.disjoint_left.mpr fun point before after => ?_
  have := before.2.trans (gap.trans_le after.1)
  exact lt_irrefl _ this

theorem syncSegs_spec (ranged : sm.Ranged) (maptype : MapType) (capacity : ℕ) {segs : List Seg}
    (recordable : ∀ ss ∈ segs, ss.Recordable sm) (disjoint : SegsDisjoint segs)
    {state : SyncState} (words : 8 ∣ state.smo.smoObjsize)
    (room : segsTotal segs ≤ state.smSpace) (bounded : state.smSpace < 2 ^ 64) :
    ∃ entries state', syncSegs maptype capacity sm segs state = .ok state' ∧
    state.Stores state' entries ∧ state'.smSpace = state.smSpace - segsTotal segs ∧
    Replays sm maptype entries (segsCover segs) := by
  induction segs generalizing state with
  | nil =>
    refine ⟨[], state, rfl, SyncState.stores_nil words, rfl, ?_⟩
    simpa using replays_nil sm maptype
  | cons ss segs ih =>
    have here := recordable ss (by simp)
    obtain ⟨part, inside⟩ := here.runPart_eq ranged
    have noWrap := ranged.noWrap
    have proper := here.proper
    have within := here.inside
    simp only [segsTotal, total_cons] at room ⊢
    have start_eq : sub64 ss.ssStart sm.smStart = ss.ssStart - sm.smStart :=
      sub64_eq (by omega) (by omega)
    have size_eq : sub64 ss.ssEnd ss.ssStart = ss.ssEnd - ss.ssStart :=
      sub64_eq (by omega) (by omega)
    have space_eq : sub64 state.smSpace (ss.ssEnd - ss.ssStart) =
        state.smSpace - (ss.ssEnd - ss.ssStart) := sub64_eq (by omega) bounded
    rw [syncSegs, start_eq, size_eq, space_eq]
    have limit := smRunMax_eq
    have enough : (ss.ssEnd - ss.ssStart) >>> sm.smShift ≤
        ((ss.ssEnd - ss.ssStart) >>> sm.smShift / smRunMax + 1) * smRunMax := by
      rw [add_mul, limit]
      omega
    let charged : SyncState :=
      { state with smSpace := state.smSpace - (ss.ssEnd - ss.ssStart) }
    have words' : 8 ∣ charged.smo.smoObjsize := words
    obtain ⟨entries, next, ok, stores, space, replays⟩ :=
      syncRuns_spec ranged maptype capacity enough words' (fun _ => here.fits) inside
    simp only [charged] at ok stores space
    rw [part] at replays
    obtain ⟨rest, state', ok', stores', space', replays'⟩ :=
      ih (fun other member => recordable other (by simp [member])) disjoint.of_cons stores.words
        (by rw [space, segsTotal]; omega) (by rw [space]; omega)
    refine ⟨entries ++ rest, state', ?_,
      ⟨stores'.words, ?_, stores'.alloc_eq.trans stores.alloc_eq,
        stores'.object_eq.trans stores.object_eq⟩, ?_, ?_⟩
    · simp only [ok]
      exact ok'
    · exact (stores.trans stores').log_eq
    · rw [space', space, Nat.sub_sub]
    · rw [segsCover, cover_cons]
      exact replays.append replays' disjoint.head

theorem SpaceMap.Wf.ncard_points (wf : sm.Wf) :
    sm.points.ncard = sm.smSpace ∧ sm.points.Finite := by
  rw [wf.space_eq]
  exact wf.separated.ncard_cover

theorem SpaceMap.Wf.points_subset (wf : sm.Wf) :
    sm.points ⊆ Set.Ico sm.smStart (sm.smStart + sm.smSize) := by
  rintro point ⟨ss, member, lower, upper⟩
  have inside := wf.inside ss member
  exact ⟨by omega, by omega⟩

theorem allocAfter_zero (maptype : MapType) {smoAlloc : ℕ} (bounded : smoAlloc < 2 ^ 64) :
    allocAfter maptype smoAlloc 0 = smoAlloc := by
  cases maptype with
  | alloc => exact add64_eq bounded
  | free => exact sub64_eq (zero_le _) bounded

/-- Every segment of the map can be recorded in the log. -/
def SpaceMap.Fits (sm : SpaceMap) : Prop :=
  ∀ ss ∈ sm.segs, LastRunFits ((ss.ssStart - sm.smStart) >>> sm.smShift)
    ((ss.ssEnd - ss.ssStart) >>> sm.smShift)

theorem SpaceMap.Wf.recordable_postorder (wf : sm.Wf) (fits : sm.Fits) :
    ∀ ss ∈ sm.smRoot.postorder, ss.Recordable sm := by
  intro ss member
  have member := mem_postorder.mp member
  exact ⟨wf.separated.proper ss member, wf.aligned ss member, wf.inside ss member, fits ss member⟩

/-- `space_map_sync` appends entries that replay as its map, and empties it. -/
theorem spaceMapSync_spec (maptype : MapType) (syncPass txg : ℕ) (wf : sm.Wf)
    (ranged : sm.Ranged) (fits : sm.Fits) {smo : SpaceMapObj} (words : 8 ∣ smo.smoObjsize)
    (bounded : smo.smoAlloc < 2 ^ 64) (object : DmuObject) :
    ∃ sm' smo' object' entries,
      spaceMapSync maptype syncPass txg sm smo object = .ok (sm', smo', object') ∧
      8 ∣ smo'.smoObjsize ∧
      dmuRead object' 0 smo'.smoObjsize = dmuRead object 0 smo.smoObjsize ++ entries ∧
      Replays sm maptype entries sm.points ∧
      smo'.smoAlloc = allocAfter maptype smo.smoAlloc sm.smSpace ∧
      smo'.smoObject = smo.smoObject ∧ Becomes sm sm' ∅ := by
  have count := wf.ncard_points
  rw [spaceMapSync]
  by_cases none : sm.smSpace = 0
  · have nothing : sm.points = ∅ := (Set.ncard_eq_zero count.2).mp (count.1.trans none)
    rw [if_pos none]
    refine ⟨sm, smo, object, [], rfl, words, (append_nil _).symm, ?_, ?_, rfl, ?_⟩
    · rw [nothing]
      exact replays_nil sm maptype
    · rw [none, allocAfter_zero maptype bounded]
    · exact nothing ▸ wf.becomes
  · have total_eq : segsTotal sm.smRoot.postorder = sm.smSpace := by
      rw [wf.space_eq]
      exact (sm.smRoot.postorder_perm.map _).sum_eq
    obtain ⟨entries, state, ok, stores, space, replays⟩ :=
      @syncSegs_spec sm ranged maptype (syncCapacity sm) _ (wf.recordable_postorder fits)
        wf.segsDisjoint_postorder (syncStart maptype syncPass txg sm smo object) words total_eq.le
        wf.space_lt
    obtain ⟨last, last_eq, last_stores, last_space, last_log⟩ := SyncState.stores_last stores.words
    have all := stores.trans last_stores
    have emptied : last.smSpace = 0 := by
      rw [last_space, space, total_eq]
      exact Nat.sub_self _
    refine ⟨spaceMapEmpty sm, last.smo, last.object,
      debugEntry maptype syncPass txg :: entries, ?_, all.words, ?_, ?_, all.alloc_eq,
      all.object_eq, wf_spaceMapEmpty sm, points_spaceMapEmpty sm, ⟨rfl, rfl, rfl⟩, rfl, rfl⟩
    · simp only [if_neg none, ok]
      change (if (if state.entryMap ≠ [] then state.flush else state).smSpace = 0 then _ else _) = _
      rw [last_eq, if_pos emptied]
      rfl
    · rw [← last_log, all.log_eq, append_nil]
      exact append_assoc _ _ _
    · rw [SpaceMap.points, SpaceMap.segs, ← segsCover_postorder]
      have batch := (replays_debugEntry sm maptype syncPass txg).append replays
        (Set.empty_disjoint _)
      rwa [Set.empty_union] at batch

end Zfs
