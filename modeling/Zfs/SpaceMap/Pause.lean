import Zfs.SpaceMap.History

/-!
# `space_map_sync` without its lock

`space_map_sync` drops the lock of the map around every `dmu_write`.  Where it has done so, a part
of the map is still in the buffer, and another part has not been looked at.  A call that goes on
from there leaves what it would have left in one piece.
-/

namespace Zfs

open BalancedTree BalTree Segments List Set

/-- A `space_map_sync` that has dropped the lock for a `dmu_write`. -/
structure SyncFrame where
  /-- Allocations or frees. -/
  maptype : MapType
  /-- The map as the call found it. -/
  sm : SpaceMap
  /-- The segments that `avl_destroy_nodes` has not returned. -/
  segs : List Seg
  /-- Where the rest of the current segment starts. -/
  start : ℕ
  /-- How many units of the current segment are left. -/
  size : ℕ
  /-- The entries between `entry_map` and `entry`. -/
  entryMap : List ℕ
  /-- What is left of `sm_space`. -/
  smSpace : ℕ
  deriving DecidableEq, Repr

namespace SyncFrame

/-- The inner loop of `space_map_sync`, while the buffer has room. -/
def storeRuns : ℕ → SyncFrame → SyncFrame
  | 0, frame => frame
  | room + 1, frame =>
    if frame.size = 0 then
      frame
    else
      let runLen := min frame.size smRunMax
      storeRuns room { frame with
        start := frame.start + runLen
        size := frame.size - runLen
        entryMap := frame.entryMap ++ [runEntry frame.maptype frame.start runLen] }

/-- The loops of `space_map_sync`, up to the next `dmu_write`. -/
def storeSegs : List Seg → SyncFrame → SyncFrame
  | [], frame => storeRuns (syncCapacity frame.sm - frame.entryMap.length) { frame with segs := [] }
  | ss :: segs, frame =>
    let frame :=
      storeRuns (syncCapacity frame.sm - frame.entryMap.length) { frame with segs := ss :: segs }
    if frame.size ≠ 0 then
      frame
    else
      let size := sub64 ss.ssEnd ss.ssStart
      storeSegs segs { frame with
        start := sub64 ss.ssStart frame.sm.smStart >>> frame.sm.smShift
        size := size >>> frame.sm.smShift
        smSpace := sub64 frame.smSpace size }

/-- `space_map_sync` on a map that is not empty, up to its first `dmu_write`. -/
def enter (maptype : MapType) (syncPass txg : ℕ) (sm : SpaceMap) : SyncFrame :=
  storeSegs sm.smRoot.postorder ⟨maptype, sm, [], 0, 0, [debugEntry maptype syncPass txg],
    sm.smSpace⟩

/-- The full buffer has been written. -/
def resume (frame : SyncFrame) : SyncFrame :=
  storeSegs frame.segs { frame with entryMap := [] }

/-- What the call leaves when it goes on to its end. -/
def runOn (frame : SyncFrame) (smo : SpaceMapObj) (object : DmuObject) :
    Except Halt (SpaceMapObj × DmuObject) := do
  let state ← syncRuns frame.maptype (syncCapacity frame.sm) (frame.size / smRunMax + 2)
    frame.start frame.size ⟨frame.entryMap, smo, object, frame.smSpace⟩
  let state ← syncSegs frame.maptype (syncCapacity frame.sm) frame.sm frame.segs state
  let state := if state.entryMap ≠ [] then state.flush else state
  if state.smSpace = 0 then
    .ok (state.smo, state.object)
  else
    .error .panic

end SyncFrame

variable {range : SpaceMap} {allocated : Set ℕ} {size : ℕ} {smo : SpaceMapObj} {object : DmuObject}

theorem syncRuns_zero (maptype : MapType) (capacity fuel start : ℕ) (state : SyncState) :
    syncRuns maptype capacity (fuel + 1) start 0 state = .ok state := if_pos rfl

/-- The inner loop goes on the same with less fuel. -/
theorem syncRuns_step (maptype : MapType) (capacity start : ℕ) (state : SyncState)
    (more : size ≠ 0) :
    syncRuns maptype capacity (size / smRunMax + 2) start size state =
      syncRuns maptype capacity ((size - min size smRunMax) / smRunMax + 2)
        (start + min size smRunMax) (size - min size smRunMax)
        (state.emit capacity (runEntry maptype start (min size smRunMax))) := by
  have run_pos : 0 < smRunMax := by decide
  rw [syncRuns, if_neg more]
  by_cases long : smRunMax ≤ size
  · have fuel : size / smRunMax = (size - smRunMax) / smRunMax + 1 :=
      Nat.div_eq_sub_div run_pos long
    rw [min_eq_right long, fuel]
  · -- this was the last run
    rw [min_eq_left (Nat.le_of_not_le long), Nat.sub_self, syncRuns_zero]
    exact (congrArg (syncRuns maptype capacity _ _ · _) (Nat.sub_self size)).trans
      (syncRuns_zero _ _ _ _ _)

theorem syncCapacity_pos (sm : SpaceMap) : 0 < syncCapacity sm := by
  have block : spaceMapBlock = 4096 := by decide
  rw [syncCapacity, block]
  omega

namespace SyncState

variable {state : SyncState} {capacity entry : ℕ}

theorem emit_of_room (room : state.entryMap.length < capacity) :
    state.emit capacity entry = { state with entryMap := state.entryMap ++ [entry] } := by
  rw [emit, if_neg room.ne]

theorem emit_of_full (full : state.entryMap.length = capacity) (positive : 0 < capacity) :
    state.emit capacity entry = state.flush.emit capacity entry := by
  rw [emit_of_room (show state.flush.entryMap.length < capacity from positive), emit, if_pos full]

theorem flush_nil (empty : state.entryMap = []) : state.flush = state := by
  obtain ⟨entryMap, smo, object, smSpace⟩ := state
  subst empty
  have same : dmuWrite object smo.smoObjsize [] = object := by
    funext index
    exact if_neg (by simp only [length_nil]; omega)
  simp [flush, same]

end SyncState

namespace SyncFrame

variable {frame : SyncFrame}

/-- The inner loop stops at the end of the buffer or of the segment. -/
theorem storeRuns_spec (room : ℕ) (frame : SyncFrame) :
    ∃ start size entryMap, storeRuns room frame = { frame with start, size, entryMap } ∧
    (size ≠ 0 → entryMap.length = frame.entryMap.length + room) ∧
    entryMap.length ≤ frame.entryMap.length + room := by
  induction room generalizing frame with
  | zero => exact ⟨_, _, _, rfl, fun _ => rfl, le_rfl⟩
  | succ room ih =>
    rw [storeRuns]
    split_ifs with done
    · exact ⟨_, _, _, rfl, fun more => absurd done more, Nat.le_add_right _ _⟩
    · obtain ⟨start, size, entryMap, same, full, bound⟩ := ih { frame with
        start := frame.start + min frame.size smRunMax
        size := frame.size - min frame.size smRunMax
        entryMap := frame.entryMap ++
          [runEntry frame.maptype frame.start (min frame.size smRunMax)] }
      rw [length_append, length_singleton, add_assoc, add_comm 1] at full bound
      exact ⟨start, size, entryMap, same, full, bound⟩

theorem runOn_storeRuns (room : ℕ) (frame : SyncFrame)
    (fits : frame.entryMap.length + room ≤ syncCapacity frame.sm) :
    (storeRuns room frame).runOn smo object = frame.runOn smo object := by
  induction room generalizing frame with
  | zero => rfl
  | succ room ih =>
    rw [storeRuns]
    split_ifs with done
    · rfl
    · rw [ih _ (by simp only [length_append, length_singleton]; omega), runOn, runOn,
        syncRuns_step _ _ _ _ done, SyncState.emit_of_room (by simp only; omega)]

/-- The next segment is taken from the tree. -/
theorem runOn_cons {ss : Seg} {segs : List Seg} (done : frame.size = 0)
    (left : frame.segs = ss :: segs) :
    frame.runOn smo object = runOn { frame with
      segs := segs
      start := sub64 ss.ssStart frame.sm.smStart >>> frame.sm.smShift
      size := sub64 ss.ssEnd ss.ssStart >>> frame.sm.smShift
      smSpace := sub64 frame.smSpace (sub64 ss.ssEnd ss.ssStart) } smo object := by
  rw [runOn, done, left]
  exact bind_assoc (m := Except Halt) _ _ _

/-- What holds where the lock is dropped: the buffer is full, or the call is at its end. -/
structure Paused (frame : SyncFrame) : Prop where
  /-- The buffer is full inside a segment. -/
  full : frame.size ≠ 0 → frame.entryMap.length = syncCapacity frame.sm
  /-- Otherwise no segment is left. -/
  last : frame.size = 0 → frame.segs = []

theorem storeSegs_spec (segs : List Seg) (frame : SyncFrame)
    (fits : frame.entryMap.length ≤ syncCapacity frame.sm) :
    (storeSegs segs frame).Paused ∧
    (storeSegs segs frame).runOn smo object = runOn { frame with segs := segs } smo object ∧
    (storeSegs segs frame).maptype = frame.maptype := by
  have room : frame.entryMap.length + (syncCapacity frame.sm - frame.entryMap.length) =
      syncCapacity frame.sm := by omega
  induction segs generalizing frame with
  | nil =>
    have ran := @runOn_storeRuns smo object _ { frame with segs := [] } room.le
    obtain ⟨start, size, entryMap, same, full, -⟩ :=
      storeRuns_spec (syncCapacity frame.sm - frame.entryMap.length) { frame with segs := [] }
    rw [same] at ran
    rw [storeSegs, same]
    exact ⟨⟨fun more => (full more).trans room, fun _ => rfl⟩, ran, rfl⟩
  | cons ss segs ih =>
    have ran := @runOn_storeRuns smo object _ { frame with segs := ss :: segs } room.le
    obtain ⟨start, size, entryMap, same, full, bound⟩ :=
      storeRuns_spec (syncCapacity frame.sm - frame.entryMap.length)
        { frame with segs := ss :: segs }
    rw [same] at ran
    rw [← ran, storeSegs, same]
    by_cases done : size = 0
    · have bound' : entryMap.length ≤ syncCapacity frame.sm := bound.trans_eq room
      simp only [done, ne_eq, not_true_eq_false, if_false]
      rw [@runOn_cons _ _ ⟨frame.maptype, frame.sm, ss :: segs, start, 0, entryMap, frame.smSpace⟩
        ss segs rfl rfl]
      exact ih _ bound' (by simp only; omega)
    · simp only [ne_eq, done, not_false_eq_true, if_true]
      exact ⟨⟨fun more => (full more).trans room, fun none => absurd none done⟩, trivial, trivial⟩

/-- The full buffer is written, and the call goes on. -/
theorem runOn_resume (paused : frame.Paused) (more : frame.size ≠ 0) :
    frame.resume.Paused ∧
    frame.resume.runOn
        { smo with smoObjsize := smo.smoObjsize + 8 * frame.entryMap.length }
        (dmuWrite object smo.smoObjsize frame.entryMap) = frame.runOn smo object ∧
    frame.resume.maptype = frame.maptype := by
  have positive := syncCapacity_pos frame.sm
  obtain ⟨paused', same, type⟩ := @storeSegs_spec
    { smo with smoObjsize := smo.smoObjsize + 8 * frame.entryMap.length }
    (dmuWrite object smo.smoObjsize frame.entryMap) frame.segs { frame with entryMap := [] }
    (Nat.zero_le _)
  refine ⟨paused', same.trans ?_, type⟩
  rw [runOn, runOn, syncRuns_step _ _ _ _ more, syncRuns_step _ _ _ _ more]
  nth_rewrite 2 [SyncState.emit_of_full (paused.full more) positive]
  rfl

/-- The last buffer is written. -/
theorem runOn_last (paused : frame.Paused) (done : frame.size = 0)
    {smo' : SpaceMapObj} {object' : DmuObject}
    (ok : frame.runOn smo object = .ok (smo', object')) :
    frame.smSpace = 0 ∧
    smo' = { smo with smoObjsize := smo.smoObjsize + 8 * frame.entryMap.length } ∧
    object' = dmuWrite object smo.smoObjsize frame.entryMap := by
  rw [runOn, done, paused.last done] at ok
  have written : ∀ state : SyncState, (if state.entryMap ≠ [] then state.flush else state) =
      state.flush := fun state => by
    split_ifs with pending
    · rfl
    · exact (SyncState.flush_nil (not_ne_iff.mp pending)).symm
  simp only [written] at ok
  change (if frame.smSpace = 0 then _ else _) = _ at ok
  split_ifs at ok with none
  cases ok
  exact ⟨none, rfl, rfl⟩

end SyncFrame

/-- The log of an object records an allocated set once the `space_map_sync` in progress has written
the rest of its map. -/
structure Appends (range : SpaceMap) (allocated : Set ℕ) (frame : SyncFrame) (smo : SpaceMapObj)
    (object : DmuObject) : Prop where
  /-- The call waits for a `dmu_write`. -/
  paused : frame.Paused
  /-- What the call leaves in the end records the set. -/
  rest : ∃ smo' object', frame.runOn smo object = .ok (smo', object') ∧
    Recorded range allocated smo' object'

/-- `space_map_sync` up to its first `dmu_write`. -/
theorem Recorded.enter (ranged : range.Ranged) (recorded : Recorded range allocated smo object)
    (maptype : MapType) (syncPass txg : ℕ) {sm : SpaceMap} (wf : sm.Wf) (same : SameRange range sm)
    (fits : sm.Fits) (permitted : (loadAction maptype .alloc).Permits allocated sm.points)
    (some_left : sm.smSpace ≠ 0) :
    Appends range ((loadAction maptype .alloc).apply allocated sm.points)
      (SyncFrame.enter maptype syncPass txg sm)
      { smo with smoAlloc := allocAfter maptype smo.smoAlloc sm.smSpace } object ∧
    (SyncFrame.enter maptype syncPass txg sm).maptype = maptype := by
  obtain ⟨sm', smo', object', ok, recorded', -⟩ :=
    recorded.sync ranged maptype syncPass txg wf same fits permitted
  rw [spaceMapSync, if_neg some_left] at ok
  obtain ⟨state, stored, rest⟩ := bind_ok ok
  obtain ⟨paused, ran, type⟩ := @SyncFrame.storeSegs_spec
    { smo with smoAlloc := allocAfter maptype smo.smoAlloc sm.smSpace } object sm.smRoot.postorder
    ⟨maptype, sm, [], 0, 0, [debugEntry maptype syncPass txg], sm.smSpace⟩ (syncCapacity_pos sm)
  refine ⟨⟨paused, smo', object', ran.trans ?_, recorded'⟩, type⟩
  rw [SyncFrame.runOn, syncRuns_zero]
  change (syncSegs maptype (syncCapacity sm) sm sm.smRoot.postorder
    (syncStart maptype syncPass txg sm smo object) >>= _) = _
  rw [stored]
  simp only [bind, Except.bind] at rest ⊢
  split_ifs at rest ⊢ <;> cases rest <;> rfl

variable {frame : SyncFrame}

theorem Appends.write (appends : Appends range allocated frame smo object) (more : frame.size ≠ 0) :
    Appends range allocated frame.resume
      { smo with smoObjsize := smo.smoObjsize + 8 * frame.entryMap.length }
      (dmuWrite object smo.smoObjsize frame.entryMap) ∧ frame.resume.maptype = frame.maptype := by
  obtain ⟨smo', object', ran, recorded⟩ := appends.rest
  obtain ⟨paused, same, type⟩ := @SyncFrame.runOn_resume smo object frame appends.paused more
  exact ⟨⟨paused, smo', object', same.trans ran, recorded⟩, type⟩

theorem Appends.last (appends : Appends range allocated frame smo object) (done : frame.size = 0) :
    frame.smSpace = 0 ∧ Recorded range allocated
      { smo with smoObjsize := smo.smoObjsize + 8 * frame.entryMap.length }
      (dmuWrite object smo.smoObjsize frame.entryMap) := by
  obtain ⟨smo', object', ran, recorded⟩ := appends.rest
  obtain ⟨none_left, rfl, rfl⟩ := SyncFrame.runOn_last appends.paused done ran
  exact ⟨none_left, recorded⟩

end Zfs
