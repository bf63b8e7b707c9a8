import Zfs.SpaceMap.Code

/-!
# The on-disk space map

`space_map_sync` appends the segments of a map to an object as a log of 64-bit entries, through a
buffer of at most 4096 bytes, and `space_map_load` replays the log.  A read of the object returns
what was last written.
-/

namespace Zfs

open BalancedTree BalTree

/-- `SM_ALLOC` and `SM_FREE`. -/
inductive MapType where
  | alloc
  | free
  deriving DecidableEq, Repr

/-- The value of a map type. -/
def MapType.code : MapType → ℕ
  | .alloc => 0
  | .free => 1

def smRunDecode (entry : ℕ) : ℕ := bf64Decode entry 0 15 + 1

def smRunEncode (run : ℕ) : ℕ := bf64Encode (run - 1) 0 15

def smTypeDecode (entry : ℕ) : ℕ := bf64Decode entry 15 1

def smTypeEncode (type : ℕ) : ℕ := bf64Encode type 15 1

def smOffsetDecode (entry : ℕ) : ℕ := bf64Decode entry 16 47

def smOffsetEncode (offset : ℕ) : ℕ := bf64Encode offset 16 47

def smDebugDecode (entry : ℕ) : ℕ := bf64Decode entry 63 1

def smDebugEncode (debug : ℕ) : ℕ := bf64Encode debug 63 1

def smDebugActionEncode (action : ℕ) : ℕ := bf64Encode action 60 3

def smDebugSyncpassEncode (syncPass : ℕ) : ℕ := bf64Encode syncPass 50 10

def smDebugTxgEncode (txg : ℕ) : ℕ := bf64Encode txg 0 50

def smRunMax : ℕ := smRunDecode (2 ^ 64 - 1)

/-- `1 << SPACE_MAP_BLOCKSHIFT`. -/
def spaceMapBlock : ℕ := 1 <<< 12

structure SpaceMapObj where
  /-- Number of the object, 0 for none. -/
  smoObject : ℕ
  /-- The length of the log in bytes. -/
  smoObjsize : ℕ
  /-- The space that is allocated. -/
  smoAlloc : ℕ
  deriving DecidableEq, Repr

/-- The words of an object, by index. -/
abbrev DmuObject := ℕ → ℕ

/-- `dmu_write` of whole words. -/
def dmuWrite (object : DmuObject) (offset : ℕ) (words : List ℕ) : DmuObject := fun index =>
  if offset / 8 ≤ index ∧ index < offset / 8 + words.length then
    words.getD (index - offset / 8) 0
  else
    object index

/-- The words that `dmu_read` returns. -/
def dmuRead (object : DmuObject) (offset size : ℕ) : List ℕ :=
  (List.range (size / 8)).map fun index => object (offset / 8 + index)

/-- The locals of `space_map_sync` that its loop changes. -/
structure SyncState where
  /-- The entries between `entry_map` and `entry`. -/
  entryMap : List ℕ
  smo : SpaceMapObj
  /-- The bytes of the log. -/
  object : DmuObject
  /-- The space of the map that is left. -/
  smSpace : ℕ

/-- Write the buffer out and start it again. -/
def SyncState.flush (state : SyncState) : SyncState :=
  { state with
    object := dmuWrite state.object state.smo.smoObjsize state.entryMap
    smo := { state.smo with smoObjsize := state.smo.smoObjsize + 8 * state.entryMap.length }
    entryMap := [] }

/-- Store an entry, flushing first when `entry == entry_map_end`. -/
def SyncState.emit (capacity : ℕ) (state : SyncState) (entry : ℕ) : SyncState :=
  let state := if state.entryMap.length = capacity then state.flush else state
  { state with entryMap := state.entryMap ++ [entry] }

/-- An entry for a run. -/
def runEntry (maptype : MapType) (start runLen : ℕ) : ℕ :=
  smOffsetEncode start ||| smTypeEncode maptype.code ||| smRunEncode runLen

/-- The debug entry at the head of a batch. -/
def debugEntry (maptype : MapType) (syncPass txg : ℕ) : ℕ :=
  smDebugEncode 1 ||| smDebugActionEncode maptype.code ||| smDebugSyncpassEncode syncPass |||
    smDebugTxgEncode txg

/-- The inner loop of `space_map_sync`: split one segment into runs. -/
def syncRuns (maptype : MapType) (capacity : ℕ) :
    ℕ → ℕ → ℕ → SyncState → Except Halt SyncState
  | 0, _, _, _ => .error .fuel
  | fuel + 1, start, size, state =>
    if size = 0 then
      .ok state
    else
      let runLen := min size smRunMax
      syncRuns maptype capacity fuel (start + runLen) (size - runLen)
        (state.emit capacity (runEntry maptype start runLen))

/-- The outer loop of `space_map_sync`, over the segments. -/
def syncSegs (maptype : MapType) (capacity : ℕ) (sm : SpaceMap) :
    List Seg → SyncState → Except Halt SyncState
  | [], state => .ok state
  | ss :: segs, state => do
    let size := sub64 ss.ssEnd ss.ssStart
    let start := sub64 ss.ssStart sm.smStart >>> sm.smShift
    let state := { state with smSpace := sub64 state.smSpace size }
    let size := size >>> sm.smShift
    let state ← syncRuns maptype capacity (size / smRunMax + 2) start size state
    syncSegs maptype capacity sm segs state

/-- `smo_alloc` after a batch of the given size. -/
def allocAfter (maptype : MapType) (smoAlloc space : ℕ) : ℕ :=
  match maptype with
  | .alloc => add64 smoAlloc space
  | .free => sub64 smoAlloc space

variable (sm : SpaceMap) (zfsRecover : Bool)

/-- The number of entries in the buffer of `space_map_sync`. -/
def syncCapacity : ℕ := min ((8 + sm.smRoot.toList.length) * 8) spaceMapBlock / 8

/-- Before the loop of `space_map_sync`, with the debug entry. -/
def syncStart (maptype : MapType) (syncPass txg : ℕ) (sm : SpaceMap) (smo : SpaceMapObj)
    (object : DmuObject) : SyncState where
  entryMap := [debugEntry maptype syncPass txg]
  smo := { smo with smoAlloc := allocAfter maptype smo.smoAlloc sm.smSpace }
  object := object
  smSpace := sm.smSpace

def spaceMapSync (maptype : MapType) (syncPass txg : ℕ) (sm : SpaceMap) (smo : SpaceMapObj)
    (object : DmuObject) : Except Halt (SpaceMap × SpaceMapObj × DmuObject) :=
  if sm.smSpace = 0 then
    .ok (sm, smo, object)
  else do
    let state ← syncSegs maptype (syncCapacity sm) sm sm.smRoot.postorder
      (syncStart maptype syncPass txg sm smo object)
    let state := if state.entryMap ≠ [] then state.flush else state
    if state.smSpace = 0 then
      .ok ({ sm with smRoot := .nil, smSpace := 0 }, state.smo, state.object)
    else
      .error .panic

def spaceMapTruncate (smo : SpaceMapObj) : SpaceMapObj × DmuObject :=
  ({ smo with smoObjsize := 0, smoAlloc := 0 }, fun _ => 0)

/-- One entry of the log, as `space_map_load` replays it. -/
def loadEntry (maptype : MapType) (mapstart : ℕ) (sm : SpaceMap) (entry : ℕ) :
    Except Halt SpaceMap :=
  if smDebugDecode entry ≠ 0 then
    .ok sm
  else
    let start := add64 ((smOffsetDecode entry <<< sm.smShift) % 2 ^ 64) mapstart
    let size := (smRunDecode entry <<< sm.smShift) % 2 ^ 64
    if smTypeDecode entry = maptype.code then
      spaceMapAdd zfsRecover sm start size
    else
      spaceMapRemove zfsRecover sm start size

/-- The entries of one buffer. -/
def loadEntries (zfsRecover : Bool) (maptype : MapType) (mapstart : ℕ) :
    List ℕ → SpaceMap → Except Halt SpaceMap
  | [], sm => .ok sm
  | entry :: entries, sm => do
    let sm ← loadEntry zfsRecover maptype mapstart sm entry
    loadEntries zfsRecover maptype mapstart entries sm

/-- The loop of `space_map_load`; `readError` is what `dmu_read` returns. -/
def loadBlocks (zfsRecover : Bool) (maptype : MapType) (mapstart stop : ℕ) (object : DmuObject)
    (readError : ℕ → ℕ) : List ℕ → SpaceMap → Except Halt (SpaceMap × ℕ)
  | [], sm => .ok (sm, 0)
  | offset :: offsets, sm =>
    let size := min (stop - offset) spaceMapBlock
    if p2phase size 8 = 0 ∧ size ≠ 0 then
      if readError offset ≠ 0 then
        .ok (sm, readError offset)
      else do
        let sm ← loadEntries zfsRecover maptype mapstart (dmuRead object offset size) sm
        loadBlocks zfsRecover maptype mapstart stop object readError offsets sm
    else
      .error .panic

/-- The map before the first entry is replayed. -/
def loadStart (maptype : MapType) (sm : SpaceMap) : Except Halt SpaceMap :=
  let sm := { sm with smLoading := true }
  match maptype with
  | .alloc => .ok sm
  | .free => spaceMapAdd zfsRecover sm sm.smStart sm.smSize

/-- The space that the loaded map has to have. -/
def loadSpace (maptype : MapType) (sm : SpaceMap) (smo : SpaceMapObj) : ℕ :=
  match maptype with
  | .alloc => smo.smoAlloc
  | .free => sub64 sm.smSize smo.smoAlloc

/-- The offsets of the reads. -/
def loadOffsets (stop : ℕ) : List ℕ :=
  (List.range ((stop + spaceMapBlock - 1) / spaceMapBlock)).map (· * spaceMapBlock)

/-- The end of `space_map_load`. -/
def loadFinish (error space : ℕ) : Except Halt (SpaceMap × ℕ) :=
  if error = 0 then
    if sm.smSpace = space then
      .ok ({ sm with smLoaded := true, smLoading := false }, 0)
    else
      .error .panic
  else
    .ok ({ spaceMapEmpty sm with smLoading := false }, error)

/-- `space_map_load`: the map and the error returned. -/
def spaceMapLoad (maptype : MapType) (sm : SpaceMap) (smo : SpaceMapObj) (object : DmuObject)
    (readError : ℕ → ℕ) : Except Halt (SpaceMap × ℕ) :=
  if sm.smLoaded then
    .ok (sm, 0)
  else if sm.smSpace ≠ 0 then
    .error .panic
  else do
    let started ← loadStart zfsRecover maptype sm
    let (loaded, error) ← loadBlocks zfsRecover maptype sm.smStart smo.smoObjsize object readError
      (loadOffsets smo.smoObjsize) started
    loadFinish loaded error (loadSpace maptype sm smo)

end Zfs
