import Zfs.Metaslab.Code
import Zfs.SpaceMap.Pause
import Zfs.Library.TransitionSystem

/-!
# A metaslab and its threads

The metaslab as a transition system.  A step is what one thread does while it holds `ms_lock`, which
`space_map_load`, `metaslab_sync` and `space_map_sync` drop on their way.  Next to the machine runs
a ledger: the state of every byte as the callers know it.
-/

namespace Zfs

/-- The locals of a `space_map_load` in progress. -/
structure LoadFrame where
  /-- Where the next read starts. -/
  offset : ℕ
  /-- `end`. -/
  stop : ℕ
  /-- The space that the map has to have in the end. -/
  space : ℕ
  /-- The request that the map is loaded for. -/
  request : Request

/-- Where `metaslab_sync` has dropped the lock. -/
inductive SyncStage where
  | begun
  | condensed
  | allocs
  | frees
  /-- In a `space_map_sync`.  What is left of the map is in the frame. -/
  | writing (frame : SyncFrame)
  deriving DecidableEq, Repr

/-- A metaslab, its object, and the calls in progress. -/
structure MetaslabState where
  msp : Metaslab
  /-- The object of its space map. -/
  object : DmuObject
  /-- The `space_map_load` in progress. -/
  load : Option LoadFrame
  /-- The `metaslab_sync` in progress. -/
  sync : Option SyncStage
  /-- The last group that was synced. -/
  synced : ℕ

/-- The steps. -/
inductive MetaslabAction where
  /-- A thread takes the lock with a request. -/
  | enter (request : Request)
  /-- A thread returns from `space_map_load_wait`. -/
  | wake (request : Request)
  /-- The loading thread returns from `dmu_read` with an error or 0. -/
  | read (error : ℕ)
  /-- The loading thread has read everything. -/
  | finish
  | freeNow (offset size txg : ℕ)
  | freeLater (offset size txg : ℕ)
  /-- `vdev_sync` takes the metaslab; `number` is the object it may allocate. -/
  | syncBegin (number : ℕ)
  | syncWalk (syncPass : ℕ)
  | syncTruncate
  | syncAllocs (syncPass : ℕ)
  | syncFrees (syncPass : ℕ)
  /-- `space_map_sync` writes its buffer. -/
  | syncWrite
  /-- `vdev_sync_done`. -/
  | txgDone
  deriving DecidableEq, Repr

/-- A region that was handed out: its offset and size. -/
abbrev Region := ℕ × ℕ

namespace MetaslabState

variable (state : MetaslabState) (frame : LoadFrame)

/-- The transaction group that is synced next. -/
def syncing : ℕ := state.synced + 1

/-- `space_map_load` in `metaslab_activate`. -/
def loadEnter (request : Request) :
    Except Halt (MetaslabState × Option Region) :=
  let msp := state.msp
  if msp.msMap.smLoaded then do
    let (msp, region) ← request.activated false msp
    return ({ state with msp := msp }, region)
  else if msp.msMap.smSpace ≠ 0 then
    .error .panic
  else do
    let sm ← loadStart false .free msp.msMap
    return ({ state with
      msp := { msp with msMap := sm }
      load := some ⟨0, msp.msSmo.smoObjsize, loadSpace .free msp.msMap msp.msSmo, request⟩ }, none)

/-- A thread has the lock; it sleeps while a map is loaded. -/
def enter (request : Request) :
    Except Halt (MetaslabState × Option Region) :=
  match request.check state.msp with
  | (msp, false) => .ok ({ state with msp := msp }, none)
  | (msp, true) =>
    if msp.Active then do
      let (msp, region) ← request.serve false msp
      return ({ state with msp := msp }, region)
    else if state.load.isSome then
      .ok ({ state with msp := msp }, none)
    else
      loadEnter { state with msp := msp } request

/-- One round of the loop of `space_map_load`, after `dmu_read`. -/
def readBlock (error : ℕ) : Except Halt MetaslabState :=
  let msp := state.msp
  let size := min (frame.stop - frame.offset) spaceMapBlock
  if p2phase size 8 = 0 ∧ size ≠ 0 then
    if error ≠ 0 then
      let sm := { spaceMapEmpty msp.msMap with smLoading := false }
      .ok { state with
        msp := metaslabGroupSort { msp with msMap := sm } 0
        load := none }
    else do
      let sm ← loadEntries false .free msp.msMap.smStart
        (dmuRead state.object frame.offset size) msp.msMap
      return { state with
        msp := { msp with msMap := sm }
        load := some { frame with offset := frame.offset + spaceMapBlock } }
  else
    .error .panic

/-- The end of `space_map_load`, and what the loading thread does next. -/
def loadDone :
    Except Halt (MetaslabState × Option Region) :=
  let msp := state.msp
  if msp.msMap.smSpace = frame.space then do
    let sm := { msp.msMap with smLoaded := true, smLoading := false }
    let (msp, region) ←
      frame.request.activated false { msp with msMap := sm, smPpd := some fun _ => 0 }
    return ({ state with msp := msp, load := none }, region)
  else
    .error .panic

/-- `metaslab_sync` after a `space_map_sync`. -/
def appended : MapType → MetaslabState
  | .alloc => { state with sync := some .frees }
  | .free => { state with
      msp := state.msp.vdevDirty (txgClean state.syncing)
      sync := none }

/-- `space_map_sync`, up to its first `dmu_write`. -/
def spaceMapSync (maptype : MapType) (syncPass : ℕ) : MetaslabState :=
  let sm := state.msp.txgMap state.syncing maptype
  let smo := state.msp.msSmoSyncing
  if sm.smSpace = 0 then
    state.appended maptype
  else
    { state with
      msp := { state.msp.emptyTxgMap state.syncing maptype with
        msSmoSyncing := { smo with smoAlloc := allocAfter maptype smo.smoAlloc sm.smSpace } }
      sync := some (.writing (.enter maptype syncPass state.syncing sm)) }

/-- One `dmu_write` of `space_map_sync`, and what follows it under the lock. -/
def syncWrite (frame : SyncFrame) : Except Halt MetaslabState :=
  let smo := state.msp.msSmoSyncing
  let state := { state with
    msp := { state.msp with
      msSmoSyncing := { smo with smoObjsize := smo.smoObjsize + 8 * frame.entryMap.length } }
    object := dmuWrite state.object smo.smoObjsize frame.entryMap }
  if frame.size ≠ 0 then
    .ok { state with sync := some (.writing frame.resume) }
  else if frame.smSpace = 0 then
    .ok (state.appended frame.maptype)
  else
    .error .panic

/-- What a step does: the state afterwards and the region handed out. -/
def perform (vd : Vdev) (state : MetaslabState) :
    MetaslabAction → Except Halt (MetaslabState × Option Region)
  | .enter request => state.enter request
  | .wake request => state.loadEnter request
  | .read error =>
    match state.load with
    | none => .error .panic
    | some frame => do return (← state.readBlock frame error, none)
  | .finish =>
    match state.load with
    | none => .error .panic
    | some frame => state.loadDone frame
  | .freeNow offset size txg => do
    let msp ← metaslabFreeNow false state.msp offset size txg
    return ({ state with msp := msp }, none)
  | .freeLater offset size txg => do
    let msp ← metaslabFreeLater false state.msp offset size txg
    return ({ state with msp := msp }, none)
  | .syncBegin number =>
    .ok ({ state with
      msp := syncObject number (state.msp.vdevClean state.syncing)
      sync := some .begun }, none)
  | .syncWalk syncPass => do
    let msp ← syncWalk false state.syncing state.msp
    if msp.Condenses syncPass then
      let msp ← syncCondense false state.syncing msp
      return ({ state with msp := msp, sync := some .condensed }, none)
    else
      return ({ state with msp := msp, sync := some .allocs }, none)
  | .syncTruncate =>
    let (smo, object) := spaceMapTruncate state.msp.msSmoSyncing
    .ok ({ state with
      msp := { state.msp with msSmoSyncing := smo }
      object := object
      sync := some .allocs }, none)
  | .syncAllocs syncPass => .ok (state.spaceMapSync .alloc syncPass, none)
  | .syncFrees syncPass => .ok (state.spaceMapSync .free syncPass, none)
  | .syncWrite =>
    match state.sync with
    | some (.writing frame) => do return (← state.syncWrite frame, none)
    | _ => .error .panic
  | .txgDone =>
    if state.msp.msTxgNode (txgSlot (txgClean state.syncing)) then do
      let msp ← metaslabSyncDone false vd state.syncing
        (state.msp.vdevClean (txgClean state.syncing))
      return ({ state with msp := msp, synced := state.syncing }, none)
    else
      .ok ({ state with synced := state.syncing }, none)

end MetaslabState

/-- What the callers know about a byte. -/
inductive ByteState where
  | free
  | allocated (birth : ℕ)
  /-- Freed in a transaction group that is not done. -/
  | freed (txg : ℕ)
  deriving DecidableEq, Repr

/-- The state of every byte. -/
abbrev Ledger := ℕ → ByteState

variable (geometry : MetaslabGeometry) (ledger : Ledger) (state : MetaslabState)

/-- The bytes of a region get a new state. -/
def Ledger.set (offset size : ℕ) (state : ByteState) : Ledger := fun byte =>
  if offset ≤ byte ∧ byte < offset + size then state else ledger byte

/-- The bytes that were freed in a transaction group are free. -/
def Ledger.release (txg : ℕ) : Ledger := fun byte =>
  if ledger byte = .freed txg then .free else ledger byte

/-- The ledger after a region has been handed out, or not. -/
def Ledger.handOut (txg : ℕ) : Option Region → Ledger
  | none => ledger
  | some (offset, size) => ledger.set offset size (.allocated txg)

/-- The ledger after a step that handed out `region`. -/
def Ledger.record (region : Option Region) :
    MetaslabAction → Ledger
  | .enter request => ledger.handOut request.txg region
  | .wake request => ledger.handOut request.txg region
  | .finish =>
    match state.load with
    | none => ledger
    | some frame => ledger.handOut frame.request.txg region
  | .freeNow offset size _ => ledger.set offset size .free
  | .freeLater offset size txg => ledger.set offset size (.freed txg)
  | .txgDone => ledger.release state.syncing
  | _ => ledger

/-- A transaction group in which other threads work. -/
def MetaslabState.Open (txg : ℕ) : Prop :=
  state.synced < txg ∧ txg ≤ state.synced + txgConcurrentStates ∧
    (state.sync ≠ none → txg ≠ state.syncing)

/-- The arguments of a request are sizes and offsets of blocks. -/
def Request.Legal : Request → Prop
  | .alloc activationWeight size _ =>
    (activationWeight = metaslabWeightPrimary ∨ activationWeight = metaslabWeightSecondary) ∧
      size ≠ 0 ∧ size ≤ 2 ^ 62
  | .claim offset size _ => offset + size < 2 ^ 64

/-- The load in progress does not belong to a transaction group. -/
def MetaslabState.NotLoadingFor (txg : ℕ) : Prop :=
  ∀ frame, state.load = some frame → frame.request.txg ≠ txg

/-- When a step may be taken.  Callers free only what is allocated. -/
def MetaslabState.Enabled (ledger : Ledger) : MetaslabAction → Prop
  | .enter request => state.Open request.txg ∧ request.Legal
  | .wake request => state.Open request.txg ∧ request.Legal ∧ state.load = none
  | .read _ => ∃ frame, state.load = some frame ∧ frame.offset < frame.stop
  | .finish => ∃ frame, state.load = some frame ∧ frame.stop ≤ frame.offset
  | .freeNow offset size txg =>
    state.Open txg ∧ offset + size < 2 ^ 64 ∧
      ∀ byte, offset ≤ byte → byte < offset + size → ∃ birth, ledger byte = .allocated birth
  | .freeLater offset size txg =>
    state.Open txg ∧ offset + size < 2 ^ 64 ∧
      ∀ byte, offset ≤ byte → byte < offset + size →
        ∃ birth, birth ≤ txg ∧ ledger byte = .allocated birth
  | .syncBegin number =>
    state.sync = none ∧ state.msp.msTxgNode (txgSlot state.syncing) = true ∧ number ≠ 0 ∧
      state.NotLoadingFor state.syncing
  | .syncWalk _ => state.sync = some .begun
  | .syncTruncate => state.sync = some .condensed
  | .syncAllocs _ => state.sync = some .allocs
  | .syncFrees _ => state.sync = some .frees
  | .syncWrite => ∃ frame, state.sync = some (.writing frame)
  | .txgDone =>
    state.sync = none ∧ state.msp.msTxgNode (txgSlot state.syncing) = false ∧
      state.NotLoadingFor state.syncing ∧
      (state.msp.msTxgNode (txgSlot (txgClean state.syncing)) = true → state.load = none)

/-- A metaslab of a vdev, of whole sectors. -/
structure MetaslabGeometry where
  vd : Vdev
  /-- An empty map of the range. -/
  range : SpaceMap
  /-- The range is one of a map. -/
  ranged : range.Ranged
  /-- A unit is a sector or more. -/
  sector : 9 ≤ range.smShift
  /-- A weight does not reach the flags. -/
  small : range.smSize ≤ 2 ^ 56
  /-- Offsets on a vdev have 63 bits. -/
  bounded : range.smStart + range.smSize ≤ 2 ^ 63
  /-- The metaslab is one of the vdev. -/
  index : range.smStart >>> vd.vdevMsShift ≤ vd.vdevMsCount

/-- A metaslab that has just become available, on an object with a log. -/
def MetaslabStart (world : MetaslabState × Ledger) : Prop :=
  ∃ smo object allocated txg synced msp, ∃ listed : Bool,
    Recorded geometry.range allocated smo object ∧
    metaslabSyncDone false geometry.vd txg (metaslabInit smo geometry.range.smStart
      geometry.range.smSize geometry.range.smShift) = .ok msp ∧
    world.1 = ⟨if listed then msp.vdevDirty synced else msp, object, none, none, synced⟩ ∧
    (∀ byte ∈ allocated, ∃ birth, world.2 byte = .allocated birth) ∧
    ∀ byte ∉ allocated, world.2 byte = .free

/-- A metaslab under any interleaving of its threads. -/
def metaslabSystem :
    TransitionSystem (MetaslabState × Ledger) (MetaslabAction × Option Region) where
  Start := MetaslabStart geometry
  Step world label next :=
    world.1.Enabled world.2 label.1 ∧
      world.1.perform geometry.vd label.1 = .ok (next.1, label.2) ∧
      next.2 = world.2.record world.1 label.2 label.1

end Zfs
