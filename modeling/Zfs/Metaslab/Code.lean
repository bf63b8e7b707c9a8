import Zfs.SpaceMap.Log

/-!
# Metaslabs

The functions of `metaslab.c` on one metaslab.  Where a function drops `ms_lock`, it is cut into the
pieces between the places where it does.
-/

namespace Zfs

open BalancedTree BalTree Function

def txgConcurrentStates : ℕ := 3

/-- The slot of a transaction group. -/
def txgSlot (txg : ℕ) : ℕ := txg &&& txgMask

def txgClean (txg : ℕ) : ℕ := sub64 txg 1

def highbit (value : ℕ) : ℕ := if value = 0 then 0 else value.log2 + 1

/-- The segments from what `avl_find` or `avl_nearest` returns on. -/
def segsFrom (sm : SpaceMap) (start stop : ℕ) : List Seg :=
  match findSeg sm start stop with
  | (place, .nil) => after place
  | (place, .node _ ss _ right) => ss :: right.toList ++ after place

/-- The loop of `metaslab_ff_alloc`: the first segment with room. -/
def ffFit (size align : ℕ) : List Seg → Option ℕ
  | [] => none
  | ss :: segs =>
    let offset := p2roundup ss.ssStart align
    if add64 offset size ≤ ss.ssEnd then some offset else ffFit size align segs

/-- `metaslab_ff_alloc`: the offset, if any, and the cursors. -/
def metaslabFfAlloc (sm : SpaceMap) (cursors : ℕ → ℕ) (size : ℕ) : Option ℕ × (ℕ → ℕ) :=
  let align := size &&& sub64 0 size
  let index := highbit align - 1
  let cursor := cursors index
  match ffFit size align (segsFrom sm cursor (add64 cursor size)) with
  | some offset => (some offset, update cursors index (add64 offset size))
  | none =>
    if cursor = 0 then
      (none, cursors)
    else
      match ffFit size align (segsFrom sm 0 size) with
      | some offset => (some offset, update cursors index (add64 offset size))
      | none => (none, update cursors index 0)

/-- What the metaslabs of a vdev share. -/
structure Vdev where
  /-- The logarithm of the size of a metaslab. -/
  vdevMsShift : ℕ
  /-- The number of metaslabs. -/
  vdevMsCount : ℕ

structure Metaslab where
  /-- The space map object as it was last synced. -/
  msSmo : SpaceMapObj
  /-- The space map object as it is being synced. -/
  msSmoSyncing : SpaceMapObj
  /-- Allocated this txg, by slot. -/
  msAllocmap : ℕ → SpaceMap
  /-- Freed this txg, by slot. -/
  msFreemap : ℕ → SpaceMap
  /-- The in-core map of the free space. -/
  msMap : SpaceMap
  /-- `sm_ppd` of the in-core map; `sm_ops` is set while it is. -/
  smPpd : Option (ℕ → ℕ)
  /-- The weight, with two flags. -/
  msWeight : ℕ
  /-- Membership in the dirty lists of the vdev, by slot. -/
  msTxgNode : ℕ → Bool

def metaslabWeightPrimary : ℕ := 1 <<< 63

def metaslabWeightSecondary : ℕ := 1 <<< 62

def metaslabActiveMask : ℕ := metaslabWeightPrimary ||| metaslabWeightSecondary

def metaslabSmoBonusMultiplier : ℕ := 2

namespace Metaslab

variable (msp : Metaslab)

/-- The metaslab is active. -/
def Active : Prop := msp.msWeight &&& metaslabActiveMask ≠ 0

instance (msp : Metaslab) : Decidable msp.Active := inferInstanceAs (Decidable (_ ≠ _))

/-- Replace the alloc map of a transaction group. -/
def setAllocmap (txg : ℕ) (sm : SpaceMap) : Metaslab :=
  { msp with msAllocmap := update msp.msAllocmap (txgSlot txg) sm }

/-- Replace the free map of a transaction group. -/
def setFreemap (txg : ℕ) (sm : SpaceMap) : Metaslab :=
  { msp with msFreemap := update msp.msFreemap (txgSlot txg) sm }

/-- `vdev_dirty` with `VDD_METASLAB`. -/
def vdevDirty (txg : ℕ) : Metaslab :=
  { msp with msTxgNode := update msp.msTxgNode (txgSlot txg) true }

/-- `vdev_dirty` for the first entry into a map of a transaction group. -/
def dirtyFirst (sm : SpaceMap) (txg : ℕ) : Metaslab :=
  if sm.smSpace = 0 then msp.vdevDirty txg else msp

/-- `txg_list_remove` from the dirty list of a transaction group. -/
def vdevClean (txg : ℕ) : Metaslab :=
  { msp with msTxgNode := update msp.msTxgNode (txgSlot txg) false }

end Metaslab

variable (zfsRecover : Bool) (msp : Metaslab)

def metaslabGroupSort (weight : ℕ) : Metaslab := { msp with msWeight := weight }

def metaslabWeight (vd : Vdev) (msp : Metaslab) : ℕ :=
  let sm := msp.msMap
  let smo := msp.msSmo
  let space := sub64 sm.smSize smo.smoAlloc
  let weight := sub64 (2 * space % 2 ^ 64)
    ((sm.smStart >>> vd.vdevMsShift) * space % 2 ^ 64 / vd.vdevMsCount)
  let weight := if smo.smoObject ≠ 0 then weight * metaslabSmoBonusMultiplier % 2 ^ 64 else weight
  weight ||| (msp.msWeight &&& metaslabActiveMask)

def metaslabPassivate (size : ℕ) : Metaslab :=
  metaslabGroupSort msp (min msp.msWeight size)

/-- `space_map_alloc` on the in-core map. -/
def spaceMapAlloc (size : ℕ) :
    Except Halt (Metaslab × Option ℕ) :=
  match msp.smPpd with
  | none => .error .panic
  | some cursors =>
    match metaslabFfAlloc msp.msMap cursors size with
    | (none, cursors) => .ok ({ msp with smPpd := some cursors }, none)
    | (some offset, cursors) => do
      let sm ← spaceMapRemove zfsRecover msp.msMap offset size
      return ({ msp with msMap := sm, smPpd := some cursors }, some offset)

/-- Enter a region into an alloc map; the first dirties it. -/
def recordAlloc (offset size txg : ℕ) :
    Except Halt Metaslab := do
  let allocmap ← spaceMapAdd zfsRecover (msp.msAllocmap (txgSlot txg)) offset size
  return (msp.dirtyFirst (msp.msAllocmap (txgSlot txg)) txg).setAllocmap txg allocmap

/-- What a thread wants of a metaslab that has to be active. -/
inductive Request where
  | alloc (activationWeight size txg : ℕ)
  | claim (offset size txg : ℕ)
  deriving DecidableEq, Repr

/-- The transaction group of a request. -/
def Request.txg : Request → ℕ
  | .alloc _ _ txg => txg
  | .claim _ _ txg => txg

/-- The weight that `metaslab_activate` is given. -/
def Request.activationWeight : Request → ℕ
  | .alloc activationWeight _ _ => activationWeight
  | .claim _ _ _ => metaslabWeightSecondary

/-- What `metaslab_group_alloc` checks before activation. -/
def Request.check : Request → Metaslab × Bool
  | .alloc activationWeight size _ =>
    if msp.msWeight < size then
      (msp, false)
    else if msp.msWeight &&& metaslabWeightSecondary ≠ 0 ∧
        activationWeight = metaslabWeightPrimary then
      (metaslabPassivate msp (msp.msWeight &&& (2 ^ 64 - 1 - metaslabActiveMask)), false)
    else
      (msp, true)
  | .claim _ _ _ => (msp, true)

/-- What is done once the metaslab is active. -/
def Request.serve :
    Request → Except Halt (Metaslab × Option (ℕ × ℕ))
  | .alloc _ size txg => do
    let (msp, offset) ← spaceMapAlloc zfsRecover msp size
    match offset with
    | none => return (metaslabPassivate msp (size - 1), none)
    | some offset =>
      let msp ← recordAlloc zfsRecover msp offset size txg
      return (msp, some (offset, size))
  | .claim offset size txg => do
    let sm ← spaceMapRemove zfsRecover msp.msMap offset size
    let msp ← recordAlloc zfsRecover { msp with msMap := sm } offset size txg
    return (msp, some (offset, size))

/-- `metaslab_activate` after `space_map_load` has returned 0. -/
def Request.activated (request : Request) :
    Except Halt (Metaslab × Option (ℕ × ℕ)) :=
  request.serve zfsRecover (metaslabGroupSort msp (msp.msWeight ||| request.activationWeight))

/-- `metaslab_free_dva` with `now`. -/
def metaslabFreeNow (offset size txg : ℕ) :
    Except Halt Metaslab := do
  let allocmap ← spaceMapRemove zfsRecover (msp.msAllocmap (txgSlot txg)) offset size
  let sm ← spaceMapAdd zfsRecover msp.msMap offset size
  if msp.smPpd.isSome then
    return { msp.setAllocmap txg allocmap with msMap := sm }
  else
    .error .panic

/-- Whether an alloc map up to the group holds a region. -/
def allocmapsContain (msp : Metaslab) (offset size txg : ℕ) : List ℕ → Except Halt Bool
  | [] => .ok false
  | i :: rest => do
    if ← spaceMapContains (msp.msAllocmap (txgSlot (sub64 txg i))) offset size then
      return true
    else
      allocmapsContain msp offset size txg rest

/-- `metaslab_free_dva` without `now`. -/
def metaslabFreeLater (offset size txg : ℕ) :
    Except Halt Metaslab := do
  let freemap ← spaceMapAdd zfsRecover (msp.msFreemap (txgSlot txg)) offset size
  let msp := (msp.dirtyFirst (msp.msFreemap (txgSlot txg)) txg).setFreemap txg freemap
  if msp.msMap.smLoaded then
    if ← spaceMapContains msp.msMap offset size then
      if (← allocmapsContain msp offset size txg (List.range txgConcurrentStates)) ∨ zfsRecover then
        return msp
      else
        .error .panic
    else
      return msp
  else
    return msp

/-- The object that `metaslab_sync` allocates when there is none yet. -/
def syncObject (number : ℕ) (msp : Metaslab) : Metaslab :=
  if msp.msSmoSyncing.smoObject = 0 then
    { msp with msSmoSyncing := { msp.msSmoSyncing with smoObject := number } }
  else
    msp

/-- `metaslab_sync`: what was freed is collected in the clean free map. -/
def syncWalk (txg : ℕ) (msp : Metaslab) : Except Halt Metaslab := do
  let freedMap ← spaceMapWalk (spaceMapAdd zfsRecover) (msp.msFreemap (txgSlot txg))
    (msp.msFreemap (txgSlot (txgClean txg)))
  return msp.setFreemap (txgClean txg) freedMap

/-- `metaslab_sync`: is it time to condense the object? -/
def Metaslab.Condenses (syncPass : ℕ) : Prop :=
  msp.msMap.smLoaded ∧ syncPass = 1 ∧
    2 * 8 * msp.msMap.smRoot.toList.length ≤ msp.msSmoSyncing.smoObjsize

instance (msp : Metaslab) (syncPass : ℕ) : Decidable (msp.Condenses syncPass) :=
  inferInstanceAs (Decidable (_ ∧ _))

/-- Take the alloc maps of the next transaction groups out of a map. -/
def removeFuture (zfsRecover : Bool) (txg : ℕ) (msp : Metaslab) :
    List ℕ → SpaceMap → Except Halt SpaceMap
  | [], allocmap => .ok allocmap
  | t :: rest, allocmap => do
    let allocmap ← spaceMapWalk (spaceMapRemove zfsRecover)
      (msp.msAllocmap (txgSlot (txg + t))) allocmap
    removeFuture zfsRecover txg msp rest allocmap

/-- `metaslab_sync`: a pure alloc map from first principles. -/
def syncCondense (txg : ℕ) (msp : Metaslab) : Except Halt Metaslab := do
  let allocmap := spaceMapEmpty (msp.msAllocmap (txgSlot txg))
  let freemap := spaceMapEmpty (msp.msFreemap (txgSlot txg))
  let msp := msp.setFreemap txg freemap
  let allocmap ← spaceMapAdd zfsRecover allocmap allocmap.smStart allocmap.smSize
  let allocmap ← spaceMapWalk (spaceMapRemove zfsRecover) msp.msMap allocmap
  let allocmap ← spaceMapWalk (spaceMapRemove zfsRecover)
    (msp.msFreemap (txgSlot (txgClean txg))) allocmap
  let allocmap ← removeFuture zfsRecover txg msp (List.range' 1 (txgConcurrentStates - 1)) allocmap
  return msp.setAllocmap txg allocmap

/-- The map of a transaction group that `metaslab_sync` appends to the object. -/
def Metaslab.txgMap (msp : Metaslab) (txg : ℕ) : MapType → SpaceMap
  | .alloc => msp.msAllocmap (txgSlot txg)
  | .free => msp.msFreemap (txgSlot txg)

/-- The map of a transaction group is taken apart. -/
def Metaslab.emptyTxgMap (msp : Metaslab) (txg : ℕ) : MapType → Metaslab
  | .alloc => msp.setAllocmap txg (spaceMapEmpty (msp.msAllocmap (txgSlot txg)))
  | .free => msp.setFreemap txg (spaceMapEmpty (msp.msFreemap (txgSlot txg)))

/-- `space_map_unload` on the in-core map. -/
def spaceMapUnload : Metaslab :=
  { msp with msMap := { spaceMapEmpty msp.msMap with smLoaded := false }, smPpd := none }

/-- `metaslab_sync_done`: the maps of a new metaslab. -/
def syncDoneCreate (txg : ℕ) (msp : Metaslab) : Metaslab :=
  if (msp.msFreemap (txgSlot (txgClean txg))).smSize = 0 then
    let sm := msp.msMap
    { msp with
      msAllocmap := fun _ => spaceMapCreate sm.smStart sm.smSize sm.smShift
      msFreemap := fun _ => spaceMapCreate sm.smStart sm.smSize sm.smShift }
  else
    msp

/-- `metaslab_sync_done`: evict the map when nothing is allocated soon. -/
def syncDoneEvict (txg : ℕ) (msp : Metaslab) : Metaslab :=
  if msp.msMap.smLoaded ∧ ¬msp.Active ∧ (List.range' 1 (txgConcurrentStates - 1)).all
      fun t => (msp.msAllocmap (txgSlot (txg + t))).smSpace = 0 then
    spaceMapUnload msp
  else
    msp

/-- `metaslab_sync_done`: a loaded map gets back what has been freed. -/
def syncDoneReturn (txg : ℕ) (msp : Metaslab) : Except Halt SpaceMap :=
  if msp.msMap.smLoaded then
    applyFunc (spaceMapAdd zfsRecover) msp.msMap
      (msp.msFreemap (txgSlot (txgClean txg))).smRoot.postorder
  else
    .ok msp.msMap

/-- `metaslab_sync_done`: the freed map is empty, the object is synced. -/
def syncDoneVacate (txg : ℕ) (sm : SpaceMap) (msp : Metaslab) : Metaslab :=
  { msp.setFreemap (txgClean txg) (spaceMapEmpty (msp.msFreemap (txgSlot (txgClean txg)))) with
    msMap := sm
    msSmo := msp.msSmoSyncing }

/-- `metaslab_sync_done`, when no load is in progress. -/
def metaslabSyncDone (vd : Vdev) (txg : ℕ) (msp : Metaslab) :
    Except Halt Metaslab := do
  let msp := syncDoneCreate txg msp
  let sm ← syncDoneReturn zfsRecover txg msp
  let msp := syncDoneEvict txg (syncDoneVacate txg sm msp)
  return metaslabGroupSort msp (metaslabWeight vd msp)

/-- `metaslab_init`, up to `metaslab_sync_done` and `vdev_dirty`. -/
def metaslabInit (smo : SpaceMapObj) (start size shift : ℕ) : Metaslab where
  msSmo := ⟨0, 0, 0⟩
  msSmoSyncing := smo
  msAllocmap := fun _ => spaceMapCreate 0 0 0
  msFreemap := fun _ => spaceMapCreate 0 0 0
  msMap := spaceMapCreate start size shift
  smPpd := none
  msWeight := 0
  msTxgNode := fun _ => false

end Zfs
