import Zfs.Library.CrashDisk
import Zfs.Machine

/-!
# Labels and uberblocks

`vdev_config_sync` writes the even labels, the uberblocks and the odd labels of a transaction group,
and flushes the disks after each of the three; a write that fails may have left anything.  After a
crash `vdev_uberblock_load` chooses the newest uberblock.
-/

namespace Zfs

open CrashDisk

/-- `uberblock_t`; of the root block only its birth is used here. -/
structure Uberblock where
  ubMagic : ℕ
  /-- The transaction group. -/
  ubTxg : ℕ
  /-- The sum of all guids. -/
  ubGuidSum : ℕ
  ubTimestamp : ℕ
  /-- The birth of the root block. -/
  ubRootbpBirth : ℕ
  deriving DecidableEq

def uberblockMagic : ℕ := 0x00bab10c

/-- `uberblock_verify`, for uberblocks in the byte order of the host. -/
def uberblockVerify (ub : Uberblock) : ℕ := if ub.ubMagic ≠ uberblockMagic then einval else 0

/-- `uberblock_update`: the uberblock, and whether anything changed. -/
def uberblockUpdate (ub : Uberblock) (guidSum now txg : ℕ) : Uberblock × Bool :=
  ({ ub with
      ubMagic := uberblockMagic
      ubTxg := txg
      ubGuidSum := guidSum
      ubTimestamp := now }, ub.ubRootbpBirth == txg)

def vdevUberblockCompare (ub1 ub2 : Uberblock) : ℤ :=
  if ub1.ubTxg < ub2.ubTxg then -1
  else if ub2.ubTxg < ub1.ubTxg then 1
  else if ub1.ubTimestamp < ub2.ubTimestamp then -1
  else if ub2.ubTimestamp < ub1.ubTimestamp then 1
  else 0

/-- A tree of vdevs. -/
inductive LabelVdev where
  | leaf (guid : ℕ) (dead : Bool)
  | interior (children : List LabelVdev)

mutual

/-- The live leaves that the recursions over the tree reach. -/
def LabelVdev.liveLeaves : LabelVdev → List ℕ
  | .leaf guid dead => if dead then [] else [guid]
  | .interior children => LabelVdev.liveLeavesOf children

/-- The live leaves of the children of a vdev. -/
def LabelVdev.liveLeavesOf : List LabelVdev → List ℕ
  | [] => []
  | vd :: rest => vd.liveLeaves ++ LabelVdev.liveLeavesOf rest

end

/-- A top-level vdev. -/
structure TopVdev where
  /-- The vdevs below. -/
  tree : LabelVdev
  /-- The logarithm of the sector size. -/
  vdevAshift : ℕ
  /-- `vdev_ms_array`: it is 0 while the vdev is not visible yet. -/
  vdevMsArray : ℕ
  /-- Whether it is a log device. -/
  vdevIslog : Bool
  /-- `vdev_aux != NULL`. -/
  vdevAux : Bool
  /-- A sector fits into the ring. -/
  ashift_le : vdevAshift ≤ 17

/-- A place in the labels of a leaf. -/
inductive LabelLoc where
  | uberblock (guid : ℕ) (l : Fin 4) (n : ℕ)
  | label (guid : ℕ) (l : Fin 4)
  deriving DecidableEq

/-- What such a place holds. -/
inductive LabelBlock where
  | uberblock (ub : Uberblock)
  | label (txg : ℕ)
  | torn
  deriving DecidableEq

/-- The labels of all leaves. -/
abbrev LabelDisk := LabelLoc → LabelBlock

def vdevUberblockCount (ashift : ℕ) : ℕ := (128 <<< 10) >>> max ashift 10

/-- The slot of an uberblock in the ring. -/
def uberblockSlot (ashift : ℕ) (ub : Uberblock) : ℕ := ub.ubTxg &&& (vdevUberblockCount ashift - 1)

/-- The writes of `vdev_uberblock_sync`. -/
def vdevUberblockSync (ub : Uberblock) (vd : TopVdev) : List LabelLoc :=
  vd.tree.liveLeaves.flatMap fun guid =>
    (List.finRange 4).map fun l => .uberblock guid l (uberblockSlot vd.vdevAshift ub)

/-- The even or the odd labels. -/
def labelsOf (odd : Bool) : List (Fin 4) := if odd then [1, 3] else [0, 2]

/-- The writes of `vdev_label_sync`; none if `nvlist_pack` fails. -/
def vdevLabelSync (packs : ℕ → Bool) (odd : Bool) (vd : TopVdev) : List LabelLoc :=
  vd.tree.liveLeaves.flatMap fun guid =>
    if packs guid then (labelsOf odd).map (.label guid) else []

/-- What a call of `vdev_config_sync` works on. -/
structure ConfigSync where
  /-- The children of `spa_root_vdev`. -/
  rvd : List TopVdev
  /-- `spa_dirty_list`. -/
  dirty : List TopVdev
  /-- Where the uberblock is written. -/
  svd : List TopVdev
  /-- The uberblock, already updated to the transaction group. -/
  ub : Uberblock
  /-- The leaves whose label `nvlist_pack` can pack. -/
  packs : ℕ → Bool
  /-- Dirty vdevs are vdevs of the pool. -/
  dirty_sub : ∀ vd ∈ dirty, vd ∈ rvd
  svd_sub : ∀ vd ∈ svd, vd ∈ rvd

/-- Where `vdev_config_sync` is. -/
inductive SyncPhase where
  | evenLabels
  | uberblocks
  | allUberblocks
  | oddLabels
  | done
  deriving DecidableEq

section Phases

variable (sync : ConfigSync)

/-- The writes of a phase. -/
def ConfigSync.locs : SyncPhase → List LabelLoc
  | .evenLabels => sync.dirty.flatMap (vdevLabelSync sync.packs false)
  | .uberblocks => sync.svd.flatMap (vdevUberblockSync sync.ub)
  | .allUberblocks => sync.rvd.flatMap (vdevUberblockSync sync.ub)
  | .oddLabels => sync.dirty.flatMap (vdevLabelSync sync.packs true)
  | .done => []

/-- What a phase writes. -/
def ConfigSync.block : SyncPhase → LabelBlock
  | .evenLabels | .oddLabels | .done => .label sync.ub.ubTxg
  | .uberblocks | .allUberblocks => .uberblock sync.ub

/-- What `vdev_label_sync_list` returns. -/
def vdevLabelSyncList (odd : Bool) (outcome : LabelLoc → Outcome) : ℕ :=
  if sync.dirty.any fun vd => !(vd.vdevIslog || vd.vdevAux) &&
      !(vdevLabelSync sync.packs odd vd).any fun loc => outcome loc = .good
  then eio else 0

/-- What `vdev_uberblock_sync_list` returns. -/
def vdevUberblockSyncList (svd : List TopVdev) (outcome : LabelLoc → Outcome) : ℕ :=
  if svd.any fun vd => vd.vdevMsArray ≠ 0 &&
      (vdevUberblockSync sync.ub vd).any fun loc => outcome loc = .good
  then 0 else eio

/-- What comes after a phase. -/
def ConfigSync.next (outcome : LabelLoc → Outcome) : SyncPhase → SyncPhase
  | .evenLabels => if vdevLabelSyncList sync false outcome ≠ 0 then .evenLabels else .uberblocks
  | .uberblocks =>
    if vdevUberblockSyncList sync sync.svd outcome ≠ 0 then .allUberblocks else .oddLabels
  | .allUberblocks =>
    if vdevUberblockSyncList sync sync.rvd outcome ≠ 0 then .allUberblocks else .oddLabels
  | .oddLabels => if vdevLabelSyncList sync true outcome ≠ 0 then .oddLabels else .done
  | .done => .done

/-- The disks between two phases of `vdev_config_sync`. -/
structure LabelSyncState where
  /-- The contents of the labels. -/
  disk : LabelDisk
  /-- The next phase. -/
  phase : SyncPhase

/-- A phase of `vdev_config_sync` with the flush at its end. -/
def ConfigSync.step (state : LabelSyncState) (outcome : LabelLoc → Outcome) : LabelSyncState where
  disk := settle .torn state.disk (sync.locs state.phase) (sync.block state.phase)
    fun loc => (outcome loc).fate
  phase := sync.next outcome state.phase

/-- The phases of `vdev_config_sync` up to some point. -/
def ConfigSync.run (disk : LabelDisk) (outcomes : List (LabelLoc → Outcome)) : LabelSyncState :=
  outcomes.foldl sync.step ⟨disk, .evenLabels⟩

/-- The disks after a crash in the current phase. -/
def ConfigSync.crash (state : LabelSyncState) (fate : LabelLoc → Fate) : LabelDisk :=
  settle .torn state.disk (sync.locs state.phase) (sync.block state.phase) fate

end Phases

/-- The reads of `vdev_uberblock_load`. -/
def vdevUberblockReads (rvd : List TopVdev) : List LabelLoc :=
  rvd.flatMap fun vd => vd.tree.liveLeaves.flatMap fun guid =>
    (List.finRange 4).flatMap fun l =>
      (List.range (vdevUberblockCount vd.vdevAshift)).map fun n => .uberblock guid l n

/-- `vdev_uberblock_load_done`; a torn block fails its checksum. -/
def vdevUberblockLoadDone (ubbest : Uberblock) : LabelBlock → Uberblock
  | .uberblock ub =>
    if uberblockVerify ub = 0 ∧ vdevUberblockCompare ub ubbest > 0 then ub else ubbest
  | _ => ubbest

/-- `vdev_uberblock_load`, with its reads as they complete. -/
def vdevUberblockLoad (disk : LabelDisk) (order : List LabelLoc) : Uberblock :=
  order.foldl (fun ubbest loc => vdevUberblockLoadDone ubbest (disk loc)) ⟨0, 0, 0, 0, 0⟩

/-- What a call of `spa_sync` finds and does. -/
structure SpaSync where
  /-- The top-level vdevs. -/
  rvd : List TopVdev
  /-- Those with a changed configuration. -/
  dirty : List TopVdev
  /-- The transaction group. -/
  txg : ℕ
  /-- The birth of the root block after the pool has been synced. -/
  birth : ℕ
  guidSum : ℕ
  now : ℕ
  /-- `spa_get_random(children)`. -/
  c0 : ℕ
  /-- `spa_freeze_txg`. -/
  freezeTxg : ℕ
  /-- Whether the configuration fits into the label of a leaf. -/
  packs : ℕ → Bool
  /-- How the writes of the phases end. -/
  outcomes : List (LabelLoc → Outcome)
  dirty_sub : ∀ vd ∈ dirty, vd ∈ rvd

variable (call : SpaSync)

/-- The top-level vdevs to which `spa_sync` writes the uberblock. -/
def SpaSync.svd : List TopVdev :=
  if call.dirty.isEmpty then
    ((call.rvd.rotate call.c0).filter fun vd => !(vd.vdevMsArray == 0 || vd.vdevIslog)).take 3
  else
    call.rvd

theorem SpaSync.svd_sub : ∀ vd ∈ call.svd, vd ∈ call.rvd := by
  intro vd member
  rw [svd] at member
  split_ifs at member
  · exact List.mem_rotate.mp (List.mem_of_mem_filter (List.mem_of_mem_take member))
  · exact member

/-- The pool as `spa_sync` leaves it. -/
structure SpaState where
  /-- `spa_uberblock`. -/
  ub : Uberblock
  disk : LabelDisk

/-- The uberblock of `vdev_config_sync`, and whether to do nothing. -/
def SpaSync.update (ub : Uberblock) : Uberblock × Bool :=
  let ub := { ub with ubRootbpBirth := call.birth }
  if ub.ubTxg < call.txg then
    let (ub, changed) := uberblockUpdate ub call.guidSum call.now call.txg
    (ub, !changed && call.dirty.isEmpty)
  else
    (ub, false)

/-- The call of `vdev_config_sync`. -/
def SpaSync.config (ub : Uberblock) : ConfigSync where
  rvd := call.rvd
  dirty := call.dirty
  svd := call.svd
  ub := ub
  packs := call.packs
  dirty_sub := call.dirty_sub
  svd_sub := call.svd_sub

/-- Whether `vdev_config_sync` writes an uberblock. -/
def SpaSync.writes (ub : Uberblock) : Bool :=
  !((call.update ub).2 || decide (call.freezeTxg < call.txg))

/-- `spa_sync`, as far as the labels are concerned. -/
def spaSync (state : SpaState) (call : SpaSync) : SpaState :=
  let ub := (call.update state.ub).1
  if call.writes state.ub then
    ⟨ub, ((call.config ub).run state.disk call.outcomes).disk⟩
  else
    ⟨ub, state.disk⟩

end Zfs
