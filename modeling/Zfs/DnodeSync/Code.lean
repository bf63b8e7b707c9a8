import Mathlib
import Zfs.Machine
import Zfs.Dnode.Code

/-!
# Freeing a range of blocks

`dnode_sync_free_range` kills the blocks of a range and goes up the tree of block pointers: an
indirect block is killed when the recursion into it reports that nothing is left below.  The block
pointers are given by level and number of the block they point to.
-/

namespace Zfs

def devBshift : ℕ := 9

/-- The fields of a block pointer that freeing reads. -/
structure FreeBlkptr where
  /-- The group of its birth. -/
  blkBirth : ℕ
  /-- What `bp_get_dasize` returns. -/
  dasize : ℕ
  deriving DecidableEq

namespace FreeBlkptr

/-- A block pointer after `bzero`. -/
def zero : FreeBlkptr := ⟨0, 0⟩

def bpIsHole (bp : FreeBlkptr) : Bool := bp.blkBirth == 0

end FreeBlkptr

/-- The fields that freeing reads, and what it has killed. -/
structure SyncDnode where
  dnNlevels : ℕ
  /-- The number of pointers in the dnode. -/
  dnNblkptr : ℕ
  /-- The logarithm of the size of an indirect block. -/
  dnIndblkshift : ℕ
  /-- The last block. -/
  dnMaxblkid : ℕ
  /-- The space used, in bytes or in sectors. -/
  dnUsed : ℕ
  /-- `DNODE_FLAG_USED_BYTES`. -/
  usedBytesFlag : Bool
  /-- The version of the pool is at least `SPA_VERSION_DNODE_BYTES`. -/
  dnodeBytes : Bool
  /-- The pointer to a block, by the level and the number of the block. -/
  blkptr : ℕ → ℕ → FreeBlkptr
  /-- The blocks passed to `dsl_dataset_block_kill`, by level and number. -/
  killed : List (ℕ × ℕ)

/-- The part of an indirect block that a range covers. -/
structure FreeSpan where
  /-- The first child. -/
  start : ℕ
  /-- The last child. -/
  last : ℕ
  /-- Whether these are all children. -/
  all : Bool

namespace SyncDnode

variable (dn : SyncDnode)

/-- The shift of the number of pointers in an indirect block. -/
def epbs : ℕ := dn.dnIndblkshift - spaBlkptrshift

def dnUsedBytes : ℕ := if dn.usedBytesFlag then dn.dnUsed else dn.dnUsed <<< devBshift

/-- `dnode_diduse_space` of a negative number of bytes. -/
def dnodeDiduseSpace (bytesfreed : ℕ) : SyncDnode :=
  let space := sub64 dn.dnUsedBytes bytesfreed
  if dn.dnodeBytes then { dn with dnUsed := space, usedBytesFlag := true }
  else { dn with dnUsed := space >>> devBshift }

/-- `dsl_dataset_block_kill` and the `bzero` of the pointer. -/
def killBlock (level blkid : ℕ) : SyncDnode :=
  { dn with
    blkptr := Function.update dn.blkptr level
      (Function.update (dn.blkptr level) blkid FreeBlkptr.zero)
    killed := dn.killed ++ [(level, blkid)] }

/-- The loop of `free_blocks`: bytes, number of blocks and dnode. -/
def freeBlocksLoop (level : ℕ) : (num blkid : ℕ) → ℕ × ℕ × SyncDnode → ℕ × ℕ × SyncDnode
  | 0, _, result => result
  | num + 1, blkid, (bytesfreed, blocksFreed, dn) =>
    if (dn.blkptr level blkid).bpIsHole then
      freeBlocksLoop level num (blkid + 1) (bytesfreed, blocksFreed, dn)
    else
      freeBlocksLoop level num (blkid + 1)
        (bytesfreed + (dn.blkptr level blkid).dasize, blocksFreed + 1, dn.killBlock level blkid)

/-- `free_blocks`: how many of some blocks of a level were freed. -/
def freeBlocks (level blkid num : ℕ) : ℕ × SyncDnode :=
  let (bytesfreed, blocksFreed, after) := freeBlocksLoop level num blkid (0, 0, dn)
  (blocksFreed, after.dnodeDiduseSpace bytesfreed)

/-- The loop over indirect blocks; `ALL` lets the block itself be freed. -/
def freeEach (free : ℕ → SyncDnode → ℤ × SyncDnode) (level : ℕ) :
    (left i : ℕ) → Bool → ℤ → SyncDnode → Bool × ℤ × SyncDnode
  | 0, _, all, blocksFreed, dn => (all, blocksFreed, dn)
  | left + 1, i, all, blocksFreed, dn =>
    if (dn.blkptr level i).bpIsHole then freeEach free level left (i + 1) all blocksFreed dn
    else
      let below := free i dn
      if below.1 = -1 then
        let freed := below.2.freeBlocks level i 1
        freeEach free level left (i + 1) all (blocksFreed + freed.1) freed.2
      else freeEach free level left (i + 1) false blocksFreed below.2

/-- The pointers that a range covers, and whether it leaves none. -/
def freeSpan (epbs blkid nblks : ℕ) (trunc : Bool) (dbLevel dbBlkid : ℕ) : FreeSpan :=
  let shift := (dbLevel - 1) * epbs
  let dbstart := (dbBlkid <<< epbs) % 2 ^ 64
  let dbend := sub64 ((dbBlkid + 1) <<< epbs) 1
  let start := blkid >>> shift
  let last := sub64 (add64 blkid nblks) 1 >>> shift
  { start := if dbstart < start then start else dbstart
    last := if dbend ≤ last then dbend else last
    all := decide (start ≤ dbstart) && (decide (dbend ≤ last) || trunc) }

/-- `free_children` of an indirect block: -1 stands for `ALL`. -/
def freeChildren (epbs blkid nblks : ℕ) (trunc : Bool) :
    (dbLevel dbBlkid : ℕ) → SyncDnode → ℤ × SyncDnode
  -- blocks of level 0 have no children
  | 0, _, dn => (0, dn)
  | 1, dbBlkid, dn =>
    let span := freeSpan epbs blkid nblks trunc 1 dbBlkid
    let freed := dn.freeBlocks 0 span.start (span.last + 1 - span.start)
    (if span.all then -1 else freed.1, freed.2)
  | level + 2, dbBlkid, dn =>
    let span := freeSpan epbs blkid nblks trunc (level + 2) dbBlkid
    let freed := freeEach (freeChildren epbs blkid nblks trunc (level + 1)) (level + 1)
      (span.last + 1 - span.start) span.start span.all 0 dn
    (if freed.1 then -1 else freed.2.1, freed.2.2)

/-- The new `dn_maxblkid` after a truncation. -/
def truncate (trunc : Bool) (blkid : ℕ) : SyncDnode :=
  if trunc then { dn with dnMaxblkid := if blkid = 0 then 0 else blkid - 1 } else dn

def dnodeSyncFreeRange (blkid nblks : ℕ) : SyncDnode :=
  if dn.dnMaxblkid < blkid then dn
  else
    let trunc := decide (dn.dnMaxblkid < add64 blkid nblks)
    let nblks := if trunc then dn.dnMaxblkid - blkid + 1 else nblks
    if dn.dnNlevels = 1 then
      if dn.dnNblkptr ≤ blkid then dn
      else (dn.freeBlocks 0 blkid nblks).2.truncate trunc blkid
    else
      let shift := (dn.dnNlevels - 1) * dn.epbs
      let start := blkid >>> shift
      let last := sub64 (add64 blkid nblks) 1 >>> shift
      let freed := freeEach (freeChildren dn.epbs blkid nblks trunc (dn.dnNlevels - 1))
        (dn.dnNlevels - 1) (last + 1 - start) start true 0 dn
      freed.2.2.truncate trunc blkid

/-- The loop of `dnode_sync` over the freed ranges. -/
def dnodeSyncFreeRanges (ranges : List (ℕ × ℕ)) : SyncDnode :=
  ranges.foldl (fun dn range => dn.dnodeSyncFreeRange range.1 range.2) dn

end SyncDnode

end Zfs
