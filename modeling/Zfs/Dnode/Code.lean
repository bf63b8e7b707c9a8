import Zfs.Machine

/-!
# The search in the block tree of an object

`dnode_next_offset` climbs from a level of the tree until an indirect block points to what it looks
for, and goes down to it again.  The state of the tree is what the holds and reads of the indirect
blocks return.
-/

namespace Zfs

def spaBlkptrshift : ℕ := 7

def dnodeShift : ℕ := 9

/-- The fields of a block pointer that the search reads. -/
structure TreeBlkptr where
  /-- The number of blocks or dnodes below. -/
  blkFill : ℕ
  /-- The group of its birth. -/
  blkBirth : ℕ

/-- The fields of a `dnode_phys_t` that the search reads. -/
structure DnodeSlot where
  /-- The type of the object. -/
  dnType : ℕ
  /-- The births of its block pointers. -/
  births : List ℕ

/-- The tree of an object as the search finds it. -/
structure DnodePhys where
  dnNlevels : ℕ
  /-- The number of pointers in the dnode. -/
  dnNblkptr : ℕ
  /-- The pointer to a block, by the level and the number of the block. -/
  blkptr : ℕ → ℕ → TreeBlkptr
  /-- The dnodes of a block of the meta-dnode. -/
  slot : ℕ → ℕ → DnodeSlot
  /-- What `dbuf_hold_impl` returns for an indirect block. -/
  dbufHold : ℕ → ℕ → ℕ
  /-- What `dbuf_read` returns for an indirect block. -/
  dbufRead : ℕ → ℕ → ℕ

/-- `dnode_t`: the shape of an object. -/
structure Dnode where
  /-- The size of a data block. -/
  dnDatablksz : ℕ
  /-- Its logarithm, or zero for one odd block. -/
  dnDatablkshift : ℕ
  /-- The logarithm of the size of an indirect block. -/
  dnIndblkshift : ℕ
  /-- The last block. -/
  dnMaxblkid : ℕ
  /-- A block is not empty. -/
  datablksz_pos : 0 < dnDatablksz
  /-- The size is the power of the shift. -/
  datablksz_eq : dnDatablkshift ≠ 0 → dnDatablksz = 2 ^ dnDatablkshift
  /-- A block of odd size is the only one. -/
  maxblkid_eq : dnDatablkshift = 0 → dnMaxblkid = 0

/-- The flags `DNODE_FIND_HOLE` and `DNODE_FIND_BACKWARDS`. -/
structure FindFlags where
  hole : Bool
  backwards : Bool

namespace FindFlags

variable (flags : FindFlags)

/-- The offset one entry on in an indirect block. -/
def skipEntry (span offset : ℕ) : ℕ :=
  if flags.backwards then
    if offset < 1 <<< span then 0 else offset - 1 <<< span
  else
    add64 offset (1 <<< span)

/-- The offset one slot on in a block of the meta-dnode. -/
def skipSlot (offset : ℕ) : ℕ :=
  if flags.backwards then sub64 offset (1 <<< dnodeShift) else add64 offset (1 <<< dnodeShift)

/-- The loop over the entries of a block, up to a match or the end. -/
def scan (found : ℕ → Bool) (skip : ℕ → ℕ) : (left i offset : ℕ) → ℕ × ℕ
  | 0, _, offset => (esrch, offset)
  | left + 1, i, offset =>
    if found i then (0, offset)
    else scan found skip left (if flags.backwards then i - 1 else i + 1) (skip offset)

/-- The loop from an index on, which may be beyond the entries. -/
def scanFrom (found : ℕ → Bool) (skip : ℕ → ℕ) (count i offset : ℕ) : ℕ × ℕ :=
  if i < count then
    flags.scan found skip (if flags.backwards then i + 1 else count - i) i offset
  else if i = count then (esrch, offset)
  else (0, offset)

/-- A slot is free or allocated, as looked for, with new contents. -/
def slotMatches (txg : ℕ) (slot : DnodeSlot) : Bool :=
  (slot.dnType == 0) == flags.hole && (txg == 0 || slot.births.any (txg < ·))

/-- A block pointer has room below it, or data born late enough. -/
def blkptrMatches (maxfill txg : ℕ) (bp : TreeBlkptr) : Bool :=
  if flags.hole then decide (bp.blkFill ≤ maxfill - 1)
  else decide (1 ≤ bp.blkFill) && decide (bp.blkFill ≤ maxfill) && decide (txg < bp.blkBirth)

end FindFlags

namespace Dnode

variable (dn : Dnode) (phys : DnodePhys) (flags : FindFlags)

/-- The shift of the number of pointers in an indirect block. -/
def epbs : ℕ := dn.dnIndblkshift - spaBlkptrshift

def dbufWhichblock (offset : ℕ) : ℕ :=
  if dn.dnDatablkshift = 0 then 0 else offset >>> dn.dnDatablkshift

/-- The loop over a block of the meta-dnode. -/
def scanSlots (blkid offset blkfill txg : ℕ) : ℕ × ℕ :=
  flags.scanFrom (fun i => flags.slotMatches txg (phys.slot blkid i)) flags.skipSlot blkfill
    (p2phase (offset >>> dnodeShift) blkfill) offset

/-- The loop of `dnode_next_offset_level` over `count` block pointers. -/
def scanBlkptrs (first count offset lvl blkfill txg : ℕ) : ℕ × ℕ :=
  let span := (lvl - 1) * dn.epbs + dn.dnDatablkshift
  let maxfill := blkfill <<< ((lvl - 1) * dn.epbs)
  flags.scanFrom (fun i => flags.blkptrMatches maxfill txg (phys.blkptr (lvl - 1) (first + i)))
    (flags.skipEntry span) count (p2phase (offset >>> span) (1 <<< dn.epbs)) offset

/-- `dnode_next_offset_level`: an error and an offset. -/
def dnodeNextOffsetLevel (offset lvl blkfill txg : ℕ) : ℕ × ℕ :=
  if lvl = phys.dnNlevels then
    if lvl = 0 then scanSlots phys flags 0 offset blkfill txg
    else dn.scanBlkptrs phys flags 0 phys.dnNblkptr offset lvl blkfill txg
  else
    let blkid := dn.dbufWhichblock offset >>> (dn.epbs * lvl)
    let error := phys.dbufHold lvl blkid
    if error ≠ 0 then
      -- A missing block is a hole; a search for data goes on in the parent.
      if error ≠ enoent then (error, offset)
      else if flags.hole then (0, offset)
      else (esrch, offset)
    else if phys.dbufRead lvl blkid ≠ 0 then (phys.dbufRead lvl blkid, offset)
    else if txg ≠ 0 ∧ (phys.blkptr lvl blkid).blkBirth ≤ txg then (esrch, offset)
    else if lvl = 0 then scanSlots phys flags blkid offset blkfill txg
    else
      dn.scanBlkptrs phys flags (blkid <<< dn.epbs) (1 <<< dn.epbs) offset lvl blkfill txg

/-- The first loop of `dnode_next_offset`: error, level and offset. -/
def climb (blkfill txg : ℕ) : (left lvl offset error : ℕ) → ℕ × ℕ × ℕ
  | 0, lvl, offset, error => (error, lvl, offset)
  | left + 1, lvl, offset, _ =>
    let level := dn.dnodeNextOffsetLevel phys flags offset lvl blkfill txg
    if level.1 ≠ esrch then (level.1, lvl, level.2)
    else climb blkfill txg left (lvl + 1) level.2 level.1

/-- The second loop of `dnode_next_offset`: down from a level. -/
def descend (minlvl blkfill txg : ℕ) : (lvl offset error : ℕ) → ℕ × ℕ
  | 0, offset, error => (error, offset)
  | lvl + 1, offset, error =>
    if error = 0 ∧ minlvl ≤ lvl then
      let level := dn.dnodeNextOffsetLevel phys flags offset lvl blkfill txg
      descend minlvl blkfill txg lvl level.2 level.1
    else (error, offset)

/-- `dnode_next_offset`: an error and an offset. -/
def dnodeNextOffset (offset minlvl blkfill txg : ℕ) : ℕ × ℕ :=
  if phys.dnNlevels = 0 then (esrch, offset)
  else if dn.dnDatablkshift = 0 then
    if offset < dn.dnDatablksz then (0, if flags.hole then dn.dnDatablksz else offset)
    else (esrch, offset)
  else
    let up := dn.climb phys flags blkfill txg (phys.dnNlevels + 1 - minlvl) minlvl offset 0
    let down := dn.descend phys flags minlvl blkfill txg up.2.1 up.2.2 up.1
    if down.1 = 0 ∧ (if flags.backwards then offset < down.2 else down.2 < offset) then
      (esrch, down.2)
    else down

end Dnode

end Zfs
