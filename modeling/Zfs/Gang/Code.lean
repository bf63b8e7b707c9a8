import Zfs.Machine
import Zfs.Library.KeyedWrites

/-!
# Gang blocks

When no region is large enough for a block, `zio_write_allocate_gang_members` writes it in up to
three members, which may be gang blocks themselves, and a header.  Members have zios of their own,
so an answer of `metaslab_alloc` is known by the zio that asks and the number of its question.
-/

namespace Zfs

namespace Gang

def spaMinblocksize : ℕ := 512

def spaGangblocksize : ℕ := spaMinblocksize

/-- `SPA_GBH_NBLKPTRS`: pointers of 128 bytes, a tail of 40. -/
def spaGbhNblkptrs : ℕ := (spaGangblocksize - 40) / 128

/-- A vdev and an offset in it. -/
abbrev Address : Type := ℕ × ℕ

structure Dva where
  /-- The vdev and the offset. -/
  address : Address
  /-- The allocated size. -/
  asize : ℕ
  /-- Whether a gang header is there. -/
  gang : Bool
  deriving DecidableEq

/-- `blkptr_t`, with its valid DVAs. -/
structure BlkPtr where
  /-- The addresses. -/
  blkDva : List Dva
  psize : ℕ
  /-- The group of its birth. -/
  blkBirth : ℕ
  deriving DecidableEq

namespace BlkPtr

variable (bp : BlkPtr)

def isGang : Bool := bp.blkDva.head?.any (·.gang)

def isHole : Bool := bp.blkBirth == 0

/-- `zio_set_gang_verifier`: the first address and the birth. -/
def gangVerifier : Option Address × ℕ := (bp.blkDva.head?.map (·.address), bp.blkBirth)

/-- `zio_write_allocate_gang_member_done` for two lists of DVAs. -/
def addAsize : List Dva → List Dva → List Dva
  | pdva :: pdvas, cdva :: cdvas =>
    { pdva with asize := pdva.asize + cdva.asize } :: addAsize pdvas cdvas
  | pdvas, _ => pdvas

end BlkPtr

/-- `zio_gbh_phys_t` after `bzero`, with its first pointers set. -/
def zgBlkptr (gbps : List BlkPtr) : List BlkPtr :=
  gbps ++ List.replicate (spaGbhNblkptrs - gbps.length) ⟨[], 0, 0⟩

variable {α : Type}

/-- What a region holds: data, or a header with its verifier. -/
inductive Content (α : Type) where
  | data (bytes : List α)
  | header (verifier : Option Address × ℕ) (slots : List BlkPtr)

/-- What the regions of the pool hold. -/
abbrev Disk (α : Type) : Type := Address → Option (Content α)

/-- A call of `metaslab_alloc`. -/
structure Call where
  /-- The zio that makes it: the slots of the headers that lead to its block pointer. -/
  zio : List ℕ
  /-- The number of the call for its zio. -/
  number : ℕ
  /-- The size asked for. -/
  psize : ℕ
  /-- The number of copies asked for. -/
  ndvas : ℕ
  deriving DecidableEq

/-- The allocator gives every call regions of its own or none. -/
structure Spa where
  /-- The allocated size of a size on a vdev. -/
  vdevPsizeToAsize : ℕ → ℕ → ℕ
  /-- The largest number of copies. -/
  spaMaxReplication : ℕ
  /-- `metaslab_alloc`: the addresses, or `ENOSPC`. -/
  metaslabAlloc : Call → Option (List Address)
  /-- A call is given all its copies. -/
  length_alloc : ∀ {call addresses}, metaslabAlloc call = some addresses →
    addresses.length = call.ndvas
  /-- No region is given twice. -/
  nodup_alloc : ∀ {call addresses}, metaslabAlloc call = some addresses → addresses.Nodup
  /-- Two calls are given different regions. -/
  disjoint_alloc : ∀ {call other addresses others}, metaslabAlloc call = some addresses →
    metaslabAlloc other = some others → (call.zio, call.number) ≠ (other.zio, other.number) →
    addresses.Disjoint others

/-- An allocated region. -/
structure Region where
  address : Address
  asize : ℕ
  deriving DecidableEq

namespace Spa

variable (spa : Spa)

/-- The DVAs that `metaslab_alloc` sets. -/
def dvas (psize : ℕ) (addresses : List Address) : List Dva :=
  addresses.map fun address => ⟨address, spa.vdevPsizeToAsize address.1 psize, false⟩

/-- The regions that a call allocates. -/
def allocated (call : Call) : List Region :=
  ((spa.metaslabAlloc call).getD []).map fun address =>
    ⟨address, spa.vdevPsizeToAsize address.1 call.psize⟩

end Spa

/-- What the zios of a write have in common. -/
structure ZioProps (spa : Spa) where
  /-- The transaction group. -/
  ioTxg : ℕ
  /-- The number of copies. -/
  ioNdvas : ℕ
  /-- The transaction group is not the initial one. -/
  txg_pos : 0 < ioTxg
  /-- There is a copy. -/
  ndvas_pos : 0 < ioNdvas
  /-- The pool permits as many copies. -/
  ndvas_le : ioNdvas ≤ spa.spaMaxReplication

/-- A zio when it is done, with the calls and writes of its children. -/
structure Zio (α : Type) where
  ioBp : BlkPtr
  ioError : ℕ
  /-- The calls of the allocator. -/
  calls : List Call
  /-- The writes to the disks. -/
  writes : List (Address × Content α)

/-- What the loop over the gang members has made of the block. -/
structure Members (α : Type) where
  gbps : List BlkPtr
  ioError : ℕ
  calls : List Call
  writes : List (Address × Content α)

/-- How the inner loop ends. -/
inductive Answer where
  | allocated (addresses : List Address)
  | enospc
  | split

namespace ZioProps

variable {spa : Spa} (props : ZioProps spa)

/-- The inner loop of `zio_write_allocate_gang_members`. -/
def allocateMember (zio : List ℕ) (resid gbpsLeft : ℕ) :
    (fuel maxalloc number : ℕ) → Except Halt (Answer × ℕ × List Call)
  | 0, _, _ => .error .fuel
  | fuel + 1, maxalloc, number =>
    if resid ≤ maxalloc * gbpsLeft then
      let call : Call := ⟨zio, number, maxalloc, props.ioNdvas⟩
      match spa.metaslabAlloc call with
      | some addresses => .ok (.allocated addresses, maxalloc, [call])
      | none =>
        if maxalloc = spaMinblocksize then .ok (.enospc, maxalloc, [call])
        else do
          let (answer, maxalloc, calls) ← allocateMember zio resid gbpsLeft fuel
            (p2roundup (maxalloc >>> 1) spaMinblocksize) (number + 1)
          return (answer, maxalloc, call :: calls)
    else .ok (.split, maxalloc, [])

/-- The loop of `zio_write_allocate_gang_members`; a member that becomes a gang block is `nested`.
-/
def writeMembers (nested : List ℕ → List α → Except Halt (Zio α)) (zio : List ℕ) :
    (gbpsLeft maxalloc number : ℕ) → List α → Except Halt (Members α)
  | gbpsLeft, maxalloc, number, ioData =>
    let resid := ioData.length
    if resid = 0 then .ok ⟨[], 0, [], []⟩
    else
      match gbpsLeft with
      | 0 => .error .panic
      | left + 1 => do
        let (answer, maxalloc, calls) ←
          props.allocateMember zio resid (left + 1) (min maxalloc resid + 1) (min maxalloc resid)
            number
        match answer with
        | .allocated addresses =>
          let lsize := maxalloc
          let gbp : BlkPtr := ⟨spa.dvas lsize addresses, lsize, props.ioTxg⟩
          let rest ← writeMembers nested zio left maxalloc (number + calls.length)
            (ioData.drop lsize)
          return ⟨gbp :: rest.gbps, rest.ioError, calls ++ rest.calls,
            addresses.map (·, .data (ioData.take lsize)) ++ rest.writes⟩
        | .enospc => return ⟨[], enospc, calls, []⟩
        | .split =>
          let lsize := p2roundup (resid / (left + 1)) spaMinblocksize
          let child ← nested (zio ++ [spaGbhNblkptrs - (left + 1)]) (ioData.take lsize)
          let rest ← writeMembers nested zio left maxalloc (number + calls.length)
            (ioData.drop lsize)
          -- The error of a child reaches its parent when the child is done.
          return ⟨child.ioBp :: rest.gbps,
            if rest.ioError ≠ 0 then rest.ioError else child.ioError,
            calls ++ child.calls ++ rest.calls, child.writes ++ rest.writes⟩

/-- `zio_write_allocate_gang_members`.  The header is written when the members are done, unless
there is an error. -/
def zioWriteAllocateGangMembers (nested : List ℕ → List α → Except Halt (Zio α)) (zio : List ℕ)
    (ioData : List α) : Except Halt (Zio α) := do
  let gbhNdvas := min (props.ioNdvas + 1) spa.spaMaxReplication
  let call : Call := ⟨zio, 1, spaGangblocksize, gbhNdvas⟩
  match spa.metaslabAlloc call with
  | none => return ⟨⟨[], ioData.length, 0⟩, enospc, [call], []⟩
  | some addresses =>
    let gangDvas := (spa.dvas spaGangblocksize addresses).map fun dva => { dva with gang := true }
    let members ← props.writeMembers nested zio spaGbhNblkptrs
      (p2roundup (ioData.length >>> 1) spaMinblocksize) 2 ioData
    let bp : BlkPtr := ⟨(members.gbps.map (·.blkDva)).foldl BlkPtr.addAsize gangDvas,
      ioData.length, props.ioTxg⟩
    let header := addresses.map (·, .header bp.gangVerifier (zgBlkptr members.gbps))
    return ⟨bp, members.ioError, call :: members.calls,
      members.writes ++ if members.ioError = 0 then header else []⟩

/-- `zio_dva_allocate`, with the write of the block afterwards. -/
def zioDvaAllocate : (fuel : ℕ) → (zio : List ℕ) → List α → Except Halt (Zio α)
  | 0, _, _ => .error .fuel
  | fuel + 1, zio, ioData => do
    let call : Call := ⟨zio, 0, ioData.length, props.ioNdvas⟩
    match spa.metaslabAlloc call with
    | some addresses =>
      return ⟨⟨spa.dvas ioData.length addresses, ioData.length, props.ioTxg⟩, 0, [call],
        addresses.map (·, .data ioData)⟩
    | none =>
      if spaMinblocksize < ioData.length then
        let gang ← props.zioWriteAllocateGangMembers (zioDvaAllocate fuel) zio ioData
        return { gang with calls := call :: gang.calls }
      else return ⟨⟨[], ioData.length, 0⟩, enospc, [call], []⟩

end ZioProps

section Read

variable (disk : Disk α) (copy : BlkPtr → ℕ)

/-- The header of a gang block, from one of its copies. -/
def zioGetGangHeader (bp : BlkPtr) : Option (List BlkPtr) :=
  match bp.blkDva[copy bp]?.bind fun dva => disk dva.address with
  | some (.header verifier slots) => if verifier = bp.gangVerifier then some slots else none
  | _ => none

/-- The loop of `zio_read_gang_members`. -/
def zioReadGangMembers (read : BlkPtr → Option (List α)) : (left : ℕ) → List BlkPtr →
    Option (List α)
  | 0, _ => some []
  | _ + 1, [] => none
  | left + 1, gbp :: slots => do
    let bytes ← read gbp
    let rest ← zioReadGangMembers read (left + 1 - gbp.psize) slots
    return bytes ++ rest

/-- `zio_read` of a block, from one of its copies. -/
def zioRead : (fuel : ℕ) → BlkPtr → Option (List α)
  | 0, _ => none
  | fuel + 1, bp =>
    if bp.isGang then do
      let slots ← zioGetGangHeader disk copy bp
      zioReadGangMembers (zioRead fuel) bp.psize slots
    else
      match bp.blkDva[copy bp]?.bind fun dva => disk dva.address with
      | some (.data bytes) => some bytes
      | _ => none

/-- `metaslab_free`: the regions of the DVAs. -/
def metaslabFree (spa : Spa) (bp : BlkPtr) : List Region :=
  bp.blkDva.map fun dva => ⟨dva.address,
    if dva.gang then spa.vdevPsizeToAsize dva.address.1 spaGangblocksize else dva.asize⟩

/-- `zio_free_gang_members`, with the freeing of a member. -/
def zioFreeGangMembers (free : BlkPtr → Option (List Region)) : List BlkPtr →
    Option (List Region)
  | [] => some []
  | gbp :: slots =>
    if gbp.isHole then zioFreeGangMembers free slots
    else do
      let regions ← free gbp
      let rest ← zioFreeGangMembers free slots
      return regions ++ rest

/-- `zio_free`: the regions that it frees. -/
def zioFree (spa : Spa) : (fuel : ℕ) → BlkPtr → Option (List Region)
  | 0, _ => none
  | fuel + 1, bp =>
    if bp.isGang then do
      let slots ← zioGetGangHeader disk copy bp
      let regions ← zioFreeGangMembers (zioFree spa fuel) slots
      return regions ++ metaslabFree spa bp
    else some (metaslabFree spa bp)

end Read

end Gang

end Zfs
