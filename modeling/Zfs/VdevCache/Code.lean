import Zfs.Library.DeviceHistory
import Zfs.Library.TransitionSystem
import Zfs.Machine

/-!
# The read-ahead cache of a device

`vdev_cache.c`.  The two trees of the lines are the list of the lines by offset.  Every function
holds `vc_lock`, so each call is a step.  A line that is allocated is filled by a read of the device
that is in flight until `vdev_cache_fill`.
-/

namespace Zfs

open DeviceHistory

def zfsVdevCacheMax : ℕ := 1 <<< 14

def zfsVdevCacheSize : ℕ := 10 <<< 20

def zfsVdevCacheBshift : ℕ := 16

def vcbs : ℕ := 1 <<< zfsVdevCacheBshift

def exdev : ℕ := 18

def enomem : ℕ := 12

def eoverflow : ℕ := 75

def estale : ℕ := 116

/-- What the cache reads of a `zio_t`, with signed 64-bit offsets. -/
structure VdevIo where
  ioOffset : ℕ
  ioSize : ℕ
  /-- `ZIO_FLAG_DONT_CACHE`. -/
  dontCache : Bool
  /-- The end is at most 2^63. -/
  bound : ioOffset + ioSize ≤ 2 ^ 63

/-- The read of the device that fills a line. -/
structure FillIo where
  /-- The reads that wait for the line, with their names. -/
  ioDelegateList : List (ℕ × VdevIo)
  issued : ℕ

structure VdevCacheEntry where
  /-- The offset of the line. -/
  veOffset : ℕ
  /-- When it was last used. -/
  veLastused : ℕ
  /-- Whether a write came while it was filled. -/
  veMissedUpdate : Bool
  /-- The read that fills it. -/
  veFillIo : Option FillIo
  /-- Its bytes. -/
  veData : ℕ → UInt8

/-- `vdev_cache_t`: the lines in the order of `vc_offset_tree`. -/
abbrev VdevCache := List VdevCacheEntry

/-- `vdev_cache_lastused_compare`. -/
def lastusedBefore (first second : VdevCacheEntry) : Bool :=
  first.veLastused < second.veLastused ||
    first.veLastused = second.veLastused && first.veOffset < second.veOffset

/-- `avl_first` of `vc_lastused_tree`. -/
def lastusedFirst : VdevCache → Option VdevCacheEntry
  | [] => none
  | ve :: vc =>
    match lastusedFirst vc with
    | none => some ve
    | some oldest => some (if lastusedBefore oldest ve then oldest else ve)

/-- `avl_find` in `vc_offset_tree`. -/
def offsetFind (vc : VdevCache) (offset : ℕ) : Option VdevCacheEntry :=
  vc.find? fun ve => ve.veOffset = offset

/-- `avl_add` to `vc_offset_tree`. -/
def offsetAdd (new : VdevCacheEntry) : VdevCache → VdevCache
  | [] => [new]
  | ve :: vc => if new.veOffset < ve.veOffset then new :: ve :: vc else ve :: offsetAdd new vc

/-- Change the line at an offset. -/
def atLine (offset : ℕ) (change : VdevCacheEntry → VdevCacheEntry) (vc : VdevCache) : VdevCache :=
  vc.map fun ve => if ve.veOffset = offset then change ve else ve

def vdevCacheEvict (ve : VdevCacheEntry) (vc : VdevCache) : VdevCache :=
  vc.filter fun other => other.veOffset ≠ ve.veOffset

/-- The oldest line leaves a full cache, unless in flight. -/
def evictOldest (vc : VdevCache) : Option VdevCache :=
  if zfsVdevCacheSize < vc.length <<< zfsVdevCacheBshift then
    match lastusedFirst vc with
    | none => some vc
    | some ve => if ve.veFillIo.isSome then none else some (vdevCacheEvict ve vc)
  else some vc

variable (state : CacheState) (io : VdevIo)

/-- `vdev_cache_allocate`, with the read that will fill the line. -/
def vdevCacheAllocate (fio : FillIo) (lbolt : ℕ) (vc : VdevCache) : Option VdevCache :=
  if zfsVdevCacheSize = 0 then none
  else (evictOldest vc).map fun vc =>
    offsetAdd ⟨p2align io.ioOffset vcbs, lbolt, false, some fio, fun _ => 0⟩ vc

/-- `vdev_cache_hit`: the line. -/
def vdevCacheHit (lbolt : ℕ) (ve : VdevCacheEntry) : VdevCacheEntry :=
  if ve.veLastused = lbolt then ve else { ve with veLastused := lbolt }

/-- `vdev_cache_hit`: the data that are copied from it. -/
def hitData (ve : VdevCacheEntry) (io : VdevIo) : ℕ → UInt8 :=
  fun i => ve.veData (p2phase io.ioOffset vcbs + i)

/-- `vdev_cache_fill`: the reads that are answered, and the cache. -/
def vdevCacheFill (offset error : ℕ) (data : ℕ → UInt8) (lbolt : ℕ) (vc : VdevCache) :
    List (ℕ × (ℕ → UInt8)) × VdevCache :=
  match offsetFind vc offset with
  | none => ([], vc)
  | some ve =>
    match ve.veFillIo with
    | none => ([], vc)
    | some fio =>
      let filled := { ve with veFillIo := none, veData := data }
      let answers := fio.ioDelegateList.map fun dio => (dio.1, hitData filled dio.2)
      let used := fio.ioDelegateList.foldl (fun ve _ => vdevCacheHit lbolt ve) filled
      if error ≠ 0 ∨ ve.veMissedUpdate then (answers, vdevCacheEvict ve vc)
      else (answers, atLine offset (fun _ => used) vc)

/-- What `vdev_cache_read` does with a read. -/
inductive CacheAnswer where
  | miss (errno : ℕ)
  | hit (data : ℕ → UInt8)
  | delegated

def vdevCacheRead (id : ℕ) (io : VdevIo) (lbolt now : ℕ) (vc : VdevCache) :
    CacheAnswer × VdevCache :=
  if io.dontCache then (.miss einval, vc)
  else if zfsVdevCacheMax < io.ioSize then (.miss eoverflow, vc)
  else if vcbs - 1 < io.ioOffset ^^^ sub64 (add64 io.ioOffset io.ioSize) 1 then (.miss exdev, vc)
  else
    match offsetFind vc (p2align io.ioOffset vcbs) with
    | some ve =>
      if ve.veMissedUpdate then (.miss estale, vc)
      else
        match ve.veFillIo with
        | some fio =>
          let joined := { fio with ioDelegateList := (id, io) :: fio.ioDelegateList }
          (.delegated, atLine ve.veOffset (fun ve => { ve with veFillIo := some joined }) vc)
        | none => (.hit (hitData ve io), atLine ve.veOffset (vdevCacheHit lbolt) vc)
    | none =>
      match vdevCacheAllocate io ⟨[(id, io)], now⟩ lbolt vc with
      | none => (.miss enomem, vc)
      | some vc => (.delegated, vc)

/-- What a write does to a line. -/
def updateLine (data : ℕ → UInt8) (ve : VdevCacheEntry) : VdevCacheEntry :=
  let start := max ve.veOffset io.ioOffset
  let stop := min (add64 ve.veOffset vcbs) (add64 io.ioOffset io.ioSize)
  if ve.veFillIo.isSome then { ve with veMissedUpdate := true }
  else
    { ve with
      veData := fun phase =>
        if start ≤ ve.veOffset + phase ∧ ve.veOffset + phase < stop then
          data (ve.veOffset + phase - io.ioOffset)
        else ve.veData phase }

/-- `vdev_cache_write`, over the lines that the write reaches. -/
def vdevCacheWrite (data : ℕ → UInt8) (vc : VdevCache) : VdevCache :=
  let minOffset := p2align io.ioOffset vcbs
  let maxOffset := p2roundup (add64 io.ioOffset io.ioSize) vcbs
  vc.map fun ve =>
    if minOffset ≤ ve.veOffset ∧ ve.veOffset < maxOffset then updateLine io data ve else ve

/-- A read of the device, with when and with what the cache answered it. -/
structure CachedRead where
  io : VdevIo
  queued : ℕ
  /-- When and with what it was answered. -/
  answer : Option (ℕ × (ℕ → UInt8))

/-- The device, the cache and the reads. -/
structure CacheState where
  /-- The device. -/
  history : History ℕ UInt8
  /-- The lines. -/
  cache : VdevCache
  reads : ℕ → Option CachedRead

/-- The bytes of the device that an I/O is over. -/
def VdevIo.covers (place : ℕ) : Bool :=
  io.ioOffset ≤ place && place < io.ioOffset + io.ioSize

/-- The data of a write by the bytes of the device. -/
def VdevIo.places (data : ℕ → UInt8) (place : ℕ) : UInt8 := data (place - io.ioOffset)

/-- What can happen to a device. -/
inductive CacheLabel where
  | issueWrite (id : ℕ) (io : VdevIo) (data : ℕ → UInt8)
  | land (id : ℕ) (write : Write ℕ UInt8) (part : ℕ → Bool)
  | completeWrite (id : ℕ) (write : Write ℕ UInt8) (io : VdevIo) (data : ℕ → UInt8) (error : ℕ)
  | read (id : ℕ) (io : VdevIo) (lbolt : ℕ)
  | fill (offset error : ℕ) (data : ℕ → UInt8) (lbolt : ℕ)
  | purge

/-- When it can happen; a device read sees each byte at some time. -/
def CacheState.Enabled : CacheLabel → Prop
  | .issueWrite id _ _ => state.history.writes id = none
  | .land id write _ => state.history.writes id = some write ∧ write.completed = none
  | .completeWrite id write io data error => state.history.writes id = some write ∧
    write.completed = none ∧ write.covers = io.covers ∧ write.data = io.places data ∧
    (error = 0 → ∀ place, write.covers place = true → write.landed place = true)
  | .read id _ _ => state.reads id = none
  | .fill offset error data _ => ∃ ve ∈ state.cache, ve.veOffset = offset ∧
    ∃ fio, ve.veFillIo = some fio ∧ (error = 0 → ∀ phase < vcbs, ∃ time, fio.issued ≤ time ∧
      time ≤ state.history.now ∧ data phase = state.history.holds time (offset + phase))
  | .purge => ∀ ve ∈ state.cache, ve.veFillIo = none

/-- The reads that a filled line answers. -/
def answerReads (now : ℕ) (answers : List (ℕ × (ℕ → UInt8))) (reads : ℕ → Option CachedRead) :
    ℕ → Option CachedRead :=
  fun id =>
    match answers.find? fun answer => answer.1 = id with
    | none => reads id
    | some answer => (reads id).map fun read => { read with answer := some (now, answer.2) }

/-- What happens. -/
def CacheState.apply : CacheLabel → CacheState
  | .issueWrite id io data =>
    { state with history := state.history.issue id io.covers (io.places data) }
  | .land id write part => { state with history := state.history.land id write part }
  | .completeWrite id write io data error =>
    { state with
      history := state.history.complete id write (error ≠ 0)
      cache := vdevCacheWrite io data state.cache }
  | .read id io lbolt =>
    let result := vdevCacheRead id io lbolt state.history.now state.cache
    let answer :=
      match result.1 with
      | .hit data => some (state.history.now, data)
      | _ => none
    { history := state.history.wait
      cache := result.2
      reads := Function.update state.reads id (some ⟨io, state.history.now, answer⟩) }
  | .fill offset error data lbolt =>
    let result := vdevCacheFill offset error data lbolt state.cache
    { history := state.history.wait
      cache := result.2
      -- the reads of a fill that failed fail as well
      reads :=
        if error = 0 then answerReads state.history.now result.1 state.reads else state.reads }
  | .purge => { state with history := state.history.wait, cache := [] }

/-- A device with a cache, and with any contents at the start. -/
def vdevCacheSystem : TransitionSystem CacheState CacheLabel where
  Start state := ∃ initial, state = ⟨.start initial, [], fun _ => none⟩
  Step state label next := state.Enabled label ∧ next = state.apply label

end Zfs
