import Zfs.Machine
import Zfs.Library.ByteBuffer

/-!
# The requests of `dmu_recv_stream`

A send stream is a sequence of record headers, some of them followed by data.  All of it is read
by `restore_read` into one buffer, whose size `restore_read` itself does not look at.  It takes the
length as an `int`, while `dmu_write` takes all 64 bits of it.
-/

namespace Zfs

def dmuOtNumtypes : ℕ := 39

def zioChecksumFunctions : ℕ := 9

def zioCompressFunctions : ℕ := 14

/-- `DN_MAX_BONUSLEN`. -/
def dnMaxBonuslen : ℕ := 320

/-- `sizeof (dmu_replay_record_t)`. -/
def replayRecordSize : ℕ := 312

/-- `ra.bufsize`. -/
def restoreBufsize : ℕ := 1 <<< 20

/-- What of a `dmu_replay_record_t` decides what is read. -/
inductive ReplayRecord where
  | object (drrType drrBonustype drrBlksz drrBonuslen drrChecksum drrCompress : ℕ)
  | freeobjects
  | write (drrType drrOffset drrLength : ℕ)
  | free
  /-- `DRR_END`, and every type that the loop does not know. -/
  | last
  deriving DecidableEq

/-- The stream, and what the calls return for the record at an offset. -/
structure RecvWorld where
  /-- The stream was written by a machine of the other byte order. -/
  byteswap : Bool
  /-- The bytes of the stream. -/
  stream : ByteBuffer.Buffer
  /-- The error of the `vn_rdwr` calls for some bytes from an offset on; zero if all are read. -/
  vnRdwr : ℕ → ℤ → ℕ
  /-- A signal is pending. -/
  issig : ℕ → Bool
  /-- The error of `dmu_object_info`. -/
  dmuObjectInfo : ℕ → ℕ
  /-- The error of `dmu_tx_assign`. -/
  dmuTxAssign : ℕ → ℕ
  /-- `dmu_object_claim` or `dmu_object_reclaim`. -/
  dmuObjectClaim : ℕ → ℕ
  /-- `restore_freeobjects` and `restore_free`, which read nothing. -/
  restoreFree : ℕ → ℕ

/-- What is done for a record. -/
structure Restored where
  /-- The lengths that `restore_read` is called with. -/
  requests : List ℤ
  /-- The lengths that `dmu_write` is called with, from the buffer. -/
  writes : List ℕ
  /-- The offset of the next record; `none` after an error. -/
  next : Option ℕ
  deriving DecidableEq

/-- A step of the loop of `dmu_recv_stream`. -/
inductive RecvEvent where
  /-- `restore_read` is called for a record header. -/
  | header (len : ℤ)
  | record (drr : ReplayRecord) (restored : Restored)
  deriving DecidableEq

namespace RecvWorld

variable (world : RecvWorld)

/-- A field of a record, after `backup_byteswap`. -/
def field (voff size : ℕ) : ℕ :=
  (ByteBuffer.ofLowBytes size fun j =>
    world.stream (voff + if world.byteswap then size - 1 - j else j)).toNat

/-- The record at an offset. -/
def record (voff : ℕ) : ReplayRecord :=
  match world.field voff 4 with
  | 1 => .object (world.field (voff + 16) 4) (world.field (voff + 20) 4)
    (world.field (voff + 24) 4) (world.field (voff + 28) 4) (world.field (voff + 32) 1)
    (world.field (voff + 33) 1)
  | 2 => .freeobjects
  | 3 => .write (world.field (voff + 16) 4) (world.field (voff + 24) 8) (world.field (voff + 32) 8)
  | 4 => .free
  | _ => .last

/-- `restore_read`: the offset behind the bytes, or `NULL`. -/
def restoreRead (voff : ℕ) (len : ℤ) : Option ℕ :=
  if len ≤ 0 then some voff
  else if world.vnRdwr voff len ≠ 0 then none
  else some (voff + len.toNat)

/-- The checks of `restore_object`. -/
def objectRefused (drrType drrBonustype drrBlksz drrBonuslen drrChecksum drrCompress : ℕ) : Bool :=
  drrType = 0 ∨ drrType ≥ dmuOtNumtypes ∨ drrBonustype ≥ dmuOtNumtypes ∨
    drrChecksum ≥ zioChecksumFunctions ∨ drrCompress ≥ zioCompressFunctions ∨
    p2phase drrBlksz 512 ≠ 0 ∨ drrBlksz < 512 ∨ drrBlksz > 1 <<< 17 ∨ drrBonuslen > dnMaxBonuslen

/-- `restore_object` from its checks on; nothing after an error. -/
def restoreObject (voff next drrBonuslen : ℕ) (refused : Bool) : Restored :=
  if world.dmuObjectInfo voff ≠ 0 ∧ world.dmuObjectInfo voff ≠ enoent then ⟨[], [], none⟩
  else if refused then ⟨[], [], none⟩
  else if world.dmuTxAssign voff ≠ 0 ∨ world.dmuObjectClaim voff ≠ 0 then ⟨[], [], none⟩
  else if drrBonuslen ≠ 0 then
    let len : ℤ := p2roundup drrBonuslen 8
    ⟨[len], [], world.restoreRead next len⟩
  else ⟨[], [], some next⟩

/-- The check of `restore_write`. -/
def writeRefused (drrType drrOffset drrLength : ℕ) : Bool :=
  add64 drrOffset drrLength < drrOffset ∨ drrType ≥ dmuOtNumtypes

/-- The length of a record as an `int` of `restore_read`. -/
def intLength (drrLength : ℕ) : ℤ := (drrLength : ℤ).bmod (2 ^ 32)

/-- `restore_write`. -/
def restoreWrite (voff next drrType drrOffset drrLength : ℕ) : Restored :=
  if writeRefused drrType drrOffset drrLength then ⟨[], [], none⟩
  else
    let len := intLength drrLength
    match world.restoreRead next len with
    | none => ⟨[len], [], none⟩
    | some next =>
      if world.dmuObjectInfo voff ≠ 0 ∨ world.dmuTxAssign voff ≠ 0 then ⟨[len], [], none⟩
      else ⟨[len], [drrLength], some next⟩

/-- The body of the loop of `dmu_recv_stream`. -/
def restore (voff next : ℕ) : ReplayRecord → Restored
  | .object type bonustype blksz bonuslen checksum compress =>
    world.restoreObject voff next bonuslen
      (objectRefused type bonustype blksz bonuslen checksum compress)
  | .write type offset length => world.restoreWrite voff next type offset length
  | .freeobjects | .free => ⟨[], [], if world.restoreFree voff ≠ 0 then none else some next⟩
  | .last => ⟨[], [], none⟩

/-- The first passes of the loop of `dmu_recv_stream`. -/
def dmuRecvStream : ℕ → ℕ → List RecvEvent
  | 0, _ => []
  | passes + 1, voff =>
    .header replayRecordSize :: match world.restoreRead voff replayRecordSize with
      | none => []
      | some next =>
        if world.issig voff then []
        else
          let drr := world.record voff
          let restored := world.restore voff next drr
          .record drr restored :: match restored.next with
            | none => []
            | some voff => dmuRecvStream passes voff

end RecvWorld

/-- The buffer has room, and the stream stays aligned. -/
def BufferFits (len : ℤ) : Prop := 8 ∣ len ∧ len ≤ restoreBufsize

/-- The length of the data behind a record, as the record gives it. -/
def ReplayRecord.dataLength : ReplayRecord → ℕ
  | .object _ _ _ bonuslen _ _ => p2roundup bonuslen 8
  | .write _ _ length => length
  | _ => 0

/-- The requests fit the buffer, and a record whose data does not is rejected before any of it is
read. -/
def RecvEvent.Proper : RecvEvent → Prop
  | .header len => BufferFits len
  | .record drr restored => (∀ len ∈ restored.requests, BufferFits len) ∧
    (¬ BufferFits drr.dataLength →
      restored.requests = [] ∧ restored.writes = [] ∧ restored.next = none)

/-- A write record is refused, or its length fits the buffer. -/
def ReplayRecord.Fits : ReplayRecord → Prop
  | .write type offset length =>
    RecvWorld.writeRefused type offset length = true ∨ BufferFits length
  | _ => True

namespace RecvWorld

variable (world : RecvWorld)

theorem bufferFits_bonus {drrBonuslen : ℕ} (small : drrBonuslen ≤ dnMaxBonuslen) :
    BufferFits (p2roundup drrBonuslen 8) := by
  have bounded : drrBonuslen ≤ 320 := small
  obtain ⟨-, below, multiple⟩ := p2roundup_bounds (k := 3) (by omega : drrBonuslen + 2 ^ 3 < 2 ^ 64)
  refine ⟨by exact_mod_cast multiple, ?_⟩
  have room : restoreBufsize = 2 ^ 20 := rfl
  rw [room]
  exact_mod_cast (by omega : p2roundup drrBonuslen (2 ^ 3) ≤ 2 ^ 20)

theorem le_of_not_refused {type bonustype blksz bonuslen checksum compress : ℕ}
    (accepted : ¬ objectRefused type bonustype blksz bonuslen checksum compress = true) :
    bonuslen ≤ dnMaxBonuslen := by
  simp only [objectRefused, decide_eq_true_eq, not_or] at accepted
  omega

/-- A length that fits is the same as an `int`. -/
theorem intLength_of_fits {drrLength : ℕ} (fits : BufferFits drrLength) :
    intLength drrLength = drrLength := by
  have room : restoreBufsize = 2 ^ 20 := rfl
  have small := fits.2
  rw [room] at small
  exact Int.bmod_eq_of_le (by omega) (by omega)

theorem restoreObject_proper (voff next type bonustype blksz bonuslen checksum compress : ℕ) :
    (RecvEvent.record (.object type bonustype blksz bonuslen checksum compress)
      (world.restoreObject voff next bonuslen
        (objectRefused type bonustype blksz bonuslen checksum compress))).Proper := by
  rw [restoreObject]
  split_ifs with _ refused _ bonus
  · simp [RecvEvent.Proper]
  · simp [RecvEvent.Proper]
  · simp [RecvEvent.Proper]
  · have fits := bufferFits_bonus (le_of_not_refused refused)
    exact ⟨List.forall_mem_singleton.mpr fits, fun oversized => absurd fits oversized⟩
  · exact ⟨List.forall_mem_nil _, fun oversized =>
      absurd (bufferFits_bonus (le_of_not_refused refused)) oversized⟩

theorem restoreWrite_requests (voff next : ℕ) {type offset length : ℕ}
    (accepted : ¬ writeRefused type offset length = true) :
    (world.restoreWrite voff next type offset length).requests = [intLength length] := by
  simp only [restoreWrite, accepted, Bool.false_eq_true, if_false]
  split
  · rfl
  · split <;> rfl

theorem restoreWrite_proper_iff (voff next type offset length : ℕ) :
    (RecvEvent.record (.write type offset length)
      (world.restoreWrite voff next type offset length)).Proper ↔
      writeRefused type offset length = true ∨ BufferFits length := by
  by_cases refused : writeRefused type offset length = true
  · rw [restoreWrite, if_pos refused]
    simp [refused, RecvEvent.Proper]
  · have requests := world.restoreWrite_requests voff next refused
    rw [or_iff_right refused, RecvEvent.Proper, requests]
    constructor
    · rintro ⟨-, rejected⟩
      by_contra oversized
      exact List.cons_ne_nil _ _ (rejected oversized).1
    · intro fits
      refine ⟨List.forall_mem_singleton.mpr ?_, fun oversized => absurd fits oversized⟩
      rwa [intLength_of_fits fits]

/-- For one record: only the length of a write record is not checked. -/
theorem restore_proper_iff (voff next : ℕ) (drr : ReplayRecord) :
    (RecvEvent.record drr (world.restore voff next drr)).Proper ↔ drr.Fits := by
  have empty : BufferFits 0 := ⟨dvd_zero 8, Int.natCast_nonneg _⟩
  cases drr with
  | object type bonustype blksz bonuslen checksum compress =>
    exact iff_of_true (world.restoreObject_proper _ _ _ _ _ _ _ _) trivial
  | write type offset length =>
    rw [restore, ReplayRecord.Fits]
    exact world.restoreWrite_proper_iff voff next type offset length
  | freeobjects | free | last =>
    simp [restore, RecvEvent.Proper, ReplayRecord.dataLength, ReplayRecord.Fits, empty]

/-- All requests fit the buffer, and records whose data does not are rejected, exactly when every
write record that is handled is refused for its type or offset or has a length that fits. -/
theorem recv_requests_fit_iff (world : RecvWorld) (passes voff : ℕ) :
    (∀ event ∈ world.dmuRecvStream passes voff, event.Proper) ↔
      ∀ drr restored, .record drr restored ∈ world.dmuRecvStream passes voff → drr.Fits := by
  have header : (RecvEvent.header replayRecordSize).Proper := ⟨by decide, by decide⟩
  induction passes generalizing voff with
  | zero => simp [dmuRecvStream]
  | succ passes ih =>
    rw [dmuRecvStream]
    cases world.restoreRead voff replayRecordSize with
    | none => simpa using header
    | some next =>
      split_ifs
      · simpa using header
      · have here := world.restore_proper_iff voff next (world.record voff)
        rcases later : (world.restore voff next (world.record voff)).next with _ | voff'
        · simp [header, later, here]
        · simp [header, later, here, or_imp, forall_and, ih]

/-- A stream of one write record, of 1 MiB and 12 bytes. -/
def oversizedWrite : RecvWorld where
  byteswap := false
  stream k := if k = 0 then 3 else if k = 32 then 12 else if k = 34 then 16 else 0
  vnRdwr _ _ := 0
  issig _ := false
  dmuObjectInfo _ := 0
  dmuTxAssign _ := 0
  dmuObjectClaim _ := 0
  restoreFree _ := 0

/-- The request for its data is not a multiple of eight, and behind the end of the buffer. -/
theorem recv_requests_oversized :
    .record (.write 0 0 (2 ^ 20 + 12)) ⟨[2 ^ 20 + 12], [2 ^ 20 + 12], some (2 ^ 20 + 324)⟩ ∈
      oversizedWrite.dmuRecvStream 1 0 ∧
    ¬ BufferFits (2 ^ 20 + 12) ∧
    ¬ ∀ event ∈ oversizedWrite.dmuRecvStream 1 0, event.Proper := by
  have oversized : ¬ BufferFits (2 ^ 20 + 12) := fun fits => absurd fits.2 (by decide)
  have handled : .record (.write 0 0 (2 ^ 20 + 12))
      ⟨[2 ^ 20 + 12], [2 ^ 20 + 12], some (2 ^ 20 + 324)⟩ ∈
        oversizedWrite.dmuRecvStream 1 0 := by decide +kernel
  exact ⟨handled, oversized, fun proper =>
    oversized ((proper _ handled).1 _ (List.mem_singleton_self _))⟩

end RecvWorld

end Zfs
