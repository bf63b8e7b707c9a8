import Zfs.Zil.Code
import Zfs.Library.ByteBuffer

/-!
# The data of replayed writes

A logged write may have its data in a block of its own.  `zil_replay_log_record` reads the block
into the buffer that all records share, behind the copy of the record, and does not look at the
error.
-/

namespace Zfs

open ByteBuffer

def txWrite : ℕ := 9

/-- `sizeof (lr_write_t)`. -/
def lrWriteSize : ℕ := 192

/-- The block of a logged write. -/
structure WriteBlock where
  /-- `BP_GET_LSIZE`. -/
  lsize : ℕ
  /-- The bytes that were stored in the block when the write was logged. -/
  stored : Buffer

/-- A record of the log; the last three fields are those of a write. -/
structure LogEntry where
  /-- The common part of every record. -/
  lr : LogRecord
  /-- The length of the record. -/
  lrcReclen : ℕ
  /-- The record as it is copied for the replay vector. -/
  bytes : Buffer
  /-- The length of the data. -/
  lrLength : ℕ
  /-- The place of the data in the block. -/
  lrBlkoff : ℕ
  /-- Nothing for a block of zeros, which was compressed to a hole. -/
  lrBlkptr : Option WriteBlock

/-- What `zio_read` does. -/
inductive BlockRead where
  /-- The bytes of the block, which without a checksum need not be those that were stored. -/
  | done (data : Buffer)
  /-- An error, after some bytes may have been overwritten. -/
  | failed (written : ℕ → Option (BitVec 8))

namespace LogEntry

variable (entry : LogEntry)

/-- The record is a write with its data in a block. -/
def indirect : Bool := entry.lr.txtype = txWrite ∧ entry.lrcReclen = lrWriteSize

/-- The bytes that were stored when the write was logged. -/
def logged (k : ℕ) : BitVec 8 :=
  match entry.lrBlkptr with
  | none => 0
  | some block => block.stored (entry.lrBlkoff + k)

/-- `bcopy(lr, zr->zr_lrbuf, reclen)`. -/
def copyRecord (buffer : Buffer) : Buffer := fun k =>
  if k < entry.lrcReclen then entry.bytes k else buffer k

/-- The buffer after `zio_read` into the place behind the record. -/
def readBlock (block : WriteBlock) (read : BlockRead) (buffer : Buffer) : Buffer := fun k =>
  if lrWriteSize ≤ k ∧ k < lrWriteSize + block.lsize then
    match read with
    | .done data => data (k - lrWriteSize)
    | .failed written => (written (k - lrWriteSize)).getD (buffer k)
  else buffer k

/-- The data that `zil_replay_log_record` sucks in for a write. -/
def suckData (read : BlockRead) (buffer : Buffer) : Buffer := fun k =>
  if lrWriteSize ≤ k ∧ k < lrWriteSize + entry.lrLength then
    match entry.lrBlkptr with
    | none => 0
    -- `memmove(wbuf, wbuf + lr_blkoff, wlen)`
    | some block => readBlock block read buffer (k + entry.lrBlkoff)
  else
    match entry.lrBlkptr with
    | none => buffer k
    | some block => readBlock block read buffer k

/-- The buffer that the replay vector is called with. -/
def fillBuffer (read : BlockRead) (buffer : Buffer) : Buffer :=
  if entry.indirect then entry.suckData read (entry.copyRecord buffer) else entry.copyRecord buffer

end LogEntry

/-- The loop of `zil_replay_log_record`; nothing while it tries again. -/
def zilReplayLoop (zilog : ReplayLog) (lr : LogRecord) :
    Bool → List ReplayAttempt → Option (Bool × ReplayLog)
  | _, [] => none
  | sunk, attempt :: rest =>
    match zilReplayPass zilog lr sunk attempt with
    | .replayed zilog => some (true, zilog)
    | .retry sunk => zilReplayLoop zilog lr sunk rest
    | .stopped zilog => some (false, zilog)

/-- A call of `zil_replay_log_record`, with what happens in it. -/
structure ReplayCall where
  /-- The record. -/
  entry : LogEntry
  /-- What reading its block does. -/
  read : BlockRead
  /-- The passes of the loop. -/
  attempts : List ReplayAttempt

/-- A write with its data in a block, replayed without error. -/
structure ReplayedWrite where
  entry : LogEntry
  read : BlockRead
  /-- What is written to the file. -/
  data : Buffer

/-- The writes that `zil_replay` replays from the records of a log. -/
def replayedWrites (claimTxg : ℕ) : ReplayLog → Buffer → List ReplayCall → List ReplayedWrite
  | _, _, [] => []
  | zilog, buffer, ⟨entry, read, attempts⟩ :: calls =>
    if zilReplaySkips zilog claimTxg entry.lr then replayedWrites claimTxg zilog buffer calls
    else
      let filled := entry.fillBuffer read buffer
      match zilReplayLoop zilog entry.lr false attempts with
      | none => []
      | some (replayed, zilog) =>
        (if replayed && entry.indirect then
          [⟨entry, read, fun k => filled (lrWriteSize + k)⟩] else []) ++
          replayedWrites claimTxg zilog filled calls

namespace ReplayedWrite

/-- The write has exactly the bytes that were logged. -/
def Exact (replay : ReplayedWrite) : Prop :=
  ∀ k < replay.entry.lrLength, replay.data k = replay.entry.logged k

/-- The block is a hole, or the stored bytes were read from it. -/
def Supplied (replay : ReplayedWrite) : Prop :=
  match replay.entry.lrBlkptr, replay.read with
  | none, _ => True
  | some block, .done data => replay.entry.lrBlkoff + replay.entry.lrLength ≤ block.lsize ∧
    ∀ k < replay.entry.lrLength,
      data (replay.entry.lrBlkoff + k) = block.stored (replay.entry.lrBlkoff + k)
  | some _, .failed _ => False

end ReplayedWrite

theorem LogEntry.suckData_hole {entry : LogEntry} (hole : entry.lrBlkptr = none)
    (read : BlockRead) (buffer : Buffer) {k : ℕ} (within : k < entry.lrLength) :
    entry.suckData read buffer (lrWriteSize + k) = 0 := by
  rw [suckData, if_pos ⟨Nat.le_add_right _ _, Nat.add_lt_add_left within _⟩, hole]

theorem LogEntry.suckData_done {entry : LogEntry} {block : WriteBlock}
    (block_eq : entry.lrBlkptr = some block)
    (inside : entry.lrBlkoff + entry.lrLength ≤ block.lsize)
    (data buffer : Buffer) {k : ℕ} (within : k < entry.lrLength) :
    entry.suckData (.done data) buffer (lrWriteSize + k) = data (entry.lrBlkoff + k) := by
  have place : lrWriteSize + k + entry.lrBlkoff = lrWriteSize + (entry.lrBlkoff + k) := by omega
  rw [suckData, if_pos ⟨Nat.le_add_right _ _, Nat.add_lt_add_left within _⟩, block_eq]
  simp only [readBlock, place]
  rw [if_pos ⟨Nat.le_add_right _ _, by omega⟩, Nat.add_sub_cancel_left]

/-- What is written is what the buffer holds after the read. -/
theorem data_of_replayed {claimTxg : ℕ} {zilog : ReplayLog} {buffer : Buffer}
    {calls : List ReplayCall} {replay : ReplayedWrite}
    (member : replay ∈ replayedWrites claimTxg zilog buffer calls) : ∃ held,
    replay.data = fun k => replay.entry.suckData replay.read held (lrWriteSize + k) := by
  induction calls generalizing zilog buffer with
  | nil => cases member
  | cons call calls ih =>
    obtain ⟨entry, read, attempts⟩ := call
    rw [replayedWrites] at member
    split_ifs at member with skipped
    · exact ih member
    · rcases loop : zilReplayLoop zilog entry.lr false attempts with _ | ⟨replayed, zilog'⟩
      · simp [loop] at member
      · simp only [loop, List.mem_append] at member
        rcases member with here | later
        · by_cases both : (replayed && entry.indirect) = true
          · rw [if_pos both, List.mem_singleton] at here
            have indirect := (Bool.and_eq_true _ _ ▸ both).2
            refine ⟨entry.copyRecord buffer, ?_⟩
            rw [here, LogEntry.fillBuffer, if_pos indirect]
          · rw [if_neg both] at here
            cases here
        · exact ih later

/-- The replayed writes have the logged bytes when each block is a hole or was read. -/
theorem zil_replay_data_exact (claimTxg : ℕ) (zilog : ReplayLog) (buffer : Buffer)
    (calls : List ReplayCall)
    (supplied : ∀ replay ∈ replayedWrites claimTxg zilog buffer calls, replay.Supplied) :
    ∀ replay ∈ replayedWrites claimTxg zilog buffer calls, replay.Exact := by
  intro replay member k within
  have here := supplied replay member
  obtain ⟨held, data_eq⟩ := data_of_replayed member
  simp only [data_eq, LogEntry.logged]
  cases block_eq : replay.entry.lrBlkptr with
  | none => exact LogEntry.suckData_hole block_eq _ held within
  | some block =>
    cases read_eq : replay.read with
    | done data =>
      simp only [ReplayedWrite.Supplied, block_eq, read_eq] at here
      rw [LogEntry.suckData_done block_eq here.1 data held within, here.2 k within]
    | failed written =>
      simp only [ReplayedWrite.Supplied, block_eq, read_eq] at here

/-- A write of one byte, in a block of one byte. -/
def oneByteWrite (seq : ℕ) (byte : BitVec 8) : LogEntry where
  lr := ⟨txWrite, 1, seq⟩
  lrcReclen := lrWriteSize
  bytes _ := 0
  lrLength := 1
  lrBlkoff := 0
  lrBlkptr := some ⟨1, fun _ => byte⟩

/-- The log before anything is replayed. -/
def freshReplay : ReplayLog := ⟨.zero, fun _ => 0, 0, false, false, []⟩

/-- Two writes, the second into a hole. -/
def readableCalls : List ReplayCall :=
  [⟨oneByteWrite 1 7, .done fun _ => 7, [.assigned 1 0]⟩,
    ⟨{ oneByteWrite 2 0 with lrBlkptr := none }, .failed fun _ => none, [.assigned 1 0]⟩]

/-- Both are replayed with what was logged. -/
theorem zil_replay_data_readable :
    (replayedWrites 1 freshReplay (fun _ => 0) readableCalls).length = 2 ∧
    ∀ replay ∈ replayedWrites 1 freshReplay (fun _ => 0) readableCalls, replay.Exact := by
  refine ⟨rfl, zil_replay_data_exact 1 freshReplay (fun _ => 0) readableCalls ?_⟩
  refine List.forall_mem_cons.mpr ⟨⟨le_rfl, fun _ _ => rfl⟩, ?_⟩
  exact List.forall_mem_singleton.mpr trivial

/-- The block of the second write cannot be read: its replay succeeds with the byte of the first. -/
theorem zil_replay_data_stale :
    ∃ replay ∈ replayedWrites 1 freshReplay (fun _ => 0)
      [⟨oneByteWrite 1 7, .done fun _ => 7, [.assigned 1 0]⟩,
        ⟨oneByteWrite 2 8, .failed fun _ => none, [.assigned 1 0]⟩],
      replay.data 0 = 7 ∧ ¬ replay.Exact := by
  refine ⟨_, List.mem_cons_of_mem _ (List.mem_singleton.mpr rfl), rfl, fun exact_ => ?_⟩
  exact absurd (exact_ 0 Nat.one_pos) (by decide)

end Zfs
