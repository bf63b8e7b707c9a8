import Zfs.Machine

/-!
# Replay of the intent log

`zil_sync` and `zil_replay_log_record`.  The sequence numbers of replayed records are kept per
transaction group in an array of four slots, from which `zil_sync` copies one to the log header.
-/

namespace Zfs

def txMaxType : ℕ := 20

/-- Where a log block is, and the checksum that its contents must have. -/
structure LogBlkptr where
  /-- The address. -/
  dva : ℕ
  /-- The log of the block. -/
  guid : ℕ
  seq : ℕ
  deriving DecidableEq

structure ZilHeader where
  /-- The group in which the log was claimed. -/
  zhClaimTxg : ℕ
  /-- The highest replayed sequence number. -/
  zhReplaySeq : ℕ
  /-- The log chain; nothing for a hole. -/
  zhLog : Option LogBlkptr
  /-- The highest claimed sequence number. -/
  zhClaimSeq : ℕ
  deriving DecidableEq

/-- `bzero` of a header. -/
def ZilHeader.zero : ZilHeader := ⟨0, 0, none, 0⟩

/-- The fields of `lwb_t` that `zil_sync` reads. -/
structure SyncLwb where
  /-- The block. -/
  lwbBlk : LogBlkptr
  /-- `lwb_buf != NULL`. -/
  lwbBuf : Bool
  /-- The last group of its records. -/
  lwbMaxTxg : ℕ
  deriving DecidableEq

/-- The fields of `zilog_t` for replay and synchronization. -/
structure ReplayLog where
  zlHeader : ZilHeader
  /-- The last replayed sequence number, by slot. -/
  zlReplaySeq : ℕ → ℕ
  /-- The group that destroys the log. -/
  zlDestroyTxg : ℕ
  /-- Whether the first block is kept. -/
  zlKeepFirst : Bool
  /-- Whether replay is to stop. -/
  zlStopReplay : Bool
  /-- The buffers. -/
  zlLwbList : List SyncLwb

/-- The loop of `zil_sync` over the buffers; where the chain starts. -/
def zilSyncLwbs (txg : ℕ) : Option LogBlkptr → List SyncLwb → Option LogBlkptr × List SyncLwb
  | zhLog, [] => (zhLog, [])
  | _, lwb :: rest =>
    if lwb.lwbBuf ∨ lwb.lwbMaxTxg > txg then
      (some lwb.lwbBlk, lwb :: rest)
    else
      -- an empty list comes from an allocation failure
      zilSyncLwbs txg (if rest = [] then none else some lwb.lwbBlk) rest

variable (zilog : ReplayLog)

/-- The end of a destroyed log in `zil_sync`. -/
def zilSyncDestroy (txg guid : ℕ) : ReplayLog :=
  if zilog.zlDestroyTxg = txg then
    let blk := zilog.zlHeader.zhLog
    let zhLog := if zilog.zlKeepFirst then blk.map fun blk => ⟨blk.dva, guid, 1⟩ else none
    { zilog with
      zlHeader := { ZilHeader.zero with zhLog }
      zlReplaySeq := fun _ => 0 }
  else
    zilog

/-- `zil_sync`, with the GUID of a new log chain. -/
def zilSync (txg guid : ℕ) : ReplayLog :=
  let zhReplaySeq := zilog.zlReplaySeq (txg &&& txgMask)
  let zilog := zilSyncDestroy { zilog with
    zlHeader := { zilog.zlHeader with zhReplaySeq } } txg guid
  let (zhLog, zlLwbList) := zilSyncLwbs txg zilog.zlHeader.zhLog zilog.zlLwbList
  { zilog with
    zlHeader := { zilog.zlHeader with zhLog }
    zlLwbList }

/-- The common part of a log record. -/
structure LogRecord where
  /-- The type of the transaction. -/
  lrcTxtype : ℕ
  /-- Its transaction group. -/
  lrcTxg : ℕ
  lrcSeq : ℕ
  deriving DecidableEq

/-- Whether `zil_replay_log_record` passes over a record. -/
def zilReplaySkips (claimTxg : ℕ) (lr : LogRecord) : Bool :=
  zilog.zlStopReplay || decide (lr.lrcTxg < claimTxg) ||
    decide (lr.lrcSeq ≤ zilog.zlHeader.zhReplaySeq)

/-- What happens in a pass of the loop in `zil_replay_log_record`. -/
inductive ReplayAttempt where
  /-- `dmu_tx_assign` fails. -/
  | refused (error : ℕ)
  /-- The transaction is assigned to a txg, and the replay vector returns. -/
  | assigned (txg error : ℕ)
  deriving DecidableEq

/-- How the loop in `zil_replay_log_record` goes on. -/
inductive ReplayPass where
  | replayed (zilog : ReplayLog)
  | retry (sunk : Bool)
  | stopped (zilog : ReplayLog)

/-- The type of a record without the `TX_CI` bit. -/
def LogRecord.txtype (lr : LogRecord) : ℕ := lr.lrcTxtype % 2 ^ 63

/-- A pass of the loop in `zil_replay_log_record`. -/
def zilReplayPass (lr : LogRecord) (sunk : Bool) : ReplayAttempt → ReplayPass
  | .refused _ => .stopped { zilog with zlStopReplay := true }
  | .assigned txg error =>
    let error := if lr.txtype = 0 ∨ lr.txtype ≥ txMaxType then einval else error
    if error = 0 then
      .replayed { zilog with
        zlReplaySeq := Function.update zilog.zlReplaySeq (txg &&& txgMask) lr.lrcSeq }
    else if error ≠ erestart ∧ sunk = false then
      -- the removes so far are synced before the record is tried again
      .retry true
    else if error ≠ erestart then
      .stopped { zilog with zlStopReplay := true }
    else
      .retry sunk

end Zfs
