import Zfs.Library.RingLog
import Zfs.Machine

/-!
# The pool history

`spa_history.c`: the records of the commands of a pool, each with its length in front of it, in an
object that is a ring behind the record of the creation of the pool.  Reads and writes of the object
succeed.
-/

namespace Zfs

open RingLog

/-- The bytes of a number, the lowest first. -/
def leBytes : (count value : ℕ) → List (BitVec 8)
  | 0, _ => []
  | count + 1, value => BitVec.ofNat 8 value :: leBytes count (value / 256)

/-- The number of some bytes, the lowest first. -/
def leValue : List (BitVec 8) → ℕ
  | [] => 0
  | byte :: bytes => byte.toNat + 256 * leValue bytes

theorem length_leBytes (count value : ℕ) : (leBytes count value).length = count := by
  induction count generalizing value with
  | zero => rfl
  | succ count ih => rw [leBytes, List.length_cons, ih]

theorem leValue_leBytes (count value : ℕ) :
    leValue (leBytes count value) = value % 256 ^ count := by
  induction count generalizing value with
  | zero => rw [leBytes, leValue, pow_zero, Nat.mod_one]
  | succ count ih =>
    rw [leBytes, leValue, ih, BitVec.toNat_ofNat, pow_succ' 256 count, Nat.mod_mul]

/-- `spa_history_phys_t`.  No pool logs 2^64 bytes, so that the offsets do not wrap around. -/
structure SpaHistoryPhys where
  /-- The end of the record of the creation. -/
  shPoolCreateLen : ℕ
  /-- The end of the ring. -/
  shPhysMaxOff : ℕ
  /-- The logical start. -/
  shBof : ℕ
  /-- The logical end. -/
  shEof : ℕ
  /-- The number of records overwritten. -/
  shRecordsLost : ℕ

/-- The history object and its bonus buffer. -/
structure HistoryLog where
  shpp : SpaHistoryPhys
  object : ℕ → BitVec 8

/-- `ha_log_type`. -/
inductive HistoryLogType where
  | poolCreate
  | normal
  | internal
  deriving DecidableEq

def maxpathlen : ℕ := 4096

/-- `HIS_MAX_RECORD_LEN`: the buffer of every text logged. -/
def hisMaxRecordLen : ℕ := maxpathlen + maxpathlen + 1

/-- A packed record, of less than a kilobyte besides its text. -/
structure HistoryRecord where
  packed : List (BitVec 8)
  /-- The texts are limited. -/
  packed_lt : packed.length < hisMaxRecordLen + 1024

/-- A record with its length, as it is in the object. -/
def HistoryRecord.framed (record : HistoryRecord) : List (BitVec 8) :=
  leBytes 8 record.packed.length ++ record.packed

/-- `spa_history_create_obj`, by the size of the pool. -/
def spaHistoryCreateObj (dspace : ℕ) : HistoryLog where
  shpp :=
    { shPoolCreateLen := 0
      shPhysMaxOff := max (min (dspace / 100) (32 <<< 20)) (128 <<< 10)
      shBof := 0
      shEof := 0
      shRecordsLost := 0 }
  object := fun _ => 0

namespace HistoryLog

def logToPhys (shpp : SpaHistoryPhys) (logOff : ℕ) : ℕ :=
  let physLen := shpp.shPhysMaxOff - shpp.shPoolCreateLen
  (logOff - shpp.shPoolCreateLen) % physLen + shpp.shPoolCreateLen

def advanceBof (log : HistoryLog) : HistoryLog :=
  let shpp := log.shpp
  let physBof := logToPhys shpp shpp.shBof
  let firstread := min 8 (shpp.shPhysMaxOff - physBof)
  let buf := readAt log.object physBof firstread ++
    if firstread ≠ 8 then readAt log.object shpp.shPoolCreateLen (8 - firstread) else []
  { log with
    shpp :=
      { shpp with
        shBof := shpp.shBof + (leValue buf + 8)
        shRecordsLost := shpp.shRecordsLost + 1 } }

/-- The loop of `spa_history_write` that resets the logical start. -/
def makeRoom (len : ℕ) : ℕ → HistoryLog → Except Halt HistoryLog
  | 0, _ => .error .fuel
  | fuel + 1, log =>
    if log.shpp.shPhysMaxOff - log.shpp.shPoolCreateLen - (log.shpp.shEof - log.shpp.shBof) ≤ len
    then makeRoom len fuel log.advanceBof
    else .ok log

/-- The rest of `spa_history_write`. -/
def putBytes (buf : List (BitVec 8)) (log : HistoryLog) : HistoryLog :=
  let shpp := log.shpp
  let physEof := logToPhys shpp shpp.shEof
  let firstwrite := min buf.length (shpp.shPhysMaxOff - physEof)
  let object := overwrite log.object physEof (buf.take firstwrite)
  { shpp := { shpp with shEof := shpp.shEof + buf.length }
    object :=
      if 0 < buf.length - firstwrite then
        overwrite object shpp.shPoolCreateLen (buf.drop firstwrite)
      else object }

def spaHistoryWrite (buf : List (BitVec 8)) (log : HistoryLog) : Except Halt HistoryLog := do
  let log ← makeRoom buf.length (log.shpp.shEof - log.shpp.shBof + 1) log
  return putBytes buf log

/-- What `spa_history_log_sync` does after the creation. -/
def protectCreation (reclen : ℕ) (log : HistoryLog) : HistoryLog :=
  let createLen := log.shpp.shPoolCreateLen + (8 + reclen)
  { log with shpp := { log.shpp with shPoolCreateLen := createLen, shBof := createLen } }

/-- `spa_history_log_sync`, from the packed record on. -/
def spaHistoryLogSync (logType : HistoryLogType) (record : HistoryRecord) (log : HistoryLog) :
    Except Halt HistoryLog :=
  if logType = .poolCreate ∧ log.shpp.shEof ≠ log.shpp.shPoolCreateLen then .error .panic
  else do
    let log ← spaHistoryWrite (leBytes 8 record.packed.length) log
    let log ← spaHistoryWrite record.packed log
    return if logType = .poolCreate then protectCreation record.packed.length log else log

/-- `spa_history_get`: the offset to use next, and the bytes. -/
def spaHistoryGet (log : HistoryLog) (off len : ℕ) : ℕ × List (BitVec 8) :=
  let shpp := log.shpp
  let physEof := logToPhys shpp shpp.shEof
  if off < shpp.shPoolCreateLen then
    let readLen := min len (shpp.shPoolCreateLen - off)
    (off + readLen, readAt log.object off readLen)
  else
    let off := max off shpp.shBof
    let physReadOff := logToPhys shpp off
    if physReadOff ≤ physEof then
      let readLen := min len (physEof - physReadOff)
      (off + readLen, readAt log.object physReadOff readLen)
    else
      let readLen := min len (shpp.shPhysMaxOff - physReadOff)
      let leftover :=
        if shpp.shPhysMaxOff < add64 physReadOff len then
          min (len - readLen) (physEof - shpp.shPoolCreateLen)
        else 0
      (off + (readLen + leftover), readAt log.object physReadOff readLen ++
        readAt log.object shpp.shPoolCreateLen leftover)

/-- Calls of `spa_history_get`, each from where the last one stopped. -/
def spaHistoryGets (log : HistoryLog) : (off : ℕ) → List ℕ → ℕ × List (BitVec 8)
  | off, [] => (off, [])
  | off, len :: lens =>
    let got := log.spaHistoryGet off len
    let rest := log.spaHistoryGets got.1 lens
    (rest.1, got.2 ++ rest.2)

end HistoryLog

/-- A record that is logged after the creation of the pool. -/
structure LaterRecord extends HistoryRecord where
  logType : HistoryLogType
  later : logType ≠ .poolCreate

/-- Log some records one after the other. -/
def HistoryLog.logAll : List LaterRecord → HistoryLog → Except Halt HistoryLog
  | [], log => .ok log
  | record :: records, log => do
    let log ← log.spaHistoryLogSync record.logType record.toHistoryRecord
    logAll records log

/-- The history of a pool: its creation, if recorded, and the rest. -/
def historyRun (dspace : ℕ) (creation : Option HistoryRecord) (records : List LaterRecord) :
    Except Halt HistoryLog := do
  let log ←
    match creation with
    | none => .ok (spaHistoryCreateObj dspace)
    | some record => (spaHistoryCreateObj dspace).spaHistoryLogSync .poolCreate record
  HistoryLog.logAll records log

end Zfs
