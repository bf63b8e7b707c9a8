import Zfs.History.Code

/-!
# The history is a ring of whole records

Between its logical start and end the object has whole records, less than a turn of the ring, so
that a write never touches them: the loop that makes room moves the start over the oldest records
first.
-/

namespace Zfs

open RingLog List Nat

namespace HistoryLog

/-- The size of the ring. -/
def physLen (log : HistoryLog) : ℕ := log.shpp.shPhysMaxOff - log.shpp.shPoolCreateLen

variable (dspace : ℕ) (record : HistoryRecord) (records : List HistoryRecord)

/-- Some records as they are in the object. -/
def frames : List (BitVec 8) := records.flatMap HistoryRecord.framed

theorem length_framed :
    record.framed.length = 8 + record.packed.length := by
  rw [HistoryRecord.framed, length_append, length_leBytes]

theorem frames_cons :
    frames (record :: records) = record.framed ++ frames records := flatMap_cons

theorem length_le_frames :
    records.length ≤ (frames records).length := by
  induction records with
  | nil => rfl
  | cons record records ih =>
    rw [frames_cons, length_append, length_cons, length_framed]
    omega

/-- The creation, whole records, and some bytes of one being written. -/
structure Keeps (log : HistoryLog) (creation : List (BitVec 8)) (kept : List HistoryRecord)
    (partly : List (BitVec 8)) : Prop where
  /-- The record of the creation has its length. -/
  createLen_eq : log.shpp.shPoolCreateLen = creation.length
  /-- It is in its place. -/
  creation_eq : readAt log.object 0 creation.length = creation
  /-- The ring begins after it. -/
  createLen_le : log.shpp.shPoolCreateLen ≤ log.shpp.shBof
  /-- The records fill the log to its end. -/
  eof_eq : log.shpp.shEof = log.shpp.shBof + (frames kept ++ partly).length
  /-- They are in the ring. -/
  holds : Holds log.object log.shpp.shPoolCreateLen log.physLen log.shpp.shBof
    (frames kept ++ partly)
  /-- They are less than a turn. -/
  room : (frames kept ++ partly).length < log.physLen

variable {log : HistoryLog} {creation partly : List (BitVec 8)} {kept : List HistoryRecord}

theorem Keeps.physMaxOff_eq (keeps : log.Keeps creation kept partly) :
    log.shpp.shPhysMaxOff = log.shpp.shPoolCreateLen + log.physLen := by
  have := keeps.room
  rw [physLen] at this ⊢
  omega

theorem logToPhys_eq (log : HistoryLog) (logOff : ℕ) :
    logToPhys log.shpp logOff = cell log.shpp.shPoolCreateLen log.physLen logOff := rfl

/-- `spa_history_advance_bof` reads the header at the logical start. -/
theorem Keeps.advanceBof_eq (keeps : log.Keeps creation kept partly) :
    log.advanceBof = { log with shpp := { log.shpp with
      shBof := log.shpp.shBof + (leValue (ringRead log.object log.shpp.shPoolCreateLen log.physLen
        log.shpp.shBof 8) + 8)
      shRecordsLost := log.shpp.shRecordsLost + 1 } } := by
  rw [advanceBof, ringRead, ← keeps.physMaxOff_eq, logToPhys_eq]
  split
  · rfl
  · rename_i whole
    rw [not_not.mp whole]
    rfl

/-- What `spa_history_write` writes goes to the logical end. -/
theorem Keeps.putBytes_eq (keeps : log.Keeps creation kept partly) (buf : List (BitVec 8)) :
    log.putBytes buf = { shpp := { log.shpp with shEof := log.shpp.shEof + buf.length }
                         object := ringWrite log.object log.shpp.shPoolCreateLen log.physLen
                          log.shpp.shEof buf } := by
  rw [putBytes, ringWrite, ← keeps.physMaxOff_eq, logToPhys_eq]
  split
  · rfl
  · rename_i whole
    rw [drop_eq_nil_of_le (by omega)]
    congr 1
    funext i
    simp [overwrite]

/-- How the log has changed if the oldest records were dropped. -/
structure Drops (log log' : HistoryLog) (dropped : List HistoryRecord) : Prop where
  lost : log'.shpp.shRecordsLost = log.shpp.shRecordsLost + dropped.length
  moved : log'.shpp.shBof = log.shpp.shBof + (frames dropped).length
  size : log'.physLen = log.physLen

theorem Drops.trans {log' log'' : HistoryLog} {dropped dropped' : List HistoryRecord}
    (first : Drops log log' dropped) (second : Drops log' log'' dropped') :
    Drops log log'' (dropped ++ dropped') where
  lost := by rw [second.lost, first.lost, length_append, add_assoc]
  moved := by
    rw [second.moved, first.moved, frames, frames, frames, flatMap_append, length_append, add_assoc]
  size := second.size.trans first.size

/-- The length in front of the oldest record. -/
theorem Keeps.header {record : HistoryRecord}
    (keeps : log.Keeps creation (record :: kept) partly) :
    leValue (ringRead log.object log.shpp.shPoolCreateLen log.physLen log.shpp.shBof 8) =
      record.packed.length := by
  have stored := keeps.holds
  have room := keeps.room
  rw [frames_cons, append_assoc, HistoryRecord.framed, append_assoc] at stored room
  have length : record.packed.length < 256 ^ 8 := record.packed_lt.trans (by decide)
  have inside : 0 + 8 ≤ (leBytes 8 record.packed.length ++
      (record.packed ++ (frames kept ++ partly))).length := by
    rw [length_append, length_leBytes]
    omega
  have read := stored.ringRead keeps.createLen_le inside room.le
  rw [add_zero, drop_zero, take_append_of_le_length (by rw [length_leBytes]),
    take_of_length_le (by rw [length_leBytes])] at read
  rw [read, leValue_leBytes, mod_eq_of_lt length]

theorem Keeps.advanceBof {record : HistoryRecord}
    (keeps : log.Keeps creation (record :: kept) partly) :
    log.advanceBof.Keeps creation kept partly ∧ Drops log log.advanceBof [record] := by
  have stored := keeps.holds
  have room := keeps.room
  have eof_eq := keeps.eof_eq
  rw [frames_cons, append_assoc] at stored room eof_eq
  rw [length_append, length_framed] at room eof_eq
  have rest := stored.of_append.2
  rw [length_framed] at rest
  rw [keeps.advanceBof_eq, keeps.header, add_comm record.packed.length 8]
  refine ⟨⟨keeps.createLen_eq, keeps.creation_eq, ?_, ?_, rest, ?_⟩, rfl, ?_, rfl⟩
  · exact keeps.createLen_le.trans (le_add_right _ _)
  · dsimp only
    omega
  · change _ < log.physLen
    omega
  · rw [frames, flatMap_singleton, length_framed]

/-- The loop of `spa_history_write` drops oldest records as it must, and ends. -/
theorem Keeps.makeRoom {len : ℕ} (fits : partly.length + len < log.physLen) {fuel : ℕ}
    (keeps : log.Keeps creation kept partly) (enough : kept.length < fuel) :
    ∃ dropped rest log', kept = dropped ++ rest ∧ HistoryLog.makeRoom len fuel log = .ok log' ∧
    log'.Keeps creation rest partly ∧ Drops log log' dropped ∧
    (frames rest ++ partly).length + len < log.physLen := by
  induction fuel generalizing log kept with
  | zero => omega
  | succ fuel ih =>
    have free : log.shpp.shPhysMaxOff - log.shpp.shPoolCreateLen -
        (log.shpp.shEof - log.shpp.shBof) = log.physLen - (frames kept ++ partly).length := by
      rw [keeps.eof_eq, physLen]
      omega
    rw [HistoryLog.makeRoom, free]
    split
    · rename_i full
      cases kept with
      | nil =>
        rw [frames, flatMap_nil, nil_append] at full
        omega
      | cons record kept =>
        obtain ⟨keeps', drops⟩ := keeps.advanceBof
        have size := drops.size
        obtain ⟨dropped, rest, log', kept_eq, ok, keeps'', drops', room'⟩ :=
          ih (by omega) keeps' (by simpa using enough)
        exact ⟨record :: dropped, rest, log', by rw [kept_eq, cons_append], ok, keeps'',
          drops.trans drops', by omega⟩
    · rename_i free
      exact ⟨[], kept, log, rfl, rfl, keeps, ⟨rfl, rfl, rfl⟩, by omega⟩

theorem Keeps.spaHistoryWrite (keeps : log.Keeps creation kept partly) (buf : List (BitVec 8))
    (fits : partly.length + buf.length < log.physLen) :
    ∃ dropped rest log', kept = dropped ++ rest ∧ HistoryLog.spaHistoryWrite buf log = .ok log' ∧
    log'.Keeps creation rest (partly ++ buf) ∧ Drops log log' dropped := by
  have count : kept.length < log.shpp.shEof - log.shpp.shBof + 1 := by
    have := length_le_frames kept
    rw [keeps.eof_eq, length_append]
    omega
  obtain ⟨dropped, rest, log', kept_eq, ok, keeps', ⟨lost, moved, same⟩, room⟩ :=
    keeps.makeRoom fits count
  refine ⟨dropped, rest, log'.putBytes buf, kept_eq, ?_, ?_, lost, moved, same⟩
  · rw [HistoryLog.spaHistoryWrite, ok]
    rfl
  · rw [keeps'.putBytes_eq]
    have stored := keeps'.holds.ringWrite keeps'.createLen_le buf (by omega)
    have creation_eq := keeps'.creation_eq
    have eof_eq := keeps'.eof_eq
    rw [← keeps'.eof_eq, append_assoc] at stored
    rw [length_append] at eof_eq room
    refine ⟨keeps'.createLen_eq, ?_, keeps'.createLen_le, ?_, stored, ?_⟩
    · rw [readAt_ringWrite keeps'.createLen_eq.ge, creation_eq]
    · simp only [eof_eq, length_append, add_assoc]
    · rw [length_append, length_append]
      change _ < log'.physLen
      omega

theorem Keeps.spaHistoryLogSync (keeps : log.Keeps creation kept []) (record : HistoryRecord)
    (logType : HistoryLogType) (fits : 8 + record.packed.length < log.physLen)
    (verified : logType = .poolCreate → log.shpp.shEof = log.shpp.shPoolCreateLen) :
    ∃ dropped rest log', kept = dropped ++ rest ∧
    log'.Keeps creation (rest ++ [record]) [] ∧ Drops log log' dropped ∧
    HistoryLog.spaHistoryLogSync logType record log =
      .ok (if logType = .poolCreate then protectCreation record.packed.length log' else log') := by
  have header_length := length_leBytes 8 record.packed.length
  obtain ⟨dropped, rest, log₁, kept_eq, ok₁, keeps₁, drops₁⟩ :=
    keeps.spaHistoryWrite (leBytes 8 record.packed.length)
      (by rw [header_length, length_nil]; omega)
  rw [nil_append] at keeps₁
  obtain ⟨dropped', rest', log₂, rest_eq, ok₂, keeps₂, drops₂⟩ :=
    keeps₁.spaHistoryWrite record.packed (by rw [header_length, drops₁.size]; exact fits)
  refine ⟨dropped ++ dropped', rest', log₂, ?_, ?_, drops₁.trans drops₂, ?_⟩
  · rw [kept_eq, rest_eq, append_assoc]
  · have content : frames rest' ++ (leBytes 8 record.packed.length ++ record.packed) =
        frames (rest' ++ [record]) ++ [] := by
      simp [frames, HistoryRecord.framed]
    have eof_eq := keeps₂.eof_eq
    have stored := keeps₂.holds
    have room := keeps₂.room
    rw [content] at eof_eq stored room
    exact ⟨keeps₂.createLen_eq, keeps₂.creation_eq, keeps₂.createLen_le, eof_eq, stored, room⟩
  · rw [HistoryLog.spaHistoryLogSync, if_neg (by tauto), ok₁]
    change (HistoryLog.spaHistoryWrite record.packed log₁ >>= _) = _
    rw [ok₂]
    rfl

theorem Keeps.logAll {size : ℕ} (wide : hisMaxRecordLen + 1032 ≤ size) (records : List LaterRecord)
    (keeps : log.Keeps creation kept []) (size_eq : log.physLen = size) :
    ∃ dropped rest log', kept ++ records.map LaterRecord.toHistoryRecord = dropped ++ rest ∧
    HistoryLog.logAll records log = .ok log' ∧ log'.Keeps creation rest [] ∧
    Drops log log' dropped := by
  induction records generalizing log kept with
  | nil => exact ⟨[], kept, log, by simp, rfl, keeps, rfl, rfl, rfl⟩
  | cons record records ih =>
    have short := record.packed_lt
    obtain ⟨dropped, rest, log', kept_eq, keeps', drops, ok⟩ :=
      keeps.spaHistoryLogSync record.toHistoryRecord record.logType (by omega)
        (fun created => absurd created record.later)
    rw [if_neg record.later] at ok
    obtain ⟨dropped', rest', log'', rest_eq, ok', keeps'', drops'⟩ :=
      ih keeps' (drops.size.trans size_eq)
    refine ⟨dropped ++ dropped', rest', log'', ?_, ?_, keeps'', drops.trans drops'⟩
    · rw [append_assoc, ← rest_eq, kept_eq]
      simp
    · rw [HistoryLog.logAll, ok]
      exact ok'

theorem keeps_create :
    (spaHistoryCreateObj dspace).Keeps [] [] [] ∧
    128 <<< 10 ≤ (spaHistoryCreateObj dspace).physLen := by
  have wide : 128 <<< 10 ≤ (spaHistoryCreateObj dspace).physLen := le_max_right _ _
  refine ⟨⟨rfl, rfl, le_rfl, rfl, nofun, ?_⟩, wide⟩
  exact lt_of_lt_of_le (by decide) wide

theorem Keeps.protectCreation {record : HistoryRecord} (keeps : log.Keeps [] [record] [])
    (start : log.shpp.shBof = 0) :
    (HistoryLog.protectCreation record.packed.length log).Keeps record.framed [] [] ∧
    (HistoryLog.protectCreation record.packed.length log).physLen =
      log.physLen - record.framed.length := by
  have createLen_eq : log.shpp.shPoolCreateLen = 0 := keeps.createLen_eq
  have content : frames [record] ++ [] = record.framed := by simp [frames]
  have stored := keeps.holds
  have room := keeps.room
  have eof_eq := keeps.eof_eq
  rw [content] at stored room eof_eq
  have length := length_framed record
  have size_eq : (HistoryLog.protectCreation record.packed.length log).physLen =
      log.physLen - record.framed.length := by
    simp only [physLen, HistoryLog.protectCreation]
    omega
  refine ⟨⟨?_, ?_, le_rfl, ?_, nofun, ?_⟩, size_eq⟩
  · simp only [HistoryLog.protectCreation]
    omega
  · refine ext_getElem (length_readAt _ _ _) fun i left right => ?_
    rw [getElem_readAt, ← stored i right, createLen_eq, start, cell, Nat.sub_zero, Nat.add_zero,
      Nat.mod_eq_of_lt (by omega)]
    rfl
  · simp only [HistoryLog.protectCreation, frames, flatMap_nil, nil_append,
      length_nil]
    omega
  · rw [size_eq]
    simp only [frames, flatMap_nil, nil_append, length_nil]
    omega

/-- Along the history of a pool the log keeps the creation and the last records. -/
theorem historyRun_keeps (creation : Option HistoryRecord) (records : List LaterRecord) :
    ∃ log lost kept, historyRun dspace creation records = .ok log ∧
    records.map LaterRecord.toHistoryRecord = lost ++ kept ∧
    log.Keeps (frames creation.toList) kept [] ∧ log.shpp.shRecordsLost = lost.length := by
  obtain ⟨created, wide⟩ := keeps_create dspace
  cases creation with
  | none =>
    obtain ⟨lost, kept, log, eq, ok, keeps, drops⟩ :=
      created.logAll (by exact le_trans (by decide) wide) records rfl
    exact ⟨log, lost, kept, ok, eq, keeps, drops.lost.trans (zero_add _)⟩
  | some record =>
    have short := record.packed_lt
    have framed_le : 8 + record.packed.length ≤ hisMaxRecordLen + 1032 := by omega
    have narrow : hisMaxRecordLen + 1032 + (hisMaxRecordLen + 1032) ≤ 128 <<< 10 := by decide
    obtain ⟨dropped, rest, log₁, nothing, keeps₁, drops₁, ok₁⟩ :=
      created.spaHistoryLogSync record .poolCreate (by omega) (fun _ => rfl)
    obtain ⟨rfl, rfl⟩ : dropped = [] ∧ rest = [] := by simpa using nothing.symm
    obtain ⟨keeps₂, size⟩ := keeps₁.protectCreation (drops₁.moved.trans rfl)
    rw [if_pos rfl] at ok₁
    have left : hisMaxRecordLen + 1032 ≤ log₁.physLen - record.framed.length := by
      rw [drops₁.size, length_framed]
      refine Nat.le_sub_of_add_le (le_trans ?_ (narrow.trans wide))
      exact Nat.add_le_add_left framed_le _
    obtain ⟨lost, kept, log, eq, ok, keeps, drops⟩ := keeps₂.logAll left records size
    refine ⟨log, lost, kept, ?_, eq, ?_, drops.lost.trans ?_⟩
    · rw [historyRun]
      simp only [ok₁]
      exact ok
    · simpa [frames] using keeps
    · have zero : log₁.shpp.shRecordsLost = 0 := drops₁.lost
      simp [HistoryLog.protectCreation, zero]

/-- The bytes of the history. -/
def stream (creation : List (BitVec 8)) (kept : List HistoryRecord) : List (BitVec 8) :=
  creation ++ frames kept

/-- Where in the stream an offset is. -/
def streamPos (log : HistoryLog) (off : ℕ) : ℕ :=
  if off < log.shpp.shPoolCreateLen then off
  else log.shpp.shPoolCreateLen + (max off log.shpp.shBof - log.shpp.shBof)

variable (keeps : log.Keeps creation kept [])

include keeps

theorem Keeps.get_ring {off : ℕ} (len : ℕ)
    (behind : log.shpp.shPoolCreateLen ≤ off) (inside : max off log.shpp.shBof ≤ log.shpp.shEof) :
    ∃ count ≤ log.shpp.shEof - max off log.shpp.shBof,
      (count = 0 → len = 0 ∨ max off log.shpp.shBof = log.shpp.shEof) ∧
    log.spaHistoryGet off len = (max off log.shpp.shBof + count,
      ringRead log.object log.shpp.shPoolCreateLen log.physLen (max off log.shpp.shBof) count) := by
  have room := keeps.room
  have eof_eq := keeps.eof_eq
  rw [append_nil] at room eof_eq
  obtain ⟨left, left_eq⟩ := Nat.exists_eq_add_of_le inside
  have short : left < log.physLen := by omega
  have eof_cell := cell_add (by omega : log.shpp.shPoolCreateLen ≤ max off log.shpp.shBof) short
  have read_lt := cell_lt (by omega : 0 < log.physLen) log.shpp.shPoolCreateLen
    (max off log.shpp.shBof)
  rw [← left_eq] at eof_cell
  rw [spaHistoryGet]
  simp only [if_neg (not_lt.mpr behind), logToPhys_eq, eof_cell, ringRead, keeps.physMaxOff_eq]
  generalize cell log.shpp.shPoolCreateLen log.physLen (max off log.shpp.shBof) = start at *
  by_cases fits : start + left < log.shpp.shPoolCreateLen + log.physLen
  · rw [if_pos fits, if_pos (Nat.le_add_right start left), Nat.add_sub_cancel_left]
    refine ⟨min len left, by omega, by omega, ?_⟩
    rw [min_eq_left (by omega : min len left ≤ _), Nat.sub_self]
    simp [readAt]
  · -- The rest behind the end of the ring, unless the offset of the end is too large to be
    -- computed.
    rw [if_neg fits, if_neg (by omega)]
    generalize leftover_eq : (if log.shpp.shPoolCreateLen + log.physLen < add64 start len then
      min (len - min len (log.shpp.shPoolCreateLen + log.physLen - start))
        (start + left - log.physLen - log.shpp.shPoolCreateLen) else 0) = leftover
    have leftover_le : leftover ≤
        min (len - min len (log.shpp.shPoolCreateLen + log.physLen - start))
          (start + left - log.physLen - log.shpp.shPoolCreateLen) := by
      rw [← leftover_eq]
      split <;> omega
    clear leftover_eq
    refine ⟨min len (log.shpp.shPoolCreateLen + log.physLen - start) + leftover, by omega, by omega,
      ?_⟩
    have first : min (min len (log.shpp.shPoolCreateLen + log.physLen - start) + leftover)
        (log.shpp.shPoolCreateLen + log.physLen - start) =
          min len (log.shpp.shPoolCreateLen + log.physLen - start) := by omega
    rw [first, Nat.add_sub_cancel_left]

/-- Before the ring `spa_history_get` returns the next bytes of the record of the creation. -/
theorem Keeps.get_creation {off : ℕ} (len : ℕ)
    (before : off < log.shpp.shPoolCreateLen) :
    ∃ count ≤ creation.length - off, (count = 0 → len = 0) ∧
    log.spaHistoryGet off len = (off + count, (creation.drop off).take count) := by
  have createLen_eq := keeps.createLen_eq
  refine ⟨min len (creation.length - off), by omega, by omega, ?_⟩
  have read : readAt log.object (0 + off) (min len (creation.length - off)) =
      ((readAt log.object 0 creation.length).drop off).take (min len (creation.length - off)) :=
    readAt_add (by omega)
  rw [keeps.creation_eq, zero_add] at read
  rw [createLen_eq] at before
  rw [spaHistoryGet]
  simp only [createLen_eq, if_pos before, read]

theorem Keeps.get {off : ℕ} (len : ℕ)
    (inside : log.streamPos off ≤ (stream creation kept).length) :
    ∃ count, (log.spaHistoryGet off len).2 =
        ((stream creation kept).drop (log.streamPos off)).take count ∧
      log.streamPos (log.spaHistoryGet off len).1 = log.streamPos off + count ∧
      log.streamPos off + count ≤ (stream creation kept).length ∧
      (count = 0 → len = 0 ∨ log.streamPos off = (stream creation kept).length) := by
  have createLen_eq := keeps.createLen_eq
  have bof_ge := keeps.createLen_le
  have room := keeps.room
  have eof_eq := keeps.eof_eq
  have stored := keeps.holds
  rw [append_nil] at room eof_eq stored
  have stream_length : (stream creation kept).length = creation.length + (frames kept).length :=
    length_append
  by_cases before : off < log.shpp.shPoolCreateLen
  · obtain ⟨count, within, stops, got⟩ := keeps.get_creation len before
    have pos_eq : log.streamPos off = off := if_pos before
    rw [got, pos_eq]
    refine ⟨count, ?_, ?_, by omega, fun zero => .inl (stops zero)⟩
    · rw [stream, drop_append_of_le_length (by omega),
        take_append_of_le_length (by rw [length_drop]; omega)]
    · rw [streamPos]
      split <;> omega
  · have pos_eq : log.streamPos off =
        creation.length + (max off log.shpp.shBof - log.shpp.shBof) := by
      rw [streamPos, if_neg before, createLen_eq]
    obtain ⟨count, within, stops, got⟩ := keeps.get_ring len (not_lt.mp before) (by omega)
    obtain ⟨skip, skip_eq⟩ := Nat.exists_eq_add_of_le (le_max_right off log.shpp.shBof)
    rw [skip_eq] at got pos_eq within stops
    rw [Nat.add_sub_cancel_left] at pos_eq
    rw [got, pos_eq]
    refine ⟨count, ?_, ?_, by omega, fun zero => ?_⟩
    · have passed : creation.drop (creation.length + skip) = [] :=
        drop_eq_nil_of_le (Nat.le_add_right _ _)
      rw [stored.ringRead bof_ge (by omega) room.le, stream, drop_append, passed,
        nil_append, Nat.add_sub_cancel_left]
    · rw [streamPos, if_neg (by omega), createLen_eq, max_eq_left (by omega)]
      omega
    · rcases stops zero with empty | done
      · exact .inl empty
      · right
        omega

theorem Keeps.gets {off : ℕ} (lens : List ℕ)
    (inside : log.streamPos off ≤ (stream creation kept).length) :
    ∃ count, (log.spaHistoryGets off lens).2 =
        ((stream creation kept).drop (log.streamPos off)).take count ∧
      log.streamPos (log.spaHistoryGets off lens).1 = log.streamPos off + count ∧
      log.streamPos off + count ≤ (stream creation kept).length := by
  induction lens generalizing off with
  | nil => exact ⟨0, by simp [spaHistoryGets], by simp [spaHistoryGets], inside⟩
  | cons len lens ih =>
    obtain ⟨first, got, moved, within, _⟩ := keeps.get len inside
    obtain ⟨rest, got', moved', within'⟩ := ih (by omega : log.streamPos
      (log.spaHistoryGet off len).1 ≤ _)
    refine ⟨first + rest, ?_, ?_, by omega⟩
    · rw [spaHistoryGets]
      rw [got, got', moved, take_add, drop_drop]
    · rw [spaHistoryGets]
      dsimp only
      omega

end HistoryLog

/-- The log holds the record of the creation and the last records, whole and in order, and counts
those that are lost; calls of `spa_history_get` return them. -/
theorem spa_history_suffix (dspace : ℕ) (creation : Option HistoryRecord)
    (records : List LaterRecord) :
    ∃ log lost kept, historyRun dspace creation records = .ok log ∧
    log.shpp.shBof ≤ log.shpp.shEof ∧
    log.shpp.shEof - log.shpp.shBof ≤ log.shpp.shPhysMaxOff - log.shpp.shPoolCreateLen ∧
    records.map LaterRecord.toHistoryRecord = lost ++ kept ∧
    log.shpp.shRecordsLost + kept.length = records.length ∧
    readAt log.object 0 log.shpp.shPoolCreateLen = creation.toList.flatMap HistoryRecord.framed ∧
    ∀ lens : List ℕ, ∃ count,
      (log.spaHistoryGets 0 lens).2 = ((creation.toList ++ kept).flatMap
        HistoryRecord.framed).take count ∧
      ∀ len, 0 < len → (log.spaHistoryGet (log.spaHistoryGets 0 lens).1 len).2 = [] →
        (log.spaHistoryGets 0 lens).2 = (creation.toList ++ kept).flatMap HistoryRecord.framed := by
  obtain ⟨log, lost, kept, ok, split, keeps, counted⟩ :=
    HistoryLog.historyRun_keeps dspace creation records
  have eof_eq := keeps.eof_eq
  have room := keeps.room
  have stream_eq : HistoryLog.stream (HistoryLog.frames creation.toList) kept =
      (creation.toList ++ kept).flatMap HistoryRecord.framed := flatMap_append.symm
  have start : log.streamPos 0 = 0 := by
    rw [HistoryLog.streamPos]
    split <;> omega
  refine ⟨log, lost, kept, ok, by omega, ?_, split, ?_, ?_, fun lens => ?_⟩
  · rw [eof_eq, Nat.add_sub_cancel_left]
    exact room.le
  · have length := congrArg length split
    rw [length_map, length_append] at length
    omega
  · rw [keeps.createLen_eq]
    exact keeps.creation_eq
  · obtain ⟨count, got, moved, within⟩ := keeps.gets lens (by omega : log.streamPos 0 ≤ _)
    rw [start, drop_zero, stream_eq] at got
    rw [start, zero_add] at moved within
    refine ⟨count, got, fun len positive nothing => ?_⟩
    obtain ⟨more, got', _, within', stops⟩ := keeps.get len (moved.le.trans within)
    have none : more = 0 := by
      have length := congrArg length (got'.symm.trans nothing)
      rw [length_take, length_drop, length_nil] at length
      omega
    have all : count = (HistoryLog.stream (HistoryLog.frames creation.toList) kept).length := by
      rcases stops none with empty | all
      · omega
      · exact moved.symm.trans all
    rw [got, all, stream_eq, take_length]

end Zfs
