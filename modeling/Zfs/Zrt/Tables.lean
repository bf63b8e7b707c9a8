import Zfs.Machine
import Zfs.Library.LowestSlot

/-!
# Handles and open file descriptions

The two tables of the top level file system: the handles of `handle_allocator.c` and the open file
descriptions of `open_file_description.c`, which handles name by number.  Both are searched from a
hint that is moved to the slot last found and lowered on release.
-/

namespace Zfs.Zrt

open LowestSlot Function

@[irreducible] def maxHandlesCount : ℕ := 1000

/-- `struct HandleItem` of a handle in use. -/
structure HandleItem where
  inode : ℤ
  /-- The number of the open file description. -/
  openFileDescriptionId : ℤ
  deriving DecidableEq

structure OpenFileDescription where
  /-- The offset of the channel. -/
  channelSequentialOffset : ℤ
  /-- Where the next transfer starts. -/
  offset : ℤ
  /-- The flags that the file was opened with. -/
  flags : BitVec 32
  deriving DecidableEq

/-- The two tables. -/
structure Tables where
  /-- `s_handle_slots`; a handle that is not in use is `none`. -/
  handleSlots : ℕ → Option HandleItem
  /-- `s_first_unused_slot` of the handles. -/
  firstUnusedHandle : ℤ
  /-- The reference counts of `s_open_files_array`, each an `int`. -/
  refcount : ℕ → ℤ
  /-- The descriptions of `s_open_files_array`. -/
  openFiles : ℕ → OpenFileDescription
  /-- `s_first_unused_slot` of the descriptions. -/
  firstUnusedOfd : ℤ

/-- The `++` of an `int`. -/
def increment (count : ℤ) : ℤ := (count + 1).bmod (2 ^ 32)

namespace Tables

variable (tables : Tables)

/-- The slot is `EHandleAvailable`. -/
def handleFree (slot : ℕ) : Bool := (tables.handleSlots slot).isNone

/-- The description is not in use. -/
def ofdFree (slot : ℕ) : Bool := tables.refcount slot == 0

variable (item : HandleItem) (handle id : ℤ)

/-- The range of `VERIFY_HANDLE` and `VERIFY_OFD`. -/
def InRange : Prop := 0 ≤ id ∧ id < maxHandlesCount

instance (id : ℤ) : Decidable (InRange id) := inferInstanceAs (Decidable (_ ∧ _))

def allocateHandle : ℤ × Tables :=
  let slot := seek tables.handleFree maxHandlesCount tables.firstUnusedHandle
  if slot = -1 then (-1, { tables with firstUnusedHandle := -1 })
  else (slot, { tables with
    firstUnusedHandle := slot
    handleSlots := update tables.handleSlots slot.toNat (some item) })

def allocateHandle2 : ℤ × Tables :=
  if InRange handle ∧ tables.handleFree handle.toNat then
    (handle, { tables with
      handleSlots := update tables.handleSlots handle.toNat (some item) })
  else (-1, tables)

/-- `entry` of the handle allocator. -/
def entry : Option HandleItem :=
  if InRange handle then tables.handleSlots handle.toNat else none

def freeHandle : ℤ × Tables :=
  if (tables.entry handle).isSome then
    (0, { tables with
      handleSlots := update tables.handleSlots handle.toNat none
      firstUnusedHandle :=
        if handle < tables.firstUnusedHandle then handle else tables.firstUnusedHandle })
  else (-1, tables)

def VerifyOfd : Prop := InRange id ∧ 0 < tables.refcount id.toNat

instance (id : ℤ) : Decidable (tables.VerifyOfd id) := inferInstanceAs (Decidable (_ ∧ _))

def getnewOfd (flags : BitVec 32) : ℤ × Tables :=
  let slot := seek tables.ofdFree maxHandlesCount tables.firstUnusedOfd
  if slot = -1 then (-1, { tables with firstUnusedOfd := -1 })
  else (slot, { tables with
    firstUnusedOfd := slot
    refcount := update tables.refcount slot.toNat (increment (tables.refcount slot.toNat))
    openFiles := update tables.openFiles slot.toNat ⟨0, 0, flags⟩ })

def referOfd : ℤ × Tables :=
  if tables.VerifyOfd id then
    (0, { tables with
      refcount := update tables.refcount id.toNat (increment (tables.refcount id.toNat)) })
  else (-1, tables)

def releaseOfd : ℤ × Tables :=
  if tables.VerifyOfd id then
    (0, { tables with
      refcount := update tables.refcount id.toNat (tables.refcount id.toNat - 1)
      firstUnusedOfd :=
        -- set lowest available slot
        if tables.refcount id.toNat - 1 = 0 then
          if id < tables.firstUnusedOfd then id else tables.firstUnusedOfd
        else tables.firstUnusedOfd })
  else (-1, tables)

/-- `ofd` of the open files pool. -/
def poolOfd : Option OpenFileDescription :=
  if tables.VerifyOfd id then some (tables.openFiles id.toNat) else none

/-- `ofd` of the handle allocator. -/
def ofd : Option OpenFileDescription :=
  (tables.entry handle).bind fun item => tables.poolOfd item.openFileDescriptionId

def setOffset (offset : ℤ) : ℤ × Tables :=
  if tables.VerifyOfd id then
    (0, { tables with
      openFiles := update tables.openFiles id.toNat
        { tables.openFiles id.toNat with offset := offset } })
  else (-1, tables)

/-- Both hints are right, and nothing is in use beyond the tables. -/
structure Wf : Prop where
  /-- The first free handle is known. -/
  handles : Valid tables.handleFree maxHandlesCount tables.firstUnusedHandle
  /-- So is the first free description. -/
  ofds : Valid tables.ofdFree maxHandlesCount tables.firstUnusedOfd
  /-- No handle is beyond the table. -/
  inside : ∀ slot item, tables.handleSlots slot = some item → slot < maxHandlesCount
  /-- The counts are values of an `int`. -/
  counts : ∀ id, tables.refcount id < 2 ^ 31

variable {tables}

theorem increment_lt (count : ℤ) : increment count < 2 ^ 31 :=
  Int.bmod_lt (by decide)

theorem increment_eq {count : ℤ} (positive : 0 ≤ count) (small : count < 2 ^ 31 - 1) :
    increment count = count + 1 :=
  Int.bmod_eq_of_le (by omega) (by omega)

/-- The counter passes over to negative values, not to zero. -/
theorem increment_ne_zero {count : ℤ} (positive : 0 < count) (small : count < 2 ^ 31) :
    increment count ≠ 0 := by
  rcases lt_or_ge count (2 ^ 31 - 1) with below | last
  · rw [increment_eq positive.le below]
    omega
  · rw [show count = 2 ^ 31 - 1 by omega]
    decide

theorem increment_max {count : ℤ} (small : count < 2 ^ 31) (last : 2 ^ 31 - 1 ≤ count) :
    increment count ≠ count + 1 := by
  rw [show count = 2 ^ 31 - 1 by omega]
  decide

theorem entry_nat {slot : ℕ} (inside : slot < maxHandlesCount) :
    tables.entry slot = tables.handleSlots slot := by
  simp [entry, InRange, inside]

theorem entry_eq_some {handle : ℤ} {item : HandleItem} : tables.entry handle = some item ↔
    ∃ slot : ℕ, slot < maxHandlesCount ∧ handle = slot ∧ tables.handleSlots slot = some item := by
  constructor
  · intro found
    by_cases range : InRange handle
    · rw [entry, if_pos range] at found
      unfold InRange at range
      exact ⟨handle.toNat, by omega, by omega, found⟩
    · simp [entry, range] at found
  · rintro ⟨slot, inside, rfl, found⟩
    rwa [entry_nat inside]

theorem verifyOfd_iff {id : ℤ} :
    tables.VerifyOfd id ↔
      ∃ slot : ℕ, slot < maxHandlesCount ∧ id = slot ∧ 0 < tables.refcount slot := by
  unfold VerifyOfd InRange
  exact ⟨fun ⟨range, live⟩ => ⟨id.toNat, by omega, by omega, live⟩,
    fun ⟨slot, inside, same, live⟩ => by
    subst same
    exact ⟨⟨by omega, by omega⟩, live⟩⟩

variable (wf : tables.Wf)

include wf

/-- What `allocate_handle` returns is the lowest available slot, or `-1`. -/
theorem allocateHandle_cases (item : HandleItem) :
    Lowest tables.handleFree maxHandlesCount (tables.allocateHandle item).1 ∧
    (tables.allocateHandle item).2.Wf ∧
    ((∃ slot : ℕ, slot < maxHandlesCount ∧ (tables.allocateHandle item).1 = slot ∧
        tables.handleSlots slot = none ∧
        (tables.allocateHandle item).2 = { tables with
          firstUnusedHandle := slot
          handleSlots := update tables.handleSlots slot (some item) }) ∨
      (tables.allocateHandle item).1 = -1 ∧
      (∀ slot < maxHandlesCount, tables.handleSlots slot ≠ none) ∧
      (tables.allocateHandle item).2 = { tables with firstUnusedHandle := -1 }) := by
  have lowest := wf.handles.lowest_seek
  unfold allocateHandle
  obtain ⟨slot, inside, found, free, none_below⟩ | ⟨missing, full⟩ := lowest
  · simp only [found, show (slot : ℤ) ≠ -1 by omega, if_false, Int.toNat_natCast]
    refine ⟨.inl ⟨slot, inside, rfl, free, none_below⟩, ⟨?_, wf.ofds, ?_, wf.counts⟩,
      .inl ⟨slot, inside, rfl, by simpa [handleFree] using free, rfl⟩⟩
    · refine (show Lowest tables.handleFree maxHandlesCount slot from
        .inl ⟨slot, inside, rfl, free, none_below⟩).valid fun other used => ?_
      by_cases same : other = slot <;> simp_all [handleFree]
    · intro other held used
      by_cases same : other = slot
      · exact same ▸ inside
      · exact wf.inside other held (by simpa [same] using used)
  · simp only [missing, if_true]
    exact ⟨.inr ⟨rfl, full⟩, ⟨(show Lowest tables.handleFree maxHandlesCount (-1) from
      .inr ⟨rfl, full⟩).valid fun _ used => used, wf.ofds, wf.inside, wf.counts⟩,
      .inr ⟨trivial, fun slot inside free => by simpa [handleFree, free] using full slot inside,
        trivial⟩⟩

/-- `getnew_ofd` returns a description not in use, or `-1`. -/
theorem getnewOfd_cases (flags : BitVec 32) :
    (tables.getnewOfd flags).2.Wf ∧
    ((∃ id : ℕ, id < maxHandlesCount ∧ (tables.getnewOfd flags).1 = id ∧ tables.refcount id = 0 ∧
        (tables.getnewOfd flags).2 = { tables with
          firstUnusedOfd := id
          refcount := update tables.refcount id 1
          openFiles := update tables.openFiles id ⟨0, 0, flags⟩ }) ∨
      (tables.getnewOfd flags).1 = -1 ∧ (∀ id < maxHandlesCount, tables.refcount id ≠ 0) ∧
      (tables.getnewOfd flags).2 = { tables with firstUnusedOfd := -1 }) := by
  have lowest := wf.ofds.lowest_seek
  unfold getnewOfd
  obtain ⟨slot, inside, found, free, none_below⟩ | ⟨missing, full⟩ := lowest
  · have unused : tables.refcount slot = 0 := by simpa [ofdFree] using free
    have first : increment 0 = 1 := by decide
    simp only [found, show (slot : ℤ) ≠ -1 by omega, if_false, Int.toNat_natCast, unused, first]
    refine ⟨⟨wf.handles, ?_, wf.inside, fun other => ?_⟩, .inl ⟨slot, inside, rfl, unused, rfl⟩⟩
    · refine (show Lowest tables.ofdFree maxHandlesCount slot from
        .inl ⟨slot, inside, rfl, free, none_below⟩).valid fun other used => ?_
      by_cases same : other = slot <;> simp_all [ofdFree]
    · by_cases same : other = slot
      · simp [same]
      · simpa [same] using wf.counts other
  · simp only [missing, if_true]
    refine ⟨⟨wf.handles, ?_, wf.inside, wf.counts⟩,
      .inr ⟨trivial, fun id inside unused => ?_, trivial⟩⟩
    · exact (show Lowest tables.ofdFree maxHandlesCount (-1) from
        .inr ⟨rfl, full⟩).valid fun _ used => used
    · simpa [ofdFree, unused] using full id inside

theorem allocateHandle2_cases (item : HandleItem) (handle : ℤ) :
    tables.allocateHandle2 item handle = (-1, tables) ∨
      ∃ (slot : ℕ) (next : Tables), handle = slot ∧
      tables.allocateHandle2 item handle = (handle, next) ∧
      next.Wf ∧ tables.handleSlots slot = none ∧ next.refcount = tables.refcount ∧
      next.handleSlots = update tables.handleSlots slot (some item) := by
  rw [allocateHandle2]
  split_ifs with available
  · obtain ⟨⟨lower, upper⟩, free⟩ := available
    refine .inr ⟨handle.toNat, _, by omega, rfl,
      ⟨?_, wf.ofds, fun other held used => ?_, wf.counts⟩, by simpa [handleFree] using free,
      rfl, rfl⟩
    · refine wf.handles.mono fun other used => ?_
      by_cases same : other = handle.toNat <;> simp_all [handleFree]
    · by_cases same : other = handle.toNat
      · omega
      · exact wf.inside other held (by simpa [same] using used)
  · exact .inl rfl

theorem freeHandle_cases (handle : ℤ) :
    tables.freeHandle handle = (-1, tables) ∧ tables.entry handle = none ∨
      ∃ (slot : ℕ) (next : Tables), handle = slot ∧ tables.freeHandle handle = (0, next) ∧ next.Wf ∧
      next.refcount = tables.refcount ∧
      next.handleSlots = update tables.handleSlots slot none := by
  rw [freeHandle]
  cases found : tables.entry handle with
  | none => exact .inl ⟨rfl, rfl⟩
  | some item =>
    obtain ⟨slot, inside, rfl, -⟩ := entry_eq_some.mp found
    refine .inr ⟨slot, _, rfl, if_pos rfl, ⟨wf.handles.lower fun other different => ?_, wf.ofds,
      fun other item held => ?_, wf.counts⟩, rfl, rfl⟩
    · simp [handleFree, update_of_ne (show other ≠ slot by omega)]
    · by_cases same : other = slot
      · exact same ▸ inside
      · exact wf.inside other item (by simpa [same] using held)

theorem referOfd_cases (id : ℤ) :
    tables.referOfd id = (-1, tables) ∧ ¬tables.VerifyOfd id ∨
      ∃ (slot : ℕ) (next : Tables), id = slot ∧ tables.referOfd id = (0, next) ∧ next.Wf ∧
      next.handleSlots = tables.handleSlots ∧ 0 < tables.refcount slot ∧
      next.refcount = update tables.refcount slot (increment (tables.refcount slot)) := by
  rw [referOfd]
  split_ifs with live
  · obtain ⟨slot, inside, rfl, positive⟩ := verifyOfd_iff.mp live
    refine .inr ⟨slot, _, rfl, rfl,
      ⟨wf.handles, wf.ofds.mono fun other used => ?_, wf.inside, fun other => ?_⟩, rfl, positive,
      rfl⟩
    · by_cases same : other = slot
      · simpa [ofdFree, same] using increment_ne_zero positive (wf.counts slot)
      · simpa [ofdFree, same] using used
    · by_cases same : other = slot
      · simpa [same] using increment_lt _
      · simpa [same] using wf.counts other
  · exact .inl ⟨rfl, live⟩

theorem releaseOfd_cases (id : ℤ) :
    tables.releaseOfd id = (-1, tables) ∧ ¬tables.VerifyOfd id ∨
      ∃ (slot : ℕ) (next : Tables), id = slot ∧ slot < maxHandlesCount ∧ 0 < tables.refcount slot ∧
      tables.releaseOfd id = (0, next) ∧ next.Wf ∧ next.handleSlots = tables.handleSlots ∧
      next.openFiles = tables.openFiles ∧
      next.refcount = update tables.refcount slot (tables.refcount slot - 1) := by
  rw [releaseOfd]
  by_cases live : tables.VerifyOfd id
  · obtain ⟨slot, inside, rfl, positive⟩ := verifyOfd_iff.mp live
    refine .inr ⟨slot, _, rfl, inside, positive, if_pos live,
      ⟨wf.handles, ?_, wf.inside, fun other => ?_⟩, rfl, rfl, rfl⟩
    · simp only [Int.toNat_natCast]
      by_cases last : tables.refcount slot - 1 = 0
      · rw [if_pos last]
        refine wf.ofds.lower fun other different => ?_
        simp [ofdFree, update_of_ne (show other ≠ slot by omega)]
      · rw [if_neg last]
        refine wf.ofds.mono fun other used => ?_
        by_cases same : other = slot <;> simp_all [ofdFree]
    · have := wf.counts other
      by_cases same : other = slot
      · simp only [same, Int.toNat_natCast, update_self]
        rw [same] at this
        omega
      · simpa [same] using this
  · exact .inl ⟨if_neg live, live⟩

end Tables

end Zfs.Zrt
