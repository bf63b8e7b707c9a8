import Zfs.Metaslab.System

/-!
# The books of a metaslab

The sets that the maps of a metaslab and its object denote, by transaction group.  Every byte is
free, or allocated on disk or in one alloc map, possibly with a mark in one free map, or waits in
the freed map for its transaction group to be done.
-/

namespace Zfs

open Function

/-- The sets behind the maps of a metaslab. -/
structure Books where
  /-- The group to be synced. -/
  syncing : ℕ
  /-- What is allocated on disk. -/
  disk : Set ℕ
  /-- The allocation maps. -/
  alloc : ℕ → Set ℕ
  /-- The free maps; the one of the clean transaction group collects what has been freed. -/
  freed : ℕ → Set ℕ
  /-- The free map of the syncing transaction group has been collected but not written. -/
  walked : Prop

/-- Where a byte stands. -/
inductive Place where
  | free
  /-- Allocated on disk (`none`) or in an alloc map, and marked in a free map or not. -/
  | held (home mark : Option ℕ)
  /-- Freed in the syncing transaction group, and off the disk. -/
  | waiting
  deriving DecidableEq, Repr

/-- What the callers see of a byte at a place. -/
def Place.Shows (syncing : ℕ) : Place → ByteState → Prop
  | .free, state => state = .free
  | .held home none, state => ∃ birth, state = .allocated birth ∧ ∀ txg, home = some txg →
    syncing ≤ txg ∧ txg ≤ syncing + 2 ∧ (txg ≤ birth ∨ txg = syncing)
  | .held home (some mark), state => state = .freed mark ∧ syncing ≤ mark ∧ mark ≤ syncing + 2 ∧
    ∀ txg, home = some txg → syncing ≤ txg ∧ txg ≤ mark
  | .waiting, state => state = .freed syncing

/-- A byte at the place is recorded on disk. -/
def Place.OnDisk : Place → Prop
  | .held none _ => True
  | _ => False

/-- A byte at the place is in the alloc map of a transaction group. -/
def Place.InAlloc (txg : ℕ) : Place → Prop
  | .held (some home) _ => home = txg
  | _ => False

/-- A byte at the place is in the free map of a transaction group. -/
def Place.Marked (txg : ℕ) : Place → Prop
  | .held _ (some mark) => mark = txg
  | _ => False

/-- A byte at the place waits for its transaction group to be done. -/
def Place.Waits : Place → Prop
  | .waiting => True
  | _ => False

open Place

@[grind =] theorem Place.onDisk_held (home mark : Option ℕ) :
    (held home mark).OnDisk ↔ home = none := by
  cases home <;> simp [OnDisk]

@[grind =] theorem Place.inAlloc_held (txg : ℕ) (home mark : Option ℕ) :
    (held home mark).InAlloc txg ↔ home = some txg := by
  cases home <;> simp [InAlloc]

@[grind =] theorem Place.marked_held (txg : ℕ) (home mark : Option ℕ) :
    (held home mark).Marked txg ↔ mark = some txg := by
  cases mark <;> simp [Marked]

variable {syncing : ℕ} {place : Place}

theorem Place.Shows.eq_free (seen : place.Shows syncing .free) :
    place = .free := by
  match place, seen with
  | .free, _ => rfl
  | .held _ none, ⟨_, bad, _⟩ => cases bad
  | .held _ (some _), ⟨bad, _⟩ => cases bad

/-- The place of a byte that is allocated, as the callers see it. -/
theorem Place.Shows.eq_held {birth : ℕ} (seen : place.Shows syncing (.allocated birth)) :
    ∃ home, place = .held home none ∧ ∀ txg, home = some txg →
      syncing ≤ txg ∧ txg ≤ syncing + 2 ∧ (txg ≤ birth ∨ txg = syncing) := by
  match place, seen with
  | .held home none, ⟨_, same, bounds⟩ =>
    cases same
    exact ⟨home, rfl, bounds⟩
  | .held _ (some _), ⟨bad, _⟩ => cases bad

variable {state : ByteState}

theorem Place.Shows.free_iff (seen : place.Shows syncing state) :
    state = .free ↔ place = .free := by
  constructor
  · rintro rfl
    exact seen.eq_free
  · rintro rfl
    exact seen

variable {txg : ℕ}

theorem Place.InAlloc.eq_held (in_alloc : place.InAlloc txg) :
    ∃ mark, place = .held (some txg) mark := by
  match place, in_alloc with
  | .held (some _) mark, rfl => exact ⟨mark, rfl⟩

theorem Place.Marked.eq_held (marked : place.Marked txg) :
    ∃ home, place = .held home (some txg) := by
  match place, marked with
  | .held home (some _), rfl => exact ⟨home, rfl⟩

/-- Only the three groups that are not done have bytes in maps. -/
theorem Place.Shows.window (seen : place.Shows syncing state)
    (present : place.InAlloc txg ∨ place.Marked txg) :
    syncing ≤ txg ∧ txg ≤ syncing + 2 := by
  rcases present with in_alloc | marked
  · obtain ⟨mark, rfl⟩ := in_alloc.eq_held
    cases mark <;> grind [Shows]
  · obtain ⟨home, rfl⟩ := marked.eq_held
    exact ⟨seen.2.1, seen.2.2.1⟩

/-- A byte in no map of the syncing group is still seen when it is done. -/
theorem Place.Shows.advance (seen : place.Shows syncing state)
    (no_alloc : ¬place.InAlloc syncing) (no_mark : ¬place.Marked syncing)
    (settled : ¬place.Waits) :
    place.Shows (syncing + 1) state ∧ state ≠ .freed syncing := by
  match place, seen with
  | .free, same => exact ⟨same, by rw [show state = .free from same]; nofun⟩
  | .held home none, ⟨birth, same, bounds⟩ =>
    exact ⟨⟨birth, same, fun txg at_home => by grind⟩, by rw [same]; nofun⟩
  | .held home (some mark), ⟨same, lower, upper, bounds⟩ =>
    exact ⟨⟨same, by grind, by omega, fun txg at_home => by grind⟩, by grind⟩
  | .waiting, _ => exact absurd trivial settled

/-- A byte that is written is still seen in the same state. -/
theorem Place.Shows.write {mark : Option ℕ}
    (seen : Shows syncing (.held (some txg) mark) state) :
    Shows syncing (.held none mark) state := by
  cases mark with
  | none =>
    obtain ⟨birth, same, -⟩ := seen
    exact ⟨birth, same, nofun⟩
  | some mark =>
    obtain ⟨same, lower, upper, -⟩ := seen
    exact ⟨same, lower, upper, nofun⟩

namespace Books

/-- The sets in which a byte at a place is found. -/
structure Sits (books : Books) (byte : ℕ) (place : Place) : Prop where
  disk : byte ∈ books.disk ↔ place.OnDisk
  alloc : ∀ txg, books.syncing ≤ txg → txg ≤ books.syncing + 2 →
    (byte ∈ books.alloc txg ↔ place.InAlloc txg)
  freed : ∀ txg, books.syncing ≤ txg → txg ≤ books.syncing + 2 →
    (byte ∈ books.freed txg ↔ place.Marked txg)
  clean : byte ∈ books.freed (books.syncing + 3) ↔
    place.Waits ∨ books.walked ∧ place.Marked books.syncing

/-- Every byte has its place, and what is not free lies in the range. -/
structure Balance (books : Books) (range : Set ℕ) (ledger : Ledger) : Prop where
  /-- The clean group has no allocations. -/
  spare : books.alloc (books.syncing + 3) = ∅
  /-- What is in use lies in the range. -/
  inside : ∀ byte, ledger byte ≠ .free → byte ∈ range
  /-- Every byte has its place. -/
  places : ∀ byte, ∃ place, place.Shows books.syncing (ledger byte) ∧ books.Sits byte place

variable {books : Books} {range : Set ℕ} {ledger : Ledger}

/-- Only the sets of the four transaction groups matter. -/
theorem Balance.congr {books' : Books} (balance : books.Balance range ledger)
    (syncing : books'.syncing = books.syncing) (disk : books'.disk = books.disk)
    (alloc : ∀ txg, books.syncing ≤ txg → txg ≤ books.syncing + 3 →
      books'.alloc txg = books.alloc txg)
    (freed : ∀ txg, books.syncing ≤ txg → txg ≤ books.syncing + 3 →
      books'.freed txg = books.freed txg)
    (walked : books'.walked ↔ books.walked) : books'.Balance range ledger := by
  obtain ⟨spare, inside, places⟩ := balance
  refine ⟨by grind, inside, fun byte => ?_⟩
  obtain ⟨place, seen, on_disk, in_alloc, marked, clean⟩ := places byte
  exact ⟨place, by grind, by grind, by grind, by grind, by grind⟩

/-- The bytes of a region. -/
def region (offset size : ℕ) : Set ℕ := Set.Ico offset (offset + size)

variable {offset size byte : ℕ}

theorem ledger_set_of_mem {state : ByteState} (here : byte ∈ region offset size) :
    ledger.set offset size state byte = state := if_pos here

theorem ledger_set_of_notMem {state : ByteState} (elsewhere : byte ∉ region offset size) :
    ledger.set offset size state byte = ledger byte :=
  if_neg elsewhere

variable {txg : ℕ}

attribute [local grind =] OnDisk InAlloc Marked Waits update_apply Set.mem_union Set.mem_diff
attribute [local grind =] ledger_set_of_mem ledger_set_of_notMem

section

variable (balance : books.Balance range ledger)

include balance

theorem Balance.allocate (lower : books.syncing ≤ txg)
    (upper : txg ≤ books.syncing + 2) (inside : region offset size ⊆ range)
    (free : ∀ byte ∈ region offset size, ledger byte = .free) :
    { books with
      alloc := update books.alloc txg (books.alloc txg ∪ region offset size) }.Balance range
        (ledger.set offset size (.allocated txg)) := by
  obtain ⟨spare, used, places⟩ := balance
  refine ⟨by grind, by grind, fun byte => ?_⟩
  obtain ⟨place, seen, disk, alloc, freed, clean⟩ := places byte
  by_cases here : byte ∈ region offset size
  · rw [free byte here] at seen
    obtain rfl := seen.eq_free
    refine ⟨.held (some txg) none, ?_, ?_, ?_, ?_, ?_⟩ <;> grind [Shows]
  · exact ⟨place, by grind, by grind, by grind, by grind, by grind⟩

theorem Balance.freeLater (lower : books.syncing ≤ txg)
    (upper : txg ≤ books.syncing + 2) (settled : books.walked → txg ≠ books.syncing)
    (allocated : ∀ byte ∈ region offset size,
      ∃ birth, birth ≤ txg ∧ ledger byte = .allocated birth) :
    { books with
      freed := update books.freed txg (books.freed txg ∪ region offset size) }.Balance range
        (ledger.set offset size (.freed txg)) := by
  obtain ⟨spare, used, places⟩ := balance
  refine ⟨spare, by grind, fun byte => ?_⟩
  obtain ⟨place, seen, disk, alloc, freed, clean⟩ := places byte
  by_cases here : byte ∈ region offset size
  · obtain ⟨birth, old, same⟩ := allocated byte here
    rw [same] at seen
    obtain ⟨home, rfl, bounds⟩ := seen.eq_held
    refine ⟨.held home (some txg), ?_, ?_, ?_, ?_, ?_⟩ <;> grind [Shows]
  · exact ⟨place, by grind, by grind, by grind, by grind, by grind⟩

theorem Balance.freeNow (lower : books.syncing ≤ txg)
    (upper : txg ≤ books.syncing + 2) (recent : region offset size ⊆ books.alloc txg)
    (allocated : ∀ byte ∈ region offset size, ∃ birth, ledger byte = .allocated birth) :
    { books with
      alloc := update books.alloc txg (books.alloc txg \ region offset size) }.Balance range
        (ledger.set offset size .free) := by
  obtain ⟨spare, used, places⟩ := balance
  refine ⟨by grind, by grind, fun byte => ?_⟩
  obtain ⟨place, seen, disk, alloc, freed, clean⟩ := places byte
  by_cases here : byte ∈ region offset size
  · obtain ⟨birth, same⟩ := allocated byte here
    rw [same] at seen
    obtain ⟨home, rfl, -⟩ := seen.eq_held
    refine ⟨.free, ?_, ?_, ?_, ?_, ?_⟩ <;> grind [Shows]
  · exact ⟨place, by grind, by grind, by grind, by grind, by grind⟩

theorem Balance.walk (fresh : ¬books.walked) :
    { books with
      freed := update books.freed (books.syncing + 3)
        (books.freed (books.syncing + 3) ∪ books.freed books.syncing)
      walked := True }.Balance range ledger := by
  obtain ⟨spare, used, places⟩ := balance
  refine ⟨spare, used, fun byte => ?_⟩
  obtain ⟨place, seen, disk, alloc, freed, clean⟩ := places byte
  exact ⟨place, seen, disk, alloc, by grind, by grind⟩

theorem Balance.writeAllocs :
    { books with
      disk := books.disk ∪ books.alloc books.syncing
      alloc := update books.alloc books.syncing ∅ }.Balance range ledger := by
  obtain ⟨spare, used, places⟩ := balance
  refine ⟨by grind, used, fun byte => ?_⟩
  obtain ⟨place, seen, disk, alloc, freed, clean⟩ := places byte
  by_cases in_alloc : place.InAlloc books.syncing
  · -- the byte moves from the alloc map to the disk
    obtain ⟨mark, rfl⟩ := in_alloc.eq_held
    refine ⟨.held none mark, seen.write, ?_, ?_, ?_, ?_⟩ <;> grind
  · exact ⟨place, seen, by grind, by grind, freed, clean⟩

theorem Balance.writeFrees (walked : books.walked)
    (written : books.alloc books.syncing = ∅) :
    { books with
      disk := books.disk \ books.freed books.syncing
      freed := update books.freed books.syncing ∅
      walked := False }.Balance range ledger ∧ books.freed books.syncing ⊆ books.disk := by
  have home_eq : ∀ byte place, place.Shows books.syncing (ledger byte) → books.Sits byte place →
      place.Marked books.syncing → place = .held none (some books.syncing) := by
    intro byte place seen sits marked
    obtain ⟨home, rfl⟩ := marked.eq_held
    cases home with
    | none => rfl
    | some home =>
      obtain ⟨-, -, -, bounds⟩ := seen
      obtain rfl : home = books.syncing := by have := bounds home rfl; omega
      have inside := (sits.alloc _ le_rfl (by omega)).mpr rfl
      rw [written] at inside
      cases inside
  refine ⟨⟨balance.spare, balance.inside, fun byte => ?_⟩, fun byte marked => ?_⟩
  · obtain ⟨place, seen, sits⟩ := balance.places byte
    have whole := sits
    obtain ⟨disk, alloc, freed, clean⟩ := sits
    by_cases marked : place.Marked books.syncing
    · -- the byte leaves the disk and waits
      obtain rfl := home_eq byte place seen whole marked
      exact ⟨.waiting, seen.1, by grind, by grind, by grind, by grind⟩
    · exact ⟨place, seen, by grind, alloc, by grind, by grind⟩
  · obtain ⟨place, seen, sits⟩ := balance.places byte
    obtain rfl := home_eq byte place seen sits ((sits.freed _ le_rfl (by omega)).mp marked)
    exact sits.disk.mpr trivial

/-- Whether an empty free map has been collected does not matter. -/
theorem Balance.settle (no_frees : books.freed books.syncing = ∅) (walked : Prop) :
    { books with walked := walked }.Balance range ledger := by
  obtain ⟨spare, inside, places⟩ := balance
  refine ⟨spare, inside, fun byte => ?_⟩
  obtain ⟨place, seen, disk, alloc, freed, clean⟩ := places byte
  have unmarked : ¬place.Marked books.syncing := by
    rw [← freed _ le_rfl (by omega), no_frees]
    exact Set.notMem_empty byte
  exact ⟨place, seen, disk, alloc, freed, by simpa [unmarked] using clean⟩

/-- While nothing waits, the disk has what is not free. -/
theorem Balance.used_iff_disk
    (no_allocs : ∀ txg, books.syncing ≤ txg → txg ≤ books.syncing + 2 → books.alloc txg = ∅)
    (no_waits : books.freed (books.syncing + 3) = ∅) (byte : ℕ) :
    ledger byte ≠ .free ↔ byte ∈ books.disk := by
  obtain ⟨place, seen, sits⟩ := balance.places byte
  rw [sits.disk, ne_eq, seen.free_iff]
  match place with
  | .free => simp [OnDisk]
  | .held none _ => simp [OnDisk]
  | .held (some home) _ =>
    obtain ⟨lower, upper⟩ := seen.window (.inl rfl)
    have member := (sits.alloc home lower upper).mpr rfl
    rw [no_allocs home lower upper] at member
    cases member
  | .waiting =>
    have member := sits.clean.mpr (.inl trivial)
    rw [no_waits] at member
    cases member

/-- The freed map has what the syncing group freed, once that is written. -/
theorem Balance.mem_freed_iff (no_frees : books.freed books.syncing = ∅) (byte : ℕ) :
    byte ∈ books.freed (books.syncing + 3) ↔ ledger byte = .freed books.syncing := by
  obtain ⟨place, seen, sits⟩ := balance.places byte
  rw [sits.clean]
  match place, seen with
  | .free, same => simp [Waits, Marked, show ledger byte = .free from same]
  | .held _ none, ⟨birth, same, _⟩ => simp [Waits, Marked, same]
  | .held _ (some mark), ⟨same, _⟩ =>
    have other : mark ≠ books.syncing := by
      rintro rfl
      have member := (sits.freed _ le_rfl (by omega)).mpr rfl
      rw [no_frees] at member
      cases member
    simp [Waits, Marked, same, other]
  | .waiting, same => simp [Waits, show ledger byte = .freed _ from same]

/-- The syncing transaction group is done: what it has freed is free. -/
theorem Balance.release
    (no_allocs : books.alloc books.syncing = ∅) (no_frees : books.freed books.syncing = ∅)
    {books' : Books} (syncing : books'.syncing = books.syncing + 1)
    (disk : books'.disk = books.disk)
    (alloc : ∀ txg, books.syncing + 1 ≤ txg → txg ≤ books.syncing + 3 →
      books'.alloc txg = books.alloc txg)
    (freed : ∀ txg, books.syncing + 1 ≤ txg → txg ≤ books.syncing + 2 →
      books'.freed txg = books.freed txg)
    (emptied : books'.freed (books.syncing + 3) = ∅)
    (spare : books'.alloc (books.syncing + 4) = ∅) (clean : books'.freed (books.syncing + 4) = ∅)
    (settled' : ¬books'.walked) : books'.Balance range (ledger.release books.syncing) := by
  obtain ⟨no_spare, inside, places⟩ := balance
  refine ⟨by grind, fun byte used => inside byte fun none => used (by simp [Ledger.release, none]),
    fun byte => ?_⟩
  obtain ⟨place, seen, on_disk, in_alloc, marked, waits_iff⟩ := places byte
  have window : ∀ txg, place.InAlloc txg ∨ place.Marked txg → _ := fun _ => seen.window
  by_cases waits : place.Waits
  · match place, waits with
    | .waiting, _ => exact ⟨.free, if_pos seen, by grind, by grind, by grind, by grind⟩
  · obtain ⟨seen', other⟩ := seen.advance (by grind) (by grind) waits
    refine ⟨place, ?_, by grind, by grind, by grind, by grind⟩
    rw [Ledger.release, if_neg other, syncing]
    exact seen'

end

/-- What a condensed alloc map holds. -/
def condensed (books : Books) (range : Set ℕ) (ledger : Ledger) : Set ℕ :=
  {byte | byte ∈ range ∧ ledger byte ≠ .free ∧ byte ∉ books.freed (books.syncing + 3) ∧
    byte ∉ books.alloc (books.syncing + 1) ∧ byte ∉ books.alloc (books.syncing + 2)}

/-- The alloc map is made anew, for a log that is started again. -/
theorem Balance.condense (balance : books.Balance range ledger) (walked : books.walked) :
    { books with
      disk := ∅
      alloc := update books.alloc books.syncing (books.condensed range ledger)
      freed := update books.freed books.syncing ∅ }.Balance range ledger := by
  refine ⟨?_, balance.inside, fun byte => ?_⟩
  · have spare := balance.spare
    grind
  · obtain ⟨place, seen, disk, alloc, freed, clean⟩ := balance.places byte
    have next := alloc (books.syncing + 1) (by omega) (by omega)
    have last := alloc (books.syncing + 2) (by omega) le_rfl
    have member : byte ∈ books.condensed range ledger ↔ place ≠ .free ∧ ¬place.Waits ∧
        ¬place.Marked books.syncing ∧ ¬place.InAlloc (books.syncing + 1) ∧
        ¬place.InAlloc (books.syncing + 2) := by
      simp only [condensed, Set.mem_ofPred_eq, clean, next, last, walked, true_and, not_or, ne_eq,
        seen.free_iff, and_assoc]
      exact and_iff_right_of_imp fun used => balance.inside byte (seen.free_iff.not.mpr used.1)
    match place with
    | .free => exact ⟨.free, seen, by grind, by grind, by grind, by grind⟩
    | .waiting => exact ⟨.waiting, seen, by grind, by grind, by grind, by grind⟩
    | .held home mark =>
      by_cases marked : mark = some books.syncing
      · -- what was freed is only in the freed map from now on
        subst marked
        obtain ⟨same, -, -, bounds⟩ := seen
        exact ⟨.waiting, same, by grind, by grind, by grind, by grind⟩
      · by_cases later : home = some (books.syncing + 1) ∨ home = some (books.syncing + 2)
        · -- what is allocated later stays in its map
          exact ⟨.held home mark, seen, by grind, by grind, by grind, by grind⟩
        · -- everything else is entered into the new map
          refine ⟨.held (some books.syncing) mark, ?_, by grind, by grind, by grind, by grind⟩
          cases mark <;> grind [Shows]

end Books

end Zfs
