import Zfs.Metaslab.SyncDone

/-!
# Runs of a metaslab

Along every interleaving of the threads of a metaslab each byte is in exactly one state, which the
maps show, and what is handed out was free.
-/

namespace Zfs

open BalancedTree BalTree Segments Books Except

variable {byte : ℕ} {place : Place} {world : MetaslabState × Ledger} {action : MetaslabAction}
  {next : MetaslabState}

namespace Books

variable {books : Books} {range : Set ℕ} {ledger : Ledger}

/-- What the disk or an alloc map has. -/
def held (books : Books) : Set ℕ :=
  {byte | byte ∈ books.disk ∨
    ∃ txg, books.syncing ≤ txg ∧ txg ≤ books.syncing + 2 ∧ byte ∈ books.alloc txg}

/-- What a free map has, that of the clean group included. -/
def pending (books : Books) : Set ℕ :=
  {byte | ∃ txg, books.syncing ≤ txg ∧ txg ≤ books.syncing + 3 ∧ byte ∈ books.freed txg}

/-- The sets show the state of every byte. -/
structure Partition (books : Books) (ledger : Ledger) : Prop where
  free : ∀ byte, ledger byte = .free ↔ byte ∉ books.held ∧ byte ∉ books.pending
  allocated : ∀ byte, (∃ birth, ledger byte = .allocated birth) ↔
    byte ∈ books.held ∧ byte ∉ books.pending
  freed : ∀ byte, (∃ txg, ledger byte = .freed txg) ↔ byte ∈ books.pending
  disk_alloc : ∀ txg, books.syncing ≤ txg → txg ≤ books.syncing + 2 →
    Disjoint books.disk (books.alloc txg)
  alloc_alloc : ∀ first second, books.syncing ≤ first → first ≤ books.syncing + 2 →
    books.syncing ≤ second → second ≤ books.syncing + 2 → first ≠ second →
      Disjoint (books.alloc first) (books.alloc second)
  freed_freed : ∀ first second, books.syncing ≤ first → first ≤ books.syncing + 2 →
    books.syncing ≤ second → second ≤ books.syncing + 2 → first ≠ second →
      Disjoint (books.freed first) (books.freed second)

theorem Sits.held_iff (sits : books.Sits byte place)
    (seen : place.Shows books.syncing (ledger byte)) :
    byte ∈ books.held ↔ ∃ home mark, place = .held home mark := by
  constructor
  · rintro (on_disk | ⟨txg, lower, upper, in_alloc⟩)
    · match place, sits.disk.mp on_disk with
      | .held none mark, _ => exact ⟨none, mark, rfl⟩
    · obtain ⟨mark, rfl⟩ := ((sits.alloc txg lower upper).mp in_alloc).eq_held
      exact ⟨some txg, mark, rfl⟩
  · rintro ⟨home, mark, rfl⟩
    cases home with
    | none => exact .inl (sits.disk.mpr trivial)
    | some txg =>
      obtain ⟨lower, upper⟩ := seen.window (.inl rfl)
      exact .inr ⟨txg, lower, upper, (sits.alloc txg lower upper).mpr rfl⟩

theorem Sits.pending_iff (sits : books.Sits byte place)
    (seen : place.Shows books.syncing (ledger byte)) :
    byte ∈ books.pending ↔ place = .waiting ∨ ∃ home txg, place = .held home (some txg) := by
  constructor
  · rintro ⟨txg, lower, upper, in_freed⟩
    have marked : place = .waiting ∨ ∃ txg, place.Marked txg := by
      rcases Nat.lt_or_ge txg (books.syncing + 3) with below | last
      · exact .inr ⟨txg, (sits.freed txg lower (by omega)).mp in_freed⟩
      · obtain rfl : txg = books.syncing + 3 := by omega
        rcases sits.clean.mp in_freed with waits | ⟨-, marked⟩
        · match place, waits with
          | .waiting, _ => exact .inl rfl
        · exact .inr ⟨_, marked⟩
    rcases marked with waits | ⟨txg, marked⟩
    · exact .inl waits
    · obtain ⟨home, rfl⟩ := marked.eq_held
      exact .inr ⟨home, txg, rfl⟩
  · rintro (rfl | ⟨home, txg, rfl⟩)
    · exact ⟨books.syncing + 3, by omega, le_rfl, sits.clean.mpr (.inl trivial)⟩
    · obtain ⟨lower, upper⟩ := seen.window (.inr rfl)
      exact ⟨txg, lower, by omega, (sits.freed txg lower upper).mpr rfl⟩

/-- Balanced books show the states. -/
theorem Balance.partition (balance : books.Balance range ledger) : books.Partition ledger := by
  refine ⟨fun byte => ?_, fun byte => ?_, fun byte => ?_, fun txg lower upper => ?_,
    fun first second first_lower first_upper lower upper other => ?_,
    fun first second first_lower first_upper lower upper other => ?_⟩
  · obtain ⟨place, seen, sits⟩ := balance.places byte
    rw [seen.free_iff, sits.held_iff seen, sits.pending_iff seen]
    cases place <;> simp
  · obtain ⟨place, seen, sits⟩ := balance.places byte
    rw [sits.held_iff seen, sits.pending_iff seen]
    rcases place with _ | ⟨home, _ | mark⟩ | _ <;> grind [Place.Shows]
  · obtain ⟨place, seen, sits⟩ := balance.places byte
    rw [sits.pending_iff seen]
    rcases place with _ | ⟨home, _ | mark⟩ | _ <;> grind [Place.Shows]
  all_goals
    rw [Set.disjoint_left]
    intro byte in_first in_second
    obtain ⟨place, -, disk, alloc, freed, -⟩ := balance.places byte
    grind [Place.InAlloc.eq_held, Place.Marked.eq_held]

end Books

namespace MetaslabState

variable {geometry : MetaslabGeometry} {state : MetaslabState} {ledger : Ledger}

/-- A metaslab as its first `metaslab_sync_done` leaves it. -/
structure Fresh (range : SpaceMap) (smo : SpaceMapObj) (msp : Metaslab) : Prop where
  allocmaps : ∀ slot, MapOk range (msp.msAllocmap slot)
  allocs : ∀ txg, msp.allocPoints txg = ∅
  freemaps : ∀ slot, MapOk range (msp.msFreemap slot)
  frees : ∀ txg, msp.freePoints txg = ∅
  map : MapOk range msp.msMap
  flag : msp.msMap.smLoaded = false
  empty : msp.msMap.points = ∅
  object : msp.msSmo = smo
  syncing : msp.msSmoSyncing = smo
  inactive : ¬msp.Active

theorem fresh_of_init {smo : SpaceMapObj} (alloc_le : smo.smoAlloc ≤ geometry.range.smSize)
    {txg : ℕ} {msp : Metaslab}
    (done : metaslabSyncDone false geometry.vd txg (metaslabInit smo geometry.range.smStart
      geometry.range.smSize geometry.range.smShift) = .ok msp) : Fresh geometry.range smo msp := by
  let range := geometry.range
  let created := spaceMapCreate range.smStart range.smSize range.smShift
  have ok : MapOk range created := ⟨wf_spaceMapCreate _ _ _, ⟨rfl, rfl, rfl⟩⟩
  have empty : created.points = ∅ := points_spaceMapCreate _ _ _
  have absent : ((metaslabInit smo range.smStart range.smSize range.smShift).msFreemap
      (txgSlot (txgClean txg))).smSize = 0 := rfl
  rw [metaslabSyncDone, syncDoneCreate, if_pos absent] at done
  obtain ⟨sm, back, rest⟩ := bind_ok done
  obtain rfl : created = sm := Except.ok.inj back
  rw [syncDoneEvict, if_neg fun evict => Bool.false_ne_true evict.1] at rest
  cases rest
  have freemap : ∀ slot, MapOk range ((Function.update (fun _ => created) (txgSlot (txgClean txg))
      (spaceMapEmpty created)) slot) ∧ ((Function.update (fun _ => created) (txgSlot (txgClean txg))
        (spaceMapEmpty created)) slot).points = ∅ := by
    intro slot
    by_cases here : slot = txgSlot (txgClean txg)
    · subst here
      rw [Function.update_self]
      exact ⟨mapOk_empty ok, points_spaceMapEmpty created⟩
    · rw [Function.update_of_ne here]
      exact ⟨ok, empty⟩
  refine ⟨fun _ => ok, fun _ => empty, fun slot => (freemap slot).1,
    fun other => ?_, ok, rfl, empty, rfl, rfl, ?_⟩
  · simp only [Metaslab.freePoints, metaslabGroupSort, syncDoneVacate, Metaslab.setFreemap]
    exact (freemap (txgSlot other)).2
  · have weight := @metaslabWeight_and (syncDoneVacate txg created
      { metaslabInit smo range.smStart range.smSize range.smShift with
        msAllocmap := fun _ => created, msFreemap := fun _ => created }) geometry ok.same alloc_le
    exact not_ne_iff.mpr (weight.trans (Nat.zero_and _))

theorem inv_start (start : MetaslabStart geometry world) : world.1.Inv geometry world.2 := by
  obtain ⟨smo, object, allocated, txg, synced, msp, listed, recorded, done, state_eq, used, free⟩ :=
    start
  have alloc_le : smo.smoAlloc ≤ geometry.range.smSize := by
    rw [recorded.alloc_eq]
    exact (ncard_le_size recorded.inside).2
  have fresh : Fresh geometry.range smo (if listed then msp.vdevDirty synced else msp) := by
    obtain ⟨⟩ := fresh_of_init alloc_le done
    cases listed <;> constructor <;> assumption
  rw [state_eq]
  generalize (if listed then msp.vdevDirty synced else msp) = msp at fresh
  -- what is recorded on disk is what is allocated
  have balance :
      (books ⟨msp, object, none, none, synced⟩ allocated).Balance geometry.bytes world.2 := by
    refine ⟨fresh.allocs _, fun byte taken => ?_, fun byte => ?_⟩
    · by_contra outside
      exact taken (free byte fun on_disk => outside (recorded.inside on_disk))
    · by_cases on_disk : byte ∈ allocated
      · obtain ⟨birth, same⟩ := used byte on_disk
        refine ⟨.held none none, ⟨birth, same, by simp⟩, ?_, ?_, ?_, ?_⟩ <;> simp [books,
          Place.OnDisk, Place.InAlloc, Place.Marked, Place.Waits, on_disk, fresh.allocs,
          fresh.frees]
      · refine ⟨.free, free byte on_disk, ?_, ?_, ?_, ?_⟩ <;> simp [books, Place.OnDisk,
          Place.InAlloc, Place.Marked, Place.Waits, on_disk, fresh.allocs, fresh.frees]
  refine ⟨fresh.allocmaps, fresh.freemaps, ⟨allocated, balance, ?_⟩, ?_, ?_, ?_, .inr ?_⟩
  · rw [DiskOk, fresh.syncing]
    exact recorded
  · rintro stage maptype ⟨⟩
  · intro txg _ _ _ present
    rw [fresh.allocs, fresh.frees] at present
    simp at present
  · intro _ present
    rw [fresh.frees] at present
    simp at present
  · exact .of_balance balance (fresh.object ▸ recorded) (fresh.frees _) fresh.allocs fresh.flag
      fresh.map
      fresh.empty fresh.inactive rfl (by rw [fresh.object, fresh.syncing]) rfl

/-- What a step hands out is allocated in the ledger afterwards. -/
theorem record_handed {offset size : ℕ} {vd : Vdev}
    (performed : state.perform vd action = .ok (next, some (offset, size))) :
    ∃ txg, ledger.record state (some (offset, size)) action =
      ledger.set offset size (.allocated txg) := by
  cases action with
  | enter request => exact ⟨request.txg, rfl⟩
  | wake request => exact ⟨request.txg, rfl⟩
  | read error =>
    rw [perform] at performed
    split at performed
    · cases performed
    · obtain ⟨_, -, done⟩ := bind_ok performed
      cases done
  | finish =>
    rw [perform] at performed
    split at performed
    · cases performed
    · rename_i frame busy
      exact ⟨frame.request.txg, by rw [Ledger.record, busy]; rfl⟩
  | freeNow | freeLater =>
    obtain ⟨_, -, done⟩ := bind_ok performed
    cases done
  | syncBegin | syncTruncate | syncAllocs | syncFrees => cases performed
  | syncWrite =>
    rw [perform] at performed
    split at performed
    · obtain ⟨_, -, done⟩ := bind_ok performed
      cases done
    · cases performed
  | syncWalk =>
    obtain ⟨_, -, rest⟩ := bind_ok performed
    split_ifs at rest
    · obtain ⟨_, -, done⟩ := bind_ok rest
      cases done
    · cases rest
  | txgDone =>
    rw [perform] at performed
    split_ifs at performed
    · obtain ⟨_, -, done⟩ := bind_ok performed
      cases done
    · cases performed

/-- Every step keeps the invariant, and hands out only what is free. -/
theorem Inv.step (inv : state.Inv geometry ledger) {handed : Option Region}
    (enabled : state.Enabled ledger action)
    (performed : state.perform geometry.vd action = .ok (next, handed)) :
    next.Inv geometry (ledger.record state handed action) ∧
    ∀ offset size, handed = some (offset, size) → ∀ byte ∈ region offset size,
      ledger byte = .free := by
  cases action with
  | enter request => exact inv.enter enabled.1 enabled.2 performed
  | wake request => exact inv.loadEnter enabled.2.2 enabled.1 enabled.2.1 performed
  | read error =>
    obtain ⟨frame, busy, -⟩ := enabled
    rw [perform, busy] at performed
    obtain ⟨after, read, done⟩ := bind_ok performed
    cases done
    exact ⟨inv.readBlock busy read, nofun⟩
  | finish =>
    obtain ⟨frame, busy, finished⟩ := enabled
    rw [perform, busy] at performed
    rw [Ledger.record, busy]
    exact inv.loadDone busy finished performed
  | freeNow offset size txg =>
    obtain ⟨current, noWrap, allocated⟩ := enabled
    obtain ⟨msp, freed, done⟩ := bind_ok performed
    cases done
    exact ⟨inv.freeNow current noWrap (fun byte here => allocated byte here.1 here.2) freed, nofun⟩
  | freeLater offset size txg =>
    obtain ⟨current, noWrap, allocated⟩ := enabled
    obtain ⟨msp, freed, done⟩ := bind_ok performed
    cases done
    exact ⟨inv.freeLater current noWrap (fun byte here => allocated byte here.1 here.2)
      freed, nofun⟩
  | syncBegin number =>
    obtain ⟨quiet, -, -, other⟩ := enabled
    cases performed
    exact ⟨inv.syncBegin quiet other number, nofun⟩
  | syncWalk syncPass =>
    obtain ⟨msp, walked, rest⟩ := bind_ok performed
    have collected := inv.syncAppend enabled walked
    split_ifs at rest with condenses
    · obtain ⟨msp', made, done⟩ := bind_ok rest
      cases done
      exact ⟨collected.condense rfl condenses.1 made, nofun⟩
    · cases rest
      exact ⟨collected, nofun⟩
  | syncTruncate =>
    cases performed
    exact ⟨inv.syncTruncate enabled, nofun⟩
  | syncAllocs syncPass =>
    cases performed
    exact ⟨inv.syncAllocs enabled syncPass, nofun⟩
  | syncFrees syncPass =>
    cases performed
    exact ⟨inv.syncFrees enabled syncPass, nofun⟩
  | syncWrite =>
    obtain ⟨frame, running⟩ := enabled
    rw [perform, running] at performed
    obtain ⟨after, written, done⟩ := bind_ok performed
    cases done
    exact ⟨inv.syncWrite running written, nofun⟩
  | txgDone =>
    obtain ⟨quiet, unlisted, other, idle⟩ := enabled
    rw [perform] at performed
    split_ifs at performed with listed
    · obtain ⟨msp, done, rest⟩ := bind_ok performed
      cases rest
      exact ⟨inv.syncDone quiet unlisted (idle listed) done, nofun⟩
    · cases performed
      exact ⟨inv.pass quiet unlisted other (by simpa using listed), nofun⟩

theorem inv_of_reachable (reachable : (metaslabSystem geometry).Reachable world) :
    world.1.Inv geometry world.2 := by
  refine reachable.invariant (fun _ start => inv_start start) ?_
  rintro ⟨state, ledger⟩ ⟨action, handed⟩ ⟨next, ledger'⟩ inv ⟨enabled, performed, recorded⟩
  subst recorded
  exact (Inv.step inv enabled performed).1

end MetaslabState

/-- Each byte is in one state, the loaded map holds the free bytes, and no step hands out another
one. -/
theorem metaslab_run_correct (geometry : MetaslabGeometry) {state : MetaslabState} {ledger : Ledger}
    (reachable : (metaslabSystem geometry).Reachable (state, ledger)) :
    (∃ disk, state.DiskOk geometry disk ∧ (state.books disk).Partition ledger) ∧
    (state.msp.msMap.smLoaded →
      state.msp.msMap.points = {byte | byte ∈ geometry.bytes ∧ ledger byte = .free}) ∧
    ∀ action offset size next,
      (metaslabSystem geometry).Step (state, ledger) (action, some (offset, size)) next →
        ∀ byte, offset ≤ byte → byte < offset + size →
          byte ∈ geometry.bytes ∧ ledger byte = .free := by
  have inv := MetaslabState.inv_of_reachable reachable
  refine ⟨?_, fun flag => ?_, ?_⟩
  · obtain ⟨disk, balance, recorded⟩ := inv.balance
    exact ⟨disk, recorded, balance.partition⟩
  · rw [(inv.loaded flag).points]
    ext byte
    simp [Ledger.used]
  · rintro action offset size ⟨next, ledger'⟩ ⟨enabled, performed, recorded⟩ byte lower upper
    obtain ⟨inv', free⟩ := inv.step enabled performed
    obtain ⟨txg, handed⟩ := @MetaslabState.record_handed _ _ state ledger _ _ _ performed
    rw [handed] at inv'
    refine ⟨inv'.used_subset ?_, free offset size rfl byte ⟨lower, upper⟩⟩
    rw [MetaslabState.used_set_allocated]
    exact .inr ⟨lower, upper⟩

/-- A metaslab of two sectors. -/
def twoSectors : MetaslabGeometry where
  vd := ⟨10, 1⟩
  range := spaceMapCreate 0 1024 9
  ranged := ⟨by decide, by decide, by decide, by decide⟩
  sector := by decide
  small := by decide
  bounded := by decide
  index := by decide

/-- A thread loads the empty map of a new metaslab and gets the first sector, which was free. -/
theorem metaslab_run_first_alloc :
    ∃ state ledger next, (metaslabSystem twoSectors).Reachable (state, ledger) ∧
    (metaslabSystem twoSectors).Step (state, ledger) (.finish, some (0, 512)) next ∧
    ∀ byte, 0 ≤ byte → byte < 0 + 512 → byte ∈ twoSectors.bytes ∧ ledger byte = .free := by
  have evaluated : (do
      let msp ← metaslabSyncDone false twoSectors.vd 1 (metaslabInit ⟨0, 0, 0⟩ 0 1024 9)
      let (state, none_yet) ← MetaslabState.perform twoSectors.vd ⟨msp, fun _ => 0, none, none, 0⟩
        (.enter (.alloc metaslabWeightPrimary 512 1))
      let (_, handed) ← state.perform twoSectors.vd .finish
      return (none_yet, handed, state.load.map fun frame => (frame.offset, frame.stop))) =
    ok (none, some (0, 512), some (0, 0)) := by decide +kernel
  obtain ⟨msp, made, rest⟩ := bind_ok evaluated
  obtain ⟨⟨state, none_yet⟩, entered, rest⟩ := bind_ok rest
  obtain ⟨⟨next, handed⟩, finished, rest⟩ := bind_ok rest
  simp only [pure, Except.pure, Except.ok.injEq, Prod.mk.injEq, Option.map_eq_some_iff] at rest
  obtain ⟨rfl, rfl, frame, busy, offset, stop⟩ := rest
  have start : (metaslabSystem twoSectors).Reachable
      (⟨msp, fun _ => 0, none, none, 0⟩, fun _ => .free) :=
    .start ⟨⟨0, 0, 0⟩, fun _ => 0, ∅, 1, 0, msp, false, recorded_empty _ _ rfl rfl, made,
      rfl, by simp, by simp⟩
  have enter : (metaslabSystem twoSectors).Step
      (⟨msp, fun _ => 0, none, none, 0⟩, fun _ => .free)
      (.enter (.alloc metaslabWeightPrimary 512 1), none) (state, fun _ => .free) :=
    ⟨⟨⟨Nat.one_pos, Nat.le_add_left 1 2, by simp⟩, .inl rfl, by decide, by decide⟩, entered, rfl⟩
  have loading := start.step enter
  have step : (metaslabSystem twoSectors).Step (state, fun _ => .free) (.finish, some (0, 512))
      (next, Ledger.record (fun _ => .free) state (some (0, 512)) .finish) :=
    ⟨⟨frame, busy, by omega⟩, finished, rfl⟩
  exact ⟨state, _, _, loading, step,
    (metaslab_run_correct twoSectors loading).2.2 .finish 0 512 _ step⟩

end Zfs
