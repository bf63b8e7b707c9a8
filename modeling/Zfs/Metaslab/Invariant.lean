import Zfs.Metaslab.Books
import Zfs.Metaslab.FirstFit

/-!
# The invariant of a metaslab

The maps of a metaslab denote balanced books.  While the in-core map is loaded it holds exactly the
free bytes; while it is not, nothing is in the alloc maps, and the synced object records everything
that is not free.
-/

namespace Zfs

open BalancedTree BalTree Segments Books Function Except

theorem txgSlot_eq (txg : ℕ) : txgSlot txg = txg % 4 := Nat.and_two_pow_sub_one_eq_mod txg 2

theorem txgSlot_clean (txg : ℕ) : txgSlot (txgClean txg) = txgSlot (txg + 3) := by
  rw [txgSlot_eq, txgSlot_eq, txgClean, sub64]
  omega

theorem txgSlot_add_four (txg : ℕ) : txgSlot (txg + 4) = txgSlot txg := by
  rw [txgSlot_eq, txgSlot_eq]
  omega

theorem txgSlot_inj {syncing first second : ℕ} (first_lower : syncing ≤ first)
    (first_upper : first ≤ syncing + 3) (second_lower : syncing ≤ second)
    (second_upper : second ≤ syncing + 3) : txgSlot first = txgSlot second ↔ first = second := by
  rw [txgSlot_eq, txgSlot_eq]
  omega

namespace Metaslab

/-- The bytes in the alloc map of a transaction group. -/
def allocPoints (msp : Metaslab) (txg : ℕ) : Set ℕ := (msp.msAllocmap (txgSlot txg)).points

/-- The bytes in the free map of a transaction group. -/
def freePoints (msp : Metaslab) (txg : ℕ) : Set ℕ := (msp.msFreemap (txgSlot txg)).points

variable {msp : Metaslab} {syncing txg : ℕ} {sm : SpaceMap}

/-- Replacing the map of one of the four transaction groups. -/
theorem points_update (maps : ℕ → SpaceMap) (lower : syncing ≤ txg) (upper : txg ≤ syncing + 3) :
    ∀ t, syncing ≤ t → t ≤ syncing + 3 → (update maps (txgSlot txg) sm (txgSlot t)).points =
      update (fun t => (maps (txgSlot t)).points) txg sm.points t := by
  intro t above below
  by_cases same : t = txg
  · subst same
    simp
  · have other : txgSlot t ≠ txgSlot txg := (txgSlot_inj above below lower upper).not.mpr same
    simp [same, other]

theorem allocPoints_setAllocmap (lower : syncing ≤ txg) (upper : txg ≤ syncing + 3) :
    ∀ t, syncing ≤ t → t ≤ syncing + 3 → (msp.setAllocmap txg sm).allocPoints t =
      update msp.allocPoints txg sm.points t := points_update _ lower upper

theorem freePoints_setFreemap (lower : syncing ≤ txg) (upper : txg ≤ syncing + 3) :
    ∀ t, syncing ≤ t → t ≤ syncing + 3 → (msp.setFreemap txg sm).freePoints t =
      update msp.freePoints txg sm.points t := points_update _ lower upper

theorem dirtyFirst_eq (msp : Metaslab) (sm : SpaceMap) (txg : ℕ) :
    msp.dirtyFirst sm txg = { msp with msTxgNode := (msp.dirtyFirst sm txg).msTxgNode } := by
  rw [dirtyFirst]
  split_ifs <;> rfl

theorem dirtyFirst_kept (sm : SpaceMap) (txg : ℕ) {slot : ℕ} (listed : msp.msTxgNode slot = true) :
    (msp.dirtyFirst sm txg).msTxgNode slot = true := by
  rw [dirtyFirst]
  split_ifs
  · by_cases here : slot = txgSlot txg <;> simp [vdevDirty, here, listed]
  · exact listed

/-- After the first entry the metaslab is on the list. -/
theorem dirtyFirst_listed (wf : sm.Wf)
    (before : sm.points.Nonempty → msp.msTxgNode (txgSlot txg) = true) :
    (msp.dirtyFirst sm txg).msTxgNode (txgSlot txg) = true := by
  rw [dirtyFirst]
  split_ifs with empty
  · simp [vdevDirty]
  · exact before ((Set.ncard_pos wf.ncard_points.2).mp (by rw [wf.ncard_points.1]; omega))

end Metaslab

/-- A well-formed map of the range. -/
structure MapOk (range sm : SpaceMap) : Prop where
  wf : sm.Wf
  same : SameRange range sm

theorem MapOk.update {range sm : SpaceMap} {maps : ℕ → SpaceMap}
    (old : ∀ slot, MapOk range (maps slot)) (ok : MapOk range sm) (here : ℕ) :
    ∀ slot, MapOk range (Function.update maps here sm slot) := by
  intro slot
  rw [Function.update_apply]
  split_ifs
  · exact ok
  · exact old slot

namespace MetaslabGeometry

/-- The bytes of the metaslab. -/
def bytes (geometry : MetaslabGeometry) : Set ℕ :=
  Set.Ico geometry.range.smStart (geometry.range.smStart + geometry.range.smSize)

end MetaslabGeometry

/-- The bytes that are not free. -/
def Ledger.used (ledger : Ledger) : Set ℕ := {byte | ledger byte ≠ .free}

variable {weight : ℕ} {node : ℕ → Bool} {ledger' : Ledger} {msp' : Metaslab}

/-- The maps that `metaslab_sync` has taken for the object. -/
def SyncStage.Took : SyncStage → MapType → Prop
  | .frees, maptype => maptype = .alloc
  | .writing frame, maptype => maptype = .alloc ∨ frame.maptype = .free
  | _, _ => False

namespace MetaslabState

/-- The books of a metaslab whose syncing object records `disk`. -/
def books (state : MetaslabState) (disk : Set ℕ) : Books where
  syncing := state.syncing
  disk := disk
  alloc := state.msp.allocPoints
  freed := state.msp.freePoints
  walked := state.sync ≠ none ∧ state.sync ≠ some .begun

/-- The in-core map is loaded. -/
structure Loaded (geometry : MetaslabGeometry) (state : MetaslabState) (ledger : Ledger) :
    Prop where
  flag : state.msp.msMap.smLoaded = true
  map : MapOk geometry.range state.msp.msMap
  points : state.msp.msMap.points = geometry.bytes \ ledger.used
  ops : state.msp.smPpd.isSome
  load : state.load = none

/-- Replaying the rest of the log gives the free bytes. -/
structure Loading (geometry : MetaslabGeometry) (state : MetaslabState) (ledger : Ledger)
    (frame : LoadFrame) : Prop where
  /-- The log is read to its end. -/
  stop : frame.stop = state.msp.msSmo.smoObjsize
  /-- The space is what it ought to be. -/
  space : frame.space = loadSpace .free geometry.range state.msp.msSmo
  /-- The next read is at a block. -/
  block : spaceMapBlock ∣ frame.offset
  /-- The rest of the log gives the free bytes. -/
  rest : ∃ final, loadEntries false .free geometry.range.smStart
    (dmuRead state.object frame.offset (frame.stop - frame.offset)) state.msp.msMap = .ok final ∧
      MapOk geometry.range final ∧ final.points = geometry.bytes \ ledger.used
  /-- The request is for an open group. -/
  current : state.Open frame.request.txg
  legal : frame.request.Legal

/-- The in-core map is not loaded. -/
structure Unloaded (geometry : MetaslabGeometry) (state : MetaslabState) (ledger : Ledger) :
    Prop where
  flag : state.msp.msMap.smLoaded = false
  /-- The map has its range. -/
  range : SameRange geometry.range state.msp.msMap
  /-- The metaslab is not active. -/
  inactive : ¬state.msp.Active
  /-- Nothing has been allocated. -/
  allocs : ∀ txg, state.msp.allocPoints txg = ∅
  /-- The log has not just been condensed. -/
  stage : state.sync ≠ some .condensed
  /-- The log has what is in use. -/
  smo : Recorded geometry.range ledger.used state.msp.msSmo state.object
  /-- The log only grows. -/
  longer : state.msp.msSmo.smoObjsize ≤ state.msp.msSmoSyncing.smoObjsize
  /-- Unless it is being loaded the map is empty. -/
  idle : state.load = none → state.msp.msMap.Wf ∧ state.msp.msMap.points = ∅
  /-- What a loading thread has read. -/
  loading : ∀ frame, state.load = some frame → state.Loading geometry ledger frame

/-- The object records `disk`, or is about to be truncated.  What a `space_map_sync` in progress has
in its buffer or has still to look at counts as recorded. -/
def DiskOk (geometry : MetaslabGeometry) (state : MetaslabState) (disk : Set ℕ) : Prop :=
  match state.sync with
  | some .condensed => disk = ∅
  | some (.writing frame) =>
    Appends geometry.range disk frame state.msp.msSmoSyncing state.object
  | _ => Recorded geometry.range disk state.msp.msSmoSyncing state.object

/-- What every step keeps. -/
structure Inv (geometry : MetaslabGeometry) (state : MetaslabState) (ledger : Ledger) : Prop where
  /-- The allocation maps are well-formed. -/
  allocmaps : ∀ slot, MapOk geometry.range (state.msp.msAllocmap slot)
  /-- The free maps are well-formed. -/
  freemaps : ∀ slot, MapOk geometry.range (state.msp.msFreemap slot)
  /-- The maps and the log fit the ledger. -/
  balance : ∃ disk, (state.books disk).Balance geometry.bytes ledger ∧ state.DiskOk geometry disk
  /-- The map that is being written is empty. -/
  taken : ∀ stage maptype, state.sync = some stage → stage.Took maptype →
    (state.msp.txgMap state.syncing maptype).points = ∅
  /-- A metaslab with changes is on the dirty list. -/
  dirty : ∀ txg, state.syncing ≤ txg → txg ≤ state.syncing + 2 →
    (state.sync ≠ none → txg ≠ state.syncing) →
      (state.msp.allocPoints txg).Nonempty ∨ (state.msp.freePoints txg).Nonempty →
        state.msp.msTxgNode (txgSlot txg) = true
  /-- So is one with space to be returned. -/
  clean : state.sync = none → (state.msp.freePoints (state.syncing + 3)).Nonempty →
    state.msp.msTxgNode (txgSlot (state.syncing + 3)) = true
  /-- The in-core map is loaded or not. -/
  core : state.Loaded geometry ledger ∨ state.Unloaded geometry ledger

variable {geometry : MetaslabGeometry} {state : MetaslabState} {ledger : Ledger}

variable {txg : ℕ}

theorem Open.window (current : state.Open txg) :
    state.syncing ≤ txg ∧ txg ≤ state.syncing + 2 := by
  obtain ⟨lower, upper, -⟩ := current
  simp only [syncing, txgConcurrentStates] at *
  omega

variable {sm : SpaceMap} {ppd : Option (ℕ → ℕ)}

theorem Inv.changeAlloc (inv : state.Inv geometry ledger) (current : state.Open txg)
    {allocmap : SpaceMap} (ok : MapOk geometry.range allocmap)
    (balance : ∀ disk, (state.books disk).Balance geometry.bytes ledger →
      { state.books disk with
        alloc := update state.msp.allocPoints txg allocmap.points }.Balance
          geometry.bytes ledger')
    (kept : ∀ slot, state.msp.msTxgNode slot = true → node slot = true)
    (listed : allocmap.points.Nonempty → node (txgSlot txg) = true)
    (core : Loaded geometry { state with msp := { state.msp.setAllocmap txg allocmap with
      msMap := sm, smPpd := ppd, msWeight := weight, msTxgNode := node } } ledger') :
    Inv geometry { state with msp := { state.msp.setAllocmap txg allocmap with
      msMap := sm, smPpd := ppd, msWeight := weight, msTxgNode := node } } ledger' := by
  obtain ⟨lower, upper⟩ := current.window
  have points := @Metaslab.allocPoints_setAllocmap state.msp state.syncing txg allocmap lower
    (by omega)
  obtain ⟨disk, balanced, recorded⟩ := inv.balance
  refine ⟨.update inv.allocmaps ok _, inv.freemaps, ⟨disk, ?_, recorded⟩, ?_, ?_, ?_, .inl core⟩
  · exact (balance disk balanced).congr rfl rfl points (fun _ _ _ => rfl) Iff.rfl
  · intro stage maptype running took
    have empty := inv.taken stage maptype running took
    cases maptype with
    | free => exact empty
    | alloc =>
      have other : txg ≠ state.syncing := current.2.2 (by simp [show state.sync = _ from running])
      have same := points state.syncing le_rfl (by omega)
      rw [update_of_ne (Ne.symm other)] at same
      exact same.trans empty
  · intro t above below open_ present
    by_cases same : t = txg
    · subst same
      rcases present with present | present
      · refine listed ?_
        have := points t above (by omega)
        rw [update_self] at this
        exact this ▸ present
      · exact kept _ (inv.dirty t above below open_ (.inr present))
    · refine kept _ (inv.dirty t above below open_ ?_)
      have := points t above (by simp only [syncing] at below ⊢; omega)
      rw [update_of_ne same] at this
      exact present.imp_left fun present => this ▸ present
  · intro stage present
    exact kept _ (inv.clean stage present)

variable {offset size : ℕ}

theorem used_set_allocated :
    (ledger.set offset size (.allocated txg)).used = ledger.used ∪ region offset size := by
  ext byte
  by_cases here : byte ∈ region offset size
  · simp [Ledger.used, ledger_set_of_mem here, here]
  · simp [Ledger.used, ledger_set_of_notMem here, here]

variable {msp : Metaslab}

theorem Inv.take (inv : state.Inv geometry ledger) (loaded : state.Loaded geometry ledger)
    (current : state.Open txg) (noWrap : offset + size < 2 ^ 64)
    (removed : spaceMapRemove false state.msp.msMap offset size = .ok sm) (ops : ppd.isSome)
    (entered : recordAlloc false { state.msp with msMap := sm, smPpd := ppd } offset size txg =
      .ok msp) :
    Inv geometry { state with msp := msp } (ledger.set offset size (.allocated txg)) ∧
    ∀ byte ∈ region offset size, ledger byte = .free := by
  obtain ⟨wf, points, range⟩ := spaceMapRemove_ok loaded.map.wf noWrap removed
  have subset := spaceMapRemove_subset loaded.map.wf noWrap removed
  rw [loaded.points] at subset points
  have free : ∀ byte ∈ region offset size, ledger byte = .free := fun byte here =>
    not_ne_iff.mp (subset here).2
  refine ⟨?_, free⟩
  obtain ⟨allocmap, added, done⟩ := bind_ok entered
  have old := inv.allocmaps (txgSlot txg)
  obtain ⟨map_wf, map_points, map_range⟩ := spaceMapAdd_ok old.wf noWrap added
  cases done
  obtain ⟨lower, upper⟩ := current.window
  rw [Metaslab.dirtyFirst_eq]
  refine inv.changeAlloc current ⟨map_wf, old.same.trans map_range⟩ ?_ (fun slot listed => ?_)
    (fun _ => ?_) ?_
  · intro disk balanced
    rw [map_points]
    exact balanced.allocate lower upper (fun byte here => (subset here).1) free
  · exact Metaslab.dirtyFirst_kept _ _ listed
  · exact Metaslab.dirtyFirst_listed old.wf fun present =>
      inv.dirty txg lower upper current.2.2 (.inl present)
  · refine ⟨(spaceMapRemove_same removed).2.1.trans loaded.flag,
      ⟨wf, loaded.map.same.trans range⟩, ?_, ops, loaded.load⟩
    rw [used_set_allocated, ← Set.sdiff_sdiff]
    exact points

/-- What only changes the weight and the cursors of a loaded map. -/
theorem Inv.reweigh (inv : state.Inv geometry ledger) (loaded : state.Loaded geometry ledger)
    (ops : ppd.isSome) (weight : ℕ) :
    Loaded geometry { state with msp := { state.msp with smPpd := ppd, msWeight := weight } }
      ledger ∧
    Inv geometry { state with msp := { state.msp with smPpd := ppd, msWeight := weight } } ledger :=
  have loaded' : Loaded geometry
      { state with msp := { state.msp with smPpd := ppd, msWeight := weight } } ledger :=
    { loaded with ops }
  ⟨loaded', { inv with core := .inl loaded' }⟩

theorem spaceMapAlloc_cases {offset : Option ℕ}
    (allocated : spaceMapAlloc false msp size = .ok (msp', offset)) :
    ∃ cursors cursors', msp.smPpd = some cursors ∧
    metaslabFfAlloc msp.msMap cursors size = (offset, cursors') ∧
    ((offset = none ∧ msp' = { msp with smPpd := some cursors' }) ∨
      ∃ start sm, offset = some start ∧ spaceMapRemove false msp.msMap start size = .ok sm ∧
      msp' = { msp with msMap := sm, smPpd := some cursors' }) := by
  rw [spaceMapAlloc] at allocated
  cases ppd : msp.smPpd with
  | none =>
    rw [ppd] at allocated
    cases allocated
  | some cursors =>
    rw [ppd] at allocated
    cases found : metaslabFfAlloc msp.msMap cursors size with
    | mk start cursors' =>
      simp only [found] at allocated
      cases start with
      | none =>
        cases allocated
        exact ⟨cursors, cursors', rfl, found, .inl ⟨rfl, rfl⟩⟩
      | some start =>
        obtain ⟨sm, removed, done⟩ := bind_ok allocated
        cases done
        exact ⟨cursors, cursors', rfl, found, .inr ⟨start, sm, rfl, removed, rfl⟩⟩

/-- The invariant after a step that hands out only what is free. -/
def Serves (geometry : MetaslabGeometry) (next : MetaslabState) (ledger : Ledger) (txg : ℕ)
    (handed : Option Region) : Prop :=
  Inv geometry next (ledger.handOut txg handed) ∧
    ∀ offset size, handed = some (offset, size) → ∀ byte ∈ region offset size, ledger byte = .free

variable {request : Request} {handed : Option Region}

section

variable (inv : state.Inv geometry ledger)

include inv

/-- A region that is handed out was free. -/
theorem Inv.serve (loaded : state.Loaded geometry ledger)
    (current : state.Open request.txg) (legal : request.Legal)
    (served : request.serve false state.msp = .ok (msp, handed)) :
    Serves geometry { state with msp := msp } ledger request.txg handed := by
  cases request with
  | alloc activationWeight size txg =>
    obtain ⟨⟨taken, offset⟩, allocated, rest⟩ := bind_ok served
    obtain ⟨-, nonzero, small⟩ := legal
    obtain ⟨cursors, cursors', ppd, found, ⟨rfl, rfl⟩ | ⟨start, sm, rfl, removed, rfl⟩⟩ :=
      spaceMapAlloc_cases allocated
    · cases rest
      exact ⟨(inv.reweigh loaded rfl _).2, nofun⟩
    · obtain ⟨entered_msp, entered, done⟩ := bind_ok rest
      cases done
      have bounded := geometry.bounded
      rw [← loaded.map.same.start, ← loaded.map.same.size] at bounded
      obtain ⟨ss, member, lower, upper⟩ :=
        metaslabFfAlloc_some loaded.map.wf nonzero (by omega) found
      have noWrap := upper.trans_lt (loaded.map.wf.bounded ss member)
      obtain ⟨kept, free⟩ := inv.take loaded current noWrap removed rfl entered
      refine ⟨kept, fun offset' size' same => ?_⟩
      cases same
      exact free
  | claim offset size txg =>
    obtain ⟨sm, removed, rest⟩ := bind_ok served
    obtain ⟨entered_msp, entered, done⟩ := bind_ok rest
    cases done
    obtain ⟨kept, free⟩ := inv.take loaded current legal removed loaded.ops entered
    refine ⟨kept, fun offset' size' same => ?_⟩
    cases same
    exact free

/-- `metaslab_activate` on a loaded map, and what follows it. -/
theorem Inv.activated (loaded : state.Loaded geometry ledger)
    (current : state.Open request.txg) (legal : request.Legal)
    (served : request.activated false state.msp = .ok (msp, handed)) :
    Serves geometry { state with msp := msp } ledger request.txg handed := by
  obtain ⟨loaded', inv'⟩ := inv.reweigh loaded loaded.ops
    (state.msp.msWeight ||| request.activationWeight)
  exact inv'.serve loaded' current legal served

theorem Inv.unloaded (flag : state.msp.msMap.smLoaded = false) :
    state.Unloaded geometry ledger := by
  rcases inv.core with loaded | unloaded
  · rw [loaded.flag] at flag
    cases flag
  · exact unloaded

theorem Inv.loaded (flag : state.msp.msMap.smLoaded = true) :
    state.Loaded geometry ledger := by
  rcases inv.core with loaded | unloaded
  · exact loaded
  · rw [unloaded.flag] at flag
    cases flag

theorem Inv.changeLoad {load : Option LoadFrame} (core : Unloaded geometry { state with
      msp := { state.msp with msMap := sm, msWeight := weight }, load := load } ledger) :
    Inv geometry { state with
      msp := { state.msp with msMap := sm, msWeight := weight }, load := load } ledger :=
  { inv with core := .inr core }

end

variable {next : MetaslabState}

/-- A thread gets to `space_map_load` and loads the map, unless it is loaded. -/
theorem Inv.loadEnter (inv : state.Inv geometry ledger) (idle : state.load = none)
    (current : state.Open request.txg) (legal : request.Legal)
    (entered : state.loadEnter request = .ok (next, handed)) :
    Serves geometry next ledger request.txg handed := by
  rw [MetaslabState.loadEnter] at entered
  cases flag : state.msp.msMap.smLoaded with
  | true =>
    simp only [flag, if_true] at entered
    obtain ⟨⟨msp, handed'⟩, served, done⟩ := bind_ok entered
    cases done
    exact inv.activated (inv.loaded flag) current legal served
  | false =>
    have unloaded := inv.unloaded flag
    obtain ⟨wf, empty⟩ := unloaded.idle idle
    have ranged := geometry.ranged.congr unloaded.range
    simp only [flag, Bool.false_eq_true, if_false] at entered
    split_ifs at entered
    obtain ⟨sm, started, done⟩ := bind_ok entered
    cases done
    obtain ⟨started', start_ok, becomes⟩ := loadStart_spec false .free wf ranged empty
    cases started.symm.trans start_ok
    have range : SameRange geometry.range sm := unloaded.range.trans
      ⟨becomes.range.start, becomes.range.size, becomes.range.shift⟩
    have start_points : sm.points = loadedSet geometry.range ∅ .free := by
      rw [becomes.points, loadedSet, loadedSet, unloaded.range.start, unloaded.range.size]
    obtain ⟨final, replayed, final_becomes⟩ :=
      unloaded.smo.replays false .free sm becomes.wf range start_points
    refine ⟨inv.changeLoad ?_, fun _ _ none => by cases none⟩
    refine { unloaded with
      flag := becomes.load.1.trans flag, range, idle := fun none => by cases none
      loading := fun frame same => ?_ }
    cases same
    refine ⟨rfl, ?_, Nat.dvd_zero _, ⟨final, replayed, ⟨final_becomes.wf,
      range.trans final_becomes.range⟩, final_becomes.points⟩, current, legal⟩
    simp only [loadSpace, unloaded.range.size]

/-- A request is admitted, or sent away with another weight. -/
theorem check_cases {admitted : Bool} (checked : request.check msp = (msp', admitted)) :
    (msp' = msp) ∨
      (admitted = false ∧ msp.Active ∧ ∃ weight, msp' = { msp with msWeight := weight }) := by
  cases request with
  | alloc activationWeight size txg =>
    rw [Request.check] at checked
    split_ifs at checked with light secondary
    · exact .inl (Prod.mk.inj checked).1.symm
    · cases checked
      refine .inr ⟨rfl, fun inactive => secondary.1 ?_, _, rfl⟩
      rw [metaslabActiveMask, Nat.and_or_distrib_left] at inactive
      exact (Nat.or_eq_zero_iff.mp inactive).2
    · exact .inl (Prod.mk.inj checked).1.symm
  | claim offset size txg => exact .inl (Prod.mk.inj checked).1.symm

theorem Inv.loaded_of_active (inv : state.Inv geometry ledger) (active : state.msp.Active) :
    state.Loaded geometry ledger := by
  rcases inv.core with loaded | unloaded
  · exact loaded
  · exact absurd active unloaded.inactive

theorem Inv.enter (inv : state.Inv geometry ledger) (current : state.Open request.txg)
    (legal : request.Legal) (entered : state.enter request = .ok (next, handed)) :
    Serves geometry next ledger request.txg handed := by
  rw [MetaslabState.enter] at entered
  cases checked : request.check state.msp with
  | mk msp admitted =>
    rw [checked] at entered
    rcases check_cases checked with rfl | ⟨rfl, active, weight, rfl⟩
    · cases admitted with
      | false =>
        cases entered
        exact ⟨inv, nofun⟩
      | true =>
        simp only at entered
        split_ifs at entered with active busy
        · obtain ⟨⟨msp, handed'⟩, served, done⟩ := bind_ok entered
          cases done
          exact inv.serve (inv.loaded_of_active active) current legal served
        · cases entered
          exact ⟨inv, nofun⟩
        · exact inv.loadEnter (by simpa using busy) current legal entered
    · cases entered
      have loaded := inv.loaded_of_active active
      exact ⟨(inv.reweigh loaded loaded.ops weight).2, nofun⟩

variable {frame : LoadFrame}

section

variable (inv : state.Inv geometry ledger) (busy : state.load = some frame)

include inv busy

theorem Inv.unloaded_of_busy :
    state.Unloaded geometry ledger := by
  rcases inv.core with loaded | unloaded
  · rw [loaded.load] at busy
    cases busy
  · exact unloaded

theorem Inv.readBlock
    {error : ℕ} (read : state.readBlock frame error = .ok next) : Inv geometry next ledger := by
  have unloaded := inv.unloaded_of_busy busy
  have loading := unloaded.loading frame busy
  simp only [MetaslabState.readBlock] at read
  split_ifs at read with whole failed
  · cases read
    exact inv.changeLoad { unloaded with
      range := { unloaded.range with }
      inactive := by simp [Metaslab.Active]
      idle := fun _ => ⟨(wf_spaceMapEmpty state.msp.msMap).reload _ _,
        points_spaceMapEmpty state.msp.msMap⟩
      loading := nofun }
  · obtain ⟨sm, replayed, done⟩ := bind_ok read
    cases done
    obtain ⟨range, load⟩ := loadEntries_same replayed
    refine inv.changeLoad { unloaded with
      flag := load.1.trans unloaded.flag
      range := unloaded.range.trans range
      idle := nofun
      loading := fun frame' same => ?_ }
    cases same
    obtain ⟨final, rest, final_ok⟩ := loading.rest
    have words : 8 ∣ frame.stop := by
      rw [loading.stop]
      exact unloaded.smo.words
    have block : 8 ∣ frame.offset := Dvd.dvd.trans (by decide) loading.block
    rw [dmuRead_block _ words block] at rest
    obtain ⟨next, first, rest⟩ := loadEntries_prefix rest
    rw [unloaded.range.start] at replayed
    cases replayed.symm.trans first
    exact { loading with
      block := Nat.dvd_add loading.block (Nat.dvd_refl _), rest := ⟨final, rest, final_ok⟩ }

theorem Inv.loadDone
    (finished : frame.stop ≤ frame.offset) (loaded : state.loadDone frame = .ok (next, handed)) :
    Serves geometry next ledger frame.request.txg handed := by
  have unloaded := inv.unloaded_of_busy busy
  have loading := unloaded.loading frame busy
  obtain ⟨final, rest, ok, points⟩ := loading.rest
  rw [show frame.stop - frame.offset = 0 by omega] at rest
  obtain rfl : state.msp.msMap = final := Except.ok.inj rest
  simp only [MetaslabState.loadDone] at loaded
  split_ifs at loaded
  obtain ⟨⟨msp, handed'⟩, served, done⟩ := bind_ok loaded
  cases done
  have core : Loaded geometry { state with
      msp := { state.msp with
        msMap := { state.msp.msMap with smLoaded := true, smLoading := false }
        smPpd := some fun _ => 0 }
      load := none } ledger :=
    ⟨rfl, ⟨ok.wf.reload _ _, ⟨ok.same.start, ok.same.size, ok.same.shift⟩⟩, points, rfl, rfl⟩
  have inv' : Inv geometry { state with
      msp := { state.msp with
        msMap := { state.msp.msMap with smLoaded := true, smLoading := false }
        smPpd := some fun _ => 0 }
      load := none } ledger :=
    { inv with core := .inl core }
  exact inv'.activated core loading.current loading.legal served

end

theorem Inv.used_subset (inv : state.Inv geometry ledger) : ledger.used ⊆ geometry.bytes := by
  obtain ⟨disk, balanced, -⟩ := inv.balance
  exact balanced.inside

theorem used_set_free :
    (ledger.set offset size .free).used = ledger.used \ region offset size := by
  ext byte
  by_cases here : byte ∈ region offset size
  · simp [Ledger.used, ledger_set_of_mem here, here]
  · simp [Ledger.used, ledger_set_of_notMem here, here]

theorem used_set_freed (used : region offset size ⊆ ledger.used) :
    (ledger.set offset size (.freed txg)).used = ledger.used := by
  ext byte
  by_cases here : byte ∈ region offset size
  · simpa [Ledger.used, ledger_set_of_mem here] using used here
  · simp [Ledger.used, ledger_set_of_notMem here]

variable (inv : state.Inv geometry ledger) (current : state.Open txg)

include inv current

theorem Inv.freeNow (noWrap : offset + size < 2 ^ 64)
    (allocated : ∀ byte ∈ region offset size, ∃ birth, ledger byte = .allocated birth)
    (freed : metaslabFreeNow false state.msp offset size txg = .ok msp) :
    Inv geometry { state with msp := msp } (ledger.set offset size .free) := by
  obtain ⟨allocmap, removed, rest⟩ := bind_ok freed
  obtain ⟨sm, added, rest⟩ := bind_ok rest
  split_ifs at rest with ops
  cases rest
  obtain ⟨lower, upper⟩ := current.window
  have old := inv.allocmaps (txgSlot txg)
  have recent : region offset size ⊆ state.msp.allocPoints txg :=
    spaceMapRemove_subset old.wf noWrap removed
  obtain ⟨map_wf, map_points, map_range⟩ := spaceMapRemove_ok old.wf noWrap removed
  have loaded : state.Loaded geometry ledger := by
    rcases inv.core with loaded | unloaded
    · exact loaded
    · -- the region is not empty, but there is nothing in the alloc maps
      obtain ⟨⟨nonempty, -⟩, -⟩ := spaceMapRemove_cases removed
      have member : offset ∈ state.msp.allocPoints txg := recent ⟨le_rfl, by omega⟩
      rw [unloaded.allocs] at member
      cases member
  obtain ⟨wf, points, range⟩ := spaceMapAdd_ok loaded.map.wf noWrap added
  refine inv.changeAlloc current ⟨map_wf, old.same.trans map_range⟩ ?_ (fun slot listed => listed)
    (fun present => ?_) ?_
  · intro disk balanced
    rw [map_points]
    exact balanced.freeNow lower upper recent allocated
  · refine inv.dirty txg lower upper current.2.2 (.inl ?_)
    rw [map_points] at present
    exact present.mono Set.sdiff_subset
  · refine ⟨(spaceMapAdd_same added).2.1.trans loaded.flag,
      ⟨wf, loaded.map.same.trans range⟩, ?_, ops, loaded.load⟩
    have inside : region offset size ⊆ geometry.bytes := fun byte here => by
      obtain ⟨birth, same⟩ := allocated byte here
      exact inv.used_subset (by simp [Ledger.used, same])
    rw [used_set_free, Set.sdiff_sdiff_right, Set.inter_eq_right.mpr inside]
    exact points.trans (congrArg (· ∪ _) loaded.points)

theorem Inv.changeFree {freemap : SpaceMap} (ok : MapOk geometry.range freemap)
    (balance : ∀ disk, (state.books disk).Balance geometry.bytes ledger →
      { state.books disk with
        freed := update state.msp.freePoints txg freemap.points }.Balance
          geometry.bytes ledger')
    (kept : ∀ slot, state.msp.msTxgNode slot = true → node slot = true)
    (listed : node (txgSlot txg) = true) (used : ledger'.used = ledger.used) :
    Inv geometry { state with
      msp := { state.msp.setFreemap txg freemap with msTxgNode := node } } ledger' := by
  obtain ⟨lower, upper⟩ := current.window
  have points := @Metaslab.freePoints_setFreemap state.msp state.syncing txg freemap lower
    (by omega)
  obtain ⟨disk, balanced, recorded⟩ := inv.balance
  refine ⟨inv.allocmaps, .update inv.freemaps ok _, ⟨disk, ?_, recorded⟩, ?_, ?_, ?_, ?_⟩
  · exact (balance disk balanced).congr rfl rfl (fun _ _ _ => rfl) points Iff.rfl
  · intro stage maptype running took
    have empty := inv.taken stage maptype running took
    cases maptype with
    | alloc => exact empty
    | free =>
      have other : txg ≠ state.syncing := current.2.2 (by simp [show state.sync = _ from running])
      have same := points state.syncing le_rfl (by omega)
      rw [update_of_ne (Ne.symm other)] at same
      exact same.trans empty
  · intro t above below settled present
    by_cases same : t = txg
    · subst same
      exact listed
    · refine kept _ (inv.dirty t above below settled ?_)
      have := points t above (by simp only [syncing] at below ⊢; omega)
      rw [update_of_ne same] at this
      exact present.imp_right fun present => this ▸ present
  · intro stage present
    refine kept _ (inv.clean stage ?_)
    have := points (state.syncing + 3) (by omega) le_rfl
    rw [update_of_ne (by omega)] at this
    exact this ▸ present
  · rcases inv.core with loaded | unloaded
    · exact .inl { loaded with points := by rw [used]; exact loaded.points }
    · exact .inr { unloaded with
        smo := by rw [used]; exact unloaded.smo
        loading := fun frame busy =>
          { unloaded.loading frame busy with
            rest := by rw [used]; exact (unloaded.loading frame busy).rest } }

theorem Inv.freeLater (noWrap : offset + size < 2 ^ 64)
    (allocated : ∀ byte ∈ region offset size, ∃ birth, birth ≤ txg ∧ ledger byte = .allocated birth)
    (freed : metaslabFreeLater false state.msp offset size txg = .ok msp) :
    Inv geometry { state with msp := msp } (ledger.set offset size (.freed txg)) := by
  obtain ⟨freemap, added, rest⟩ := bind_ok freed
  have done : msp = (state.msp.dirtyFirst (state.msp.msFreemap (txgSlot txg)) txg).setFreemap txg
      freemap := by
    simp only at rest
    split_ifs at rest with loaded
    · obtain ⟨contained, -, rest⟩ := bind_ok rest
      cases contained with
      | false => exact (ok.inj rest).symm
      | true =>
        obtain ⟨recent, -, rest⟩ := bind_ok rest
        cases recent with
        | false => cases rest
        | true => exact (ok.inj rest).symm
    · exact (ok.inj rest).symm
  rw [done, Metaslab.dirtyFirst_eq]
  obtain ⟨lower, upper⟩ := current.window
  have old := inv.freemaps (txgSlot txg)
  obtain ⟨map_wf, map_points, map_range⟩ := spaceMapAdd_ok old.wf noWrap added
  refine inv.changeFree current ⟨map_wf, old.same.trans map_range⟩ ?_
    (fun slot listed => Metaslab.dirtyFirst_kept _ _ listed) ?_ ?_
  · intro disk balanced
    rw [map_points]
    exact balanced.freeLater lower upper (fun walked => current.2.2 walked.1) allocated
  · exact Metaslab.dirtyFirst_listed old.wf fun present =>
      inv.dirty txg lower upper current.2.2 (.inr present)
  · refine used_set_freed fun byte here => ?_
    obtain ⟨birth, -, same⟩ := allocated byte here
    simp [Ledger.used, same]

end MetaslabState

end Zfs
