import Zfs.Metaslab.Invariant

/-!
# Syncing a metaslab

The steps of `metaslab_sync`, condensing included, and of `metaslab_sync_done` keep the invariant of
a metaslab.
-/

namespace Zfs

open BalancedTree BalTree Segments Books Function

theorem Implements.walk {func : SpaceMapFunc} {action : SetAction}
    (implements : Implements func action) {range sm mdest mdest' : SpaceMap} (ok : MapOk range sm)
    (dest : MapOk range mdest) (walked : spaceMapWalk func sm mdest = .ok mdest') :
    MapOk range mdest' ∧ mdest'.points = action.apply mdest.points sm.points := by
  obtain ⟨-, acts⟩ := implements.applyFunc sm.segs ok.wf.callable dest.wf
  obtain ⟨wf, points, same⟩ := acts mdest' walked
  exact ⟨⟨wf, dest.same.trans same⟩, points⟩

/-- The entries for a map of the metaslab fit their fields. -/
theorem MetaslabGeometry.fits (geometry : MetaslabGeometry) {sm : SpaceMap}
    (ok : MapOk geometry.range sm) : sm.Fits := by
  intro ss member
  have range := ok.same
  have inside := ok.wf.inside ss member
  have proper := ok.wf.separated.proper ss member
  obtain ⟨start_unit, end_unit⟩ := ok.wf.aligned ss member
  have sector := geometry.sector
  have small := geometry.small
  rw [← range.shift] at sector
  rw [← range.size] at small
  have unit_pos : 0 < 2 ^ sm.smShift := by positivity
  have unit_large : 2 ^ 9 ≤ 2 ^ sm.smShift := Nat.pow_le_pow_right (by decide) sector
  have length_dvd : 2 ^ sm.smShift ∣ ss.ssEnd - ss.ssStart :=
    Nat.dvd_sub (Nat.dvd_of_mod_eq_zero end_unit) (Nat.dvd_of_mod_eq_zero start_unit)
  have length_pos : 0 < (ss.ssEnd - ss.ssStart) / 2 ^ sm.smShift :=
    Nat.div_pos (Nat.le_of_dvd (by omega) length_dvd) unit_pos
  have units : (ss.ssStart - sm.smStart) / 2 ^ sm.smShift +
      (ss.ssEnd - ss.ssStart) / 2 ^ sm.smShift ≤ 2 ^ 47 := by
    calc _ ≤ (ss.ssStart - sm.smStart + (ss.ssEnd - ss.ssStart)) / 2 ^ sm.smShift :=
          Nat.div_add_div_le_add_div
      _ ≤ 2 ^ 56 / 2 ^ sm.smShift := Nat.div_le_div_right (by omega)
      _ ≤ 2 ^ 56 / 2 ^ 9 := Nat.div_le_div_left unit_large (by decide)
      _ = 2 ^ 47 := by decide
  rw [LastRunFits, Nat.shiftRight_eq_div_pow, Nat.shiftRight_eq_div_pow]
  have last := Nat.div_mul_le_self ((ss.ssEnd - ss.ssStart) / 2 ^ sm.smShift - 1) smRunMax
  omega

/-- A log is read the same from two objects that agree up to its end. -/
theorem dmuRead_congr {object object' : DmuObject} {size : ℕ}
    (same : dmuRead object' 0 size = dmuRead object 0 size) {offset length : ℕ}
    (inside : offset + length ≤ size) :
    dmuRead object' offset length = dmuRead object offset length := by
  apply List.map_congr_left
  intro index member
  rw [List.mem_range] at member
  have below : offset / 8 + index < size / 8 := by omega
  have values := congrArg (fun words => words.getD (offset / 8 + index) 0) same
  simpa [dmuRead, List.getD, below] using values

theorem Recorded.renumber {range : SpaceMap} {allocated : Set ℕ} {smo : SpaceMapObj}
    {object : DmuObject} (recorded : Recorded range allocated smo object) (number : ℕ) :
    Recorded range allocated { smo with smoObject := number } object :=
  { recorded with }

namespace MetaslabState

variable {geometry : MetaslabGeometry} {state : MetaslabState} {ledger : Ledger}

theorem Inv.disk (inv : state.Inv geometry ledger) (stage : state.sync ≠ some .condensed)
    (idle : ∀ frame, state.sync ≠ some (.writing frame)) :
    ∃ disk, (state.books disk).Balance geometry.bytes ledger ∧
    Recorded geometry.range disk state.msp.msSmoSyncing state.object := by
  obtain ⟨disk, balanced, recorded⟩ := inv.balance
  refine ⟨disk, balanced, ?_⟩
  rw [DiskOk] at recorded
  split at recorded
  · exact absurd ‹_› stage
  · exact absurd ‹_› (idle _)
  · exact recorded

theorem Inv.syncBegin (inv : state.Inv geometry ledger) (quiet : state.sync = none)
    (other : state.NotLoadingFor state.syncing) (number : ℕ) :
    Inv geometry { state with
      msp := syncObject number (state.msp.vdevClean state.syncing)
      sync := some .begun } ledger := by
  obtain ⟨disk, balanced, recorded⟩ := inv.disk (by simp [quiet]) (by simp [quiet])
  obtain ⟨smo, object_eq, smo_recorded, size_eq⟩ :
      ∃ smo, syncObject number (state.msp.vdevClean state.syncing) =
        { state.msp.vdevClean state.syncing with msSmoSyncing := smo } ∧
          Recorded geometry.range disk smo state.object ∧
          smo.smoObjsize = state.msp.msSmoSyncing.smoObjsize := by
    rw [syncObject]
    split_ifs
    · exact ⟨_, rfl, recorded.renumber number, rfl⟩
    · exact ⟨_, rfl, recorded, rfl⟩
  rw [object_eq]
  refine ⟨inv.allocmaps, inv.freemaps, ⟨disk, ?_, smo_recorded⟩, ?_, ?_, nofun, ?_⟩
  · exact balanced.congr rfl rfl (fun _ _ _ => rfl) (fun _ _ _ => rfl) (by simp [books, quiet])
  · rintro _ _ ⟨⟩ ⟨⟩
  · intro txg lower upper settled present
    have later := settled (by simp)
    have slots : txgSlot txg ≠ txgSlot state.syncing :=
      (txgSlot_inj lower (upper.trans (by omega)) le_rfl (by omega)).not.mpr later
    have listed := inv.dirty txg lower upper (by simp [quiet]) present
    simpa [Metaslab.vdevClean, slots] using listed
  · rcases inv.core with loaded | unloaded
    · exact .inl { loaded with }
    · refine .inr { unloaded with
        stage := by simp, longer := size_eq ▸ unloaded.longer, loading := fun frame busy => ?_ }
      have loading := unloaded.loading frame busy
      exact { loading with
        current := ⟨loading.current.1, loading.current.2.1, fun _ => other frame busy⟩ }

variable {object : DmuObject}

/-- What the steps of `metaslab_sync` leave alone. -/
theorem Inv.coreSync (inv : state.Inv geometry ledger) {allocmap freemap : ℕ → SpaceMap}
    {smo : SpaceMapObj} {node : ℕ → Bool} {sync : Option SyncStage}
    (allocs : state.Unloaded geometry ledger → ∀ txg, (allocmap (txgSlot txg)).points = ∅)
    (stage : state.Unloaded geometry ledger → sync ≠ some .condensed)
    (log : state.Unloaded geometry ledger →
      dmuRead object 0 state.msp.msSmoSyncing.smoObjsize =
        dmuRead state.object 0 state.msp.msSmoSyncing.smoObjsize ∧
      state.msp.msSmoSyncing.smoObjsize ≤ smo.smoObjsize) (running : state.sync ≠ none) :
    Loaded geometry ⟨{ state.msp with
        msAllocmap := allocmap, msFreemap := freemap, msSmoSyncing := smo, msTxgNode := node },
      object, state.load, sync, state.synced⟩ ledger ∨
    Unloaded geometry ⟨{ state.msp with
        msAllocmap := allocmap, msFreemap := freemap, msSmoSyncing := smo, msTxgNode := node },
      object, state.load, sync, state.synced⟩ ledger := by
  rcases inv.core with loaded | unloaded
  · exact .inl { loaded with }
  · obtain ⟨log_eq, longer⟩ := log unloaded
    have old_longer := unloaded.longer
    refine .inr { unloaded with
      allocs := allocs unloaded
      stage := stage unloaded
      smo := unloaded.smo.congr (dmuRead_congr log_eq (by omega))
      longer := unloaded.longer.trans longer
      loading := fun frame busy => ?_ }
    · have loading := unloaded.loading frame busy
      refine { loading with
        rest := ?_
        current := ⟨loading.current.1, loading.current.2.1, fun _ => loading.current.2.2 running⟩ }
      obtain ⟨final, rest, ok⟩ := loading.rest
      refine ⟨final, ?_, ok⟩
      by_cases more : frame.offset ≤ frame.stop
      · rw [dmuRead_congr log_eq (by have := loading.stop; omega)]
        exact rest
      · rw [show frame.stop - frame.offset = 0 by omega] at rest ⊢
        exact rest

variable {msp : Metaslab}

theorem Inv.syncWalk (inv : state.Inv geometry ledger)
    (walked : Zfs.syncWalk false state.syncing state.msp = .ok msp) :
    ∃ freedMap, msp = state.msp.setFreemap (state.syncing + 3) freedMap ∧
    MapOk geometry.range freedMap ∧ freedMap.points =
      state.msp.freePoints (state.syncing + 3) ∪ state.msp.freePoints state.syncing := by
  obtain ⟨freedMap, added, done⟩ := bind_ok walked
  cases done
  obtain ⟨ok, points⟩ := (implements_add false).walk (inv.freemaps _) (inv.freemaps _) added
  refine ⟨freedMap, by simp [Metaslab.setFreemap, txgSlot_clean], ok, ?_⟩
  rw [points, txgSlot_clean]
  rfl

variable {sm : SpaceMap}

/-- `metaslab_sync` collects the frees and goes on to append. -/
theorem Inv.syncAppend (inv : state.Inv geometry ledger) (begun : state.sync = some .begun)
    (walked : Zfs.syncWalk false state.syncing state.msp = .ok msp) :
    Inv geometry { state with msp := msp, sync := some .allocs } ledger := by
  obtain ⟨freedMap, rfl, ok, freed_points⟩ := inv.syncWalk walked
  have points := @Metaslab.freePoints_setFreemap state.msp state.syncing
    (state.syncing + 3) freedMap
    (by omega) le_rfl
  rw [freed_points] at points
  obtain ⟨disk, balanced, recorded⟩ := inv.disk (by simp [begun]) (by simp [begun])
  refine ⟨inv.allocmaps, MapOk.update inv.freemaps ok _, ⟨disk, ?_, recorded⟩, ?_, ?_, nofun, ?_⟩
  · have collected := balanced.walk (by simp [books, begun])
    exact collected.congr rfl rfl (fun _ _ _ => rfl) points (by simp [books])
  · rintro _ _ ⟨⟩ ⟨⟩
  · intro txg lower (upper : txg ≤ state.syncing + 2) settled present
    refine inv.dirty txg lower upper (fun _ => settled (by simp)) ?_
    have same := points txg lower (by omega)
    rw [update_of_ne (by omega)] at same
    exact present.imp_right fun present => same ▸ present
  · exact inv.coreSync (fun unloaded => unloaded.allocs) (fun _ => by simp)
      (fun _ => ⟨rfl, le_rfl⟩) (by simp [begun])

theorem points_eq_empty {range : SpaceMap} (ok : MapOk range sm) (empty : sm.smSpace = 0) :
    sm.points = ∅ := by
  have count := ok.wf.ncard_points.1
  rw [empty] at count
  exact (Set.ncard_eq_zero ok.wf.ncard_points.2).mp count

theorem mapOk_empty {range : SpaceMap} (ok : MapOk range sm) : MapOk range (spaceMapEmpty sm) :=
  ⟨wf_spaceMapEmpty sm, ⟨ok.same.start, ok.same.size, ok.same.shift⟩⟩

variable (inv : state.Inv geometry ledger)

include inv

theorem Inv.syncCondense (loaded : state.Loaded geometry ledger) (disk : Set ℕ)
    (made : Zfs.syncCondense false state.syncing state.msp = .ok msp) :
    ∃ allocmap, msp = (state.msp.setFreemap state.syncing
        (spaceMapEmpty (state.msp.msFreemap (txgSlot state.syncing)))).setAllocmap state.syncing
          allocmap ∧
      MapOk geometry.range allocmap ∧
      allocmap.points = (state.books disk).condensed geometry.bytes ledger := by
  have others : txgSlot (state.syncing + 3) ≠ txgSlot state.syncing := by
    rw [txgSlot_eq, txgSlot_eq]
    omega
  have base := mapOk_empty (inv.allocmaps (txgSlot state.syncing))
  have noWrap := geometry.ranged.noWrap
  obtain ⟨whole, added, rest⟩ := bind_ok made
  obtain ⟨unfree, removed, rest⟩ := bind_ok rest
  obtain ⟨unfreed, removed', rest⟩ := bind_ok rest
  obtain ⟨allocmap, removed'', rest⟩ := bind_ok rest
  obtain ⟨first, removed₁, more⟩ := bind_ok removed''
  obtain ⟨second, removed₂, last⟩ := bind_ok more
  obtain rfl := Except.ok.inj last
  refine ⟨second, (Except.ok.inj rest).symm, ?_⟩
  rw [base.same.start, base.same.size] at added
  obtain ⟨whole_wf, whole_points, whole_range⟩ := spaceMapAdd_ok base.wf noWrap added
  have remove := implements_remove false
  obtain ⟨ok₁, points₁⟩ := remove.walk loaded.map ⟨whole_wf, base.same.trans whole_range⟩ removed
  rw [txgSlot_clean] at removed'
  obtain ⟨ok₂, points₂⟩ :=
    remove.walk (MapOk.update inv.freemaps (mapOk_empty (inv.freemaps _)) _ _) ok₁ removed'
  obtain ⟨ok₃, points₃⟩ := remove.walk (inv.allocmaps _) ok₂ removed₁
  obtain ⟨ok₄, points₄⟩ := remove.walk (inv.allocmaps _) ok₃ removed₂
  refine ⟨ok₄, ?_⟩
  rw [points₄, points₃, points₂, points₁, whole_points, loaded.points, points_spaceMapEmpty]
  ext byte
  simp only [SetAction.apply, condensed, update_of_ne others,
    Set.mem_sdiff, Set.mem_union, Set.mem_empty_iff_false, false_or, Set.mem_ofPred_eq]
  tauto

/-- `metaslab_sync` has made the alloc map anew. -/
theorem Inv.condense (stage : state.sync = some .allocs)
    (flag : state.msp.msMap.smLoaded = true)
    (made : Zfs.syncCondense false state.syncing state.msp = .ok msp) :
    Inv geometry { state with msp := msp, sync := some .condensed } ledger := by
  have loaded := inv.loaded flag
  obtain ⟨disk, balanced, -⟩ := inv.balance
  obtain ⟨allocmap, rfl, ok, alloc_points⟩ := inv.syncCondense loaded disk made
  have emptied := mapOk_empty (inv.freemaps (txgSlot state.syncing))
  have frees := @Metaslab.freePoints_setFreemap state.msp state.syncing state.syncing
    (spaceMapEmpty (state.msp.msFreemap (txgSlot state.syncing))) le_rfl (by omega)
  have allocs := @Metaslab.allocPoints_setAllocmap state.msp state.syncing state.syncing allocmap
    le_rfl (by omega)
  rw [points_spaceMapEmpty] at frees
  rw [alloc_points] at allocs
  refine ⟨MapOk.update inv.allocmaps ok _, MapOk.update inv.freemaps emptied _,
    ⟨∅, ?_, rfl⟩, ?_, ?_, nofun, .inl ?_⟩
  · have balance := balanced.condense (by simp [books, stage])
    exact balance.congr rfl rfl allocs frees (by simp [books, stage])
  · rintro _ _ ⟨⟩ ⟨⟩
  · intro txg lower (upper : txg ≤ state.syncing + 2) settled present
    have later : txg ≠ state.syncing := settled (by simp)
    refine inv.dirty txg lower upper (fun _ => later) ?_
    have alloc_same := allocs txg lower (by omega)
    have free_same := frees txg lower (by omega)
    rw [update_of_ne later] at alloc_same free_same
    exact present.imp (fun present => alloc_same ▸ present) fun present => free_same ▸ present
  · exact { loaded with }

/-- A step of `metaslab_sync` that changes only the object. -/
theorem Inv.move {stage stage' : SyncStage} {smo : SpaceMapObj} (running : state.sync = some stage)
    (walked : stage ≠ .begun) (walked' : stage' ≠ .begun)
    (disk : ∀ disk, state.DiskOk geometry disk → DiskOk geometry { state with
      msp := { state.msp with msSmoSyncing := smo }, object := object, sync := some stage' } disk)
    (taken : ∀ maptype, stage'.Took maptype → (state.msp.txgMap state.syncing maptype).points = ∅)
    (plain : stage' ≠ .condensed)
    (log : state.Unloaded geometry ledger →
      dmuRead object 0 state.msp.msSmoSyncing.smoObjsize =
        dmuRead state.object 0 state.msp.msSmoSyncing.smoObjsize ∧
      state.msp.msSmoSyncing.smoObjsize ≤ smo.smoObjsize) :
    Inv geometry { state with
      msp := { state.msp with msSmoSyncing := smo }, object := object, sync := some stage' }
      ledger := by
  obtain ⟨recorded, balanced, ok⟩ := inv.balance
  refine ⟨inv.allocmaps, inv.freemaps, ⟨recorded, ?_, disk recorded ok⟩, ?_, ?_, nofun, ?_⟩
  · exact balanced.congr rfl rfl (fun _ _ _ => rfl) (fun _ _ _ => rfl)
      (by simp [books, running, walked, walked'])
  · rintro _ maptype ⟨⟩ took
    exact taken maptype took
  · intro txg lower upper settled
    exact inv.dirty txg lower upper fun _ => settled (by simp)
  · exact inv.coreSync (fun unloaded => unloaded.allocs) (fun _ => by simpa using plain) log
      (by simp [running])

theorem Inv.syncTruncate (stage : state.sync = some .condensed) :
    Inv geometry { state with
      msp := { state.msp with msSmoSyncing := (spaceMapTruncate state.msp.msSmoSyncing).1 }
      object := (spaceMapTruncate state.msp.msSmoSyncing).2
      sync := some .allocs } ledger := by
  refine inv.move stage nofun nofun (fun disk ok => ?_) (fun _ => False.elim) nofun
    (fun unloaded => absurd stage unloaded.stage)
  rw [DiskOk, stage] at ok
  subst ok
  exact recorded_empty geometry.range _ rfl rfl

/-- Both maps are in the object, and the metaslab waits for its transaction group to be done. -/
theorem Inv.syncEnd {stage : SyncStage} {smo : SpaceMapObj} (running : state.sync = some stage)
    (empty : ∀ maptype, (state.msp.txgMap state.syncing maptype).points = ∅)
    (disk : ∀ disk, state.DiskOk geometry disk → Recorded geometry.range disk smo object)
    (log : dmuRead object 0 state.msp.msSmoSyncing.smoObjsize =
        dmuRead state.object 0 state.msp.msSmoSyncing.smoObjsize ∧
      state.msp.msSmoSyncing.smoObjsize ≤ smo.smoObjsize) :
    Inv geometry (appended { state with
      msp := { state.msp with msSmoSyncing := smo }, object := object } .free) ledger := by
  obtain ⟨recorded, balanced, ok⟩ := inv.balance
  refine ⟨inv.allocmaps, inv.freemaps, ⟨recorded, ?_, disk recorded ok⟩, nofun, ?_, ?_, ?_⟩
  · have settled := balanced.settle (empty .free) False
    exact settled.congr rfl rfl (fun _ _ _ => rfl) (fun _ _ _ => rfl) (by simp [books, appended])
  · intro txg lower upper _ present
    have later : txg ≠ state.syncing := by
      rintro rfl
      rcases present with ⟨byte, present⟩ | ⟨byte, present⟩
      · exact (empty .alloc ▸ present : byte ∈ (∅ : Set ℕ))
      · exact (empty .free ▸ present : byte ∈ (∅ : Set ℕ))
    have listed := inv.dirty txg lower upper (fun _ => later) present
    simp only [appended, Metaslab.vdevDirty, update_apply]
    split_ifs
    · rfl
    · exact listed
  · intro _ _
    simp [appended, Metaslab.vdevDirty, txgSlot_clean, syncing]
  · exact inv.coreSync (fun unloaded => unloaded.allocs) (fun _ => by simp) (fun _ => log)
      (by simp [running])

/-- `space_map_sync` takes the alloc map apart. -/
theorem Inv.takeAllocs (stage : state.sync = some .allocs) (syncPass : ℕ)
    (some_left : (state.msp.txgMap state.syncing .alloc).smSpace ≠ 0) :
    Inv geometry (state.spaceMapSync .alloc syncPass) ledger := by
  obtain ⟨disk, balanced, recorded⟩ := inv.disk (by simp [stage]) (by simp [stage])
  have ok := inv.allocmaps (txgSlot state.syncing)
  have apart : Disjoint (state.msp.allocPoints state.syncing) disk := by
    rw [Set.disjoint_left]
    intro byte in_alloc on_disk
    obtain ⟨place, -, sits⟩ := balanced.places byte
    obtain ⟨mark, rfl⟩ := ((sits.alloc state.syncing le_rfl (by simp [books])).mp in_alloc).eq_held
    exact sits.disk.mp on_disk
  obtain ⟨appends, type⟩ := recorded.enter geometry.ranged .alloc syncPass state.syncing ok.wf
    ok.same (geometry.fits ok) apart some_left
  have points := @Metaslab.allocPoints_setAllocmap state.msp state.syncing state.syncing
    (spaceMapEmpty (state.msp.msAllocmap (txgSlot state.syncing))) le_rfl (by omega)
  rw [points_spaceMapEmpty] at points
  have here := points state.syncing le_rfl (by omega)
  rw [update_self] at here
  rw [MetaslabState.spaceMapSync, if_neg some_left]
  refine ⟨MapOk.update inv.allocmaps (mapOk_empty ok) _, inv.freemaps,
    ⟨disk ∪ state.msp.allocPoints state.syncing, ?_, appends⟩, ?_, ?_, nofun, ?_⟩
  · exact balanced.writeAllocs.congr rfl rfl points (fun _ _ _ => rfl) (by simp [books, stage])
  · rintro _ maptype ⟨⟩ took
    obtain rfl : maptype = .alloc := took.resolve_right (by rw [Metaslab.txgMap, type]; nofun)
    exact here
  · intro txg lower (upper : txg ≤ state.syncing + 2) settled present
    have later : txg ≠ state.syncing := settled (by simp)
    refine inv.dirty txg lower upper (fun _ => later) (present.imp_left fun present => ?_)
    have same := points txg lower (by omega)
    rw [update_of_ne later] at same
    exact same ▸ present
  · refine inv.coreSync (fun unloaded txg => ?_) (fun _ => by simp) (fun _ => ⟨rfl, le_rfl⟩)
      (by simp [stage])
    by_cases same : txgSlot txg = txgSlot state.syncing
    · simp [Metaslab.emptyTxgMap, Metaslab.setAllocmap, same, points_spaceMapEmpty]
    · simpa [Metaslab.emptyTxgMap, Metaslab.setAllocmap, same, Metaslab.allocPoints] using
        unloaded.allocs txg

/-- `space_map_sync` takes the free map apart. -/
theorem Inv.takeFrees (stage : state.sync = some .frees) (syncPass : ℕ)
    (some_left : (state.msp.txgMap state.syncing .free).smSpace ≠ 0) :
    Inv geometry (state.spaceMapSync .free syncPass) ledger := by
  obtain ⟨disk, balanced, recorded⟩ := inv.disk (by simp [stage]) (by simp [stage])
  have ok := inv.freemaps (txgSlot state.syncing)
  have written := inv.taken .frees .alloc stage rfl
  obtain ⟨balance, recorded_before⟩ := balanced.writeFrees (by simp [books, stage]) written
  obtain ⟨appends, type⟩ := recorded.enter geometry.ranged .free syncPass state.syncing ok.wf
    ok.same (geometry.fits ok) recorded_before some_left
  have points := @Metaslab.freePoints_setFreemap state.msp state.syncing state.syncing
    (spaceMapEmpty (state.msp.msFreemap (txgSlot state.syncing))) le_rfl (by omega)
  rw [points_spaceMapEmpty] at points
  have here := points state.syncing le_rfl (by omega)
  rw [update_self] at here
  rw [MetaslabState.spaceMapSync, if_neg some_left]
  refine ⟨inv.allocmaps, MapOk.update inv.freemaps (mapOk_empty ok) _,
    ⟨disk \ state.msp.freePoints state.syncing, ?_, appends⟩, ?_, ?_, nofun, ?_⟩
  · have settled := balance.settle (update_self _ _ _) True
    exact settled.congr rfl rfl (fun _ _ _ => rfl) points (by simp [books])
  · rintro _ maptype ⟨⟩ -
    cases maptype with
    | alloc => exact written
    | free => exact here
  · intro txg lower (upper : txg ≤ state.syncing + 2) settled present
    have later : txg ≠ state.syncing := settled (by simp)
    refine inv.dirty txg lower upper (fun _ => later) (present.imp_right fun present => ?_)
    have same := points txg lower (by omega)
    rw [update_of_ne later] at same
    exact same ▸ present
  · exact inv.coreSync (fun unloaded => unloaded.allocs) (fun _ => by simp)
      (fun _ => ⟨rfl, le_rfl⟩) (by simp [stage])

theorem Inv.syncAllocs (stage : state.sync = some .allocs) (syncPass : ℕ) :
    Inv geometry (state.spaceMapSync .alloc syncPass) ledger := by
  by_cases none_left : (state.msp.txgMap state.syncing .alloc).smSpace = 0
  · rw [MetaslabState.spaceMapSync, if_pos none_left]
    refine inv.move stage nofun nofun
      (fun disk ok => ?_) ?_ nofun (fun _ => ⟨rfl, le_rfl⟩)
    · rwa [DiskOk, stage] at ok
    · rintro maptype rfl
      exact points_eq_empty (inv.allocmaps _) none_left
  · exact inv.takeAllocs stage syncPass none_left

theorem Inv.syncFrees (stage : state.sync = some .frees) (syncPass : ℕ) :
    Inv geometry (state.spaceMapSync .free syncPass) ledger := by
  by_cases none_left : (state.msp.txgMap state.syncing .free).smSpace = 0
  · rw [MetaslabState.spaceMapSync, if_pos none_left]
    refine inv.syncEnd stage ?_
      (fun disk ok => ?_) ⟨rfl, le_rfl⟩
    · intro maptype
      cases maptype with
      | alloc => exact inv.taken .frees .alloc stage rfl
      | free => exact points_eq_empty (inv.freemaps _) none_left
    · rwa [DiskOk, stage] at ok
  · exact inv.takeFrees stage syncPass none_left

/-- `space_map_sync` writes a buffer and goes on. -/
theorem Inv.syncWrite {frame : SyncFrame} {next : MetaslabState}
    (running : state.sync = some (.writing frame)) (written : state.syncWrite frame = .ok next) :
    Inv geometry next ledger := by
  obtain ⟨disk, -, appends⟩ := inv.balance
  rw [DiskOk, running] at appends
  have log : dmuRead (dmuWrite state.object state.msp.msSmoSyncing.smoObjsize frame.entryMap) 0
      state.msp.msSmoSyncing.smoObjsize =
        dmuRead state.object 0 state.msp.msSmoSyncing.smoObjsize :=
    dmuRead_dmuWrite_below _ _ _
  have longer := Nat.le_add_right state.msp.msSmoSyncing.smoObjsize (8 * frame.entryMap.length)
  rw [MetaslabState.syncWrite] at written
  split_ifs at written with more none_left
  · cases written
    refine inv.move running nofun nofun (fun disk ok => ?_) (fun maptype took => ?_) nofun
      (fun _ => ⟨log, longer⟩)
    · rw [DiskOk, running] at ok
      exact (ok.write more).1
    · refine inv.taken _ maptype running (took.imp_right fun type => ?_)
      exact (appends.write more).2.symm.trans type
  · cases written
    have done : frame.size = 0 := not_ne_iff.mp more
    cases type : frame.maptype with
    | alloc =>
      refine inv.move running nofun nofun (fun disk ok => ?_) ?_ nofun (fun _ => ⟨log, longer⟩)
      · rw [DiskOk, running] at ok
        exact (ok.last done).2
      · rintro maptype rfl
        exact inv.taken _ .alloc running (.inl rfl)
    | free =>
      refine inv.syncEnd running (fun maptype => inv.taken _ maptype running (.inr type))
        (fun disk ok => ?_) ⟨log, longer⟩
      rw [DiskOk, running] at ok
      exact (ok.last done).2

end MetaslabState

end Zfs
