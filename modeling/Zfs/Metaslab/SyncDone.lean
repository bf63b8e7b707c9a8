import Zfs.Metaslab.Sync

/-!
# The end of a transaction group

`metaslab_sync_done` hands what has been freed back to the in-core map, or evicts the map.  Its new
weight keeps the active bits, so a metaslab without a map stays inactive.
-/

namespace Zfs

open BalancedTree BalTree Segments Books Function

theorem and_activeMask_eq_zero {value : ℕ} (small : value < 2 ^ 62) :
    value &&& metaslabActiveMask = 0 := by
  have mask : metaslabActiveMask = 3 <<< 62 := by decide
  apply Nat.eq_of_testBit_eq
  intro bit
  rw [Nat.testBit_and, mask, Nat.testBit_shiftLeft, Nat.zero_testBit]
  by_cases low : bit < 62
  · simp [low]
  · have high : 2 ^ 62 ≤ 2 ^ bit := Nat.pow_le_pow_right (by decide) (by omega)
    simp [Nat.testBit_lt_two_pow (small.trans_le high)]

theorem weight_lt {space index count : ℕ} (small : space ≤ 2 ^ 56) (inside : index ≤ count)
    (smo : SpaceMapObj) :
    (if smo.smoObject ≠ 0 then
      sub64 (2 * space % 2 ^ 64) (index * space % 2 ^ 64 / count) *
        metaslabSmoBonusMultiplier % 2 ^ 64
    else sub64 (2 * space % 2 ^ 64) (index * space % 2 ^ 64 / count)) < 2 ^ 62 := by
  have bonus_le : index * space % 2 ^ 64 / count ≤ space := by
    calc index * space % 2 ^ 64 / count ≤ count * space / count :=
          Nat.div_le_div_right ((Nat.mod_le _ _).trans (Nat.mul_le_mul_right _ inside))
      _ ≤ space := Nat.div_le_of_le_mul le_rfl
  generalize index * space % 2 ^ 64 / count = bonus at bonus_le ⊢
  rw [Nat.mod_eq_of_lt (by omega : 2 * space < 2 ^ 64), sub64_eq (by omega) (by omega)]
  split_ifs
  · exact (Nat.mod_le _ _).trans_lt (by rw [metaslabSmoBonusMultiplier]; omega)
  · omega

variable {msp : Metaslab} {sm range : SpaceMap}

/-- The weight has the active bits of the old one. -/
theorem metaslabWeight_and (geometry : MetaslabGeometry) (same : SameRange geometry.range msp.msMap)
    (alloc : msp.msSmo.smoAlloc ≤ geometry.range.smSize) :
    metaslabWeight geometry.vd msp &&& metaslabActiveMask =
      msp.msWeight &&& metaslabActiveMask := by
  have small := geometry.small
  have inside := geometry.index
  rw [← same.start] at inside
  rw [← same.size] at small alloc
  have space_le : sub64 msp.msMap.smSize msp.msSmo.smoAlloc ≤ 2 ^ 56 := by
    rw [sub64_eq alloc (by omega)]
    omega
  rw [metaslabWeight, Nat.and_or_distrib_right, Nat.and_assoc, Nat.and_self,
    and_activeMask_eq_zero (weight_lt space_le inside msp.msSmo), Nat.zero_or]

theorem applyFunc_sameLoad {zfsRecover : Bool} {sm' : SpaceMap} {segs : List Seg}
    (ok : applyFunc (spaceMapAdd zfsRecover) sm segs = .ok sm') : SameLoad sm sm' := by
  induction segs generalizing sm with
  | nil =>
    cases ok
    exact ⟨rfl, rfl⟩
  | cons ss segs ih =>
    obtain ⟨next, added, rest⟩ := bind_ok ok
    exact (spaceMapAdd_same added).2.trans (ih rest)

namespace MetaslabState

variable {geometry : MetaslabGeometry} {state : MetaslabState} {ledger : Ledger}

theorem used_release (ledger : Ledger) (txg : ℕ) :
    (ledger.release txg).used = ledger.used \ {byte | ledger byte = .freed txg} := by
  ext byte
  by_cases done : ledger byte = .freed txg <;> simp [Ledger.used, Ledger.release, done]

/-- With everything written, the synced object records what is not free. -/
theorem Unloaded.of_balance {disk : Set ℕ}
    (balance : (state.books disk).Balance geometry.bytes ledger)
    (recorded : Recorded geometry.range disk state.msp.msSmo state.object)
    (settled : state.msp.freePoints (state.syncing + 3) = ∅)
    (allocs : ∀ txg, state.msp.allocPoints txg = ∅)
    (flag : state.msp.msMap.smLoaded = false) (map : MapOk geometry.range state.msp.msMap)
    (empty : state.msp.msMap.points = ∅) (inactive : ¬state.msp.Active) (quiet : state.sync = none)
    (longer : state.msp.msSmo.smoObjsize ≤ state.msp.msSmoSyncing.smoObjsize)
    (idle : state.load = none) : state.Unloaded geometry ledger := by
  have used_eq : ledger.used = disk := by
    ext byte
    exact balance.used_iff_disk (fun txg _ _ => allocs txg) settled byte
  refine ⟨flag, map.same, inactive, allocs, by simp [quiet], by rwa [used_eq], longer,
    fun _ => ⟨map.wf, empty⟩, fun frame busy => ?_⟩
  rw [idle] at busy
  cases busy

/-- Every transaction group has the slot of one of four in a row. -/
theorem allocPoints_eq_empty (first : ℕ)
    (empty : ∀ txg, first ≤ txg → txg ≤ first + 3 → msp.allocPoints txg = ∅) (txg : ℕ) :
    msp.allocPoints txg = ∅ := by
  have slot : txgSlot (first + (txg + 3 * first) % 4) = txgSlot txg := by
    rw [txgSlot_eq, txgSlot_eq]
    omega
  rw [Metaslab.allocPoints, ← slot]
  exact empty _ (by omega) (by omega)

theorem freePoints_syncDoneVacate {syncing : ℕ} (txg : ℕ) (lower : syncing ≤ txg)
    (upper : txg ≤ syncing + 3) :
    (syncDoneVacate syncing sm msp).freePoints txg =
      update msp.freePoints (syncing + 3) ∅ txg := by
  have same : (syncDoneVacate syncing sm msp).freePoints txg =
      (msp.setFreemap (syncing + 3)
        (spaceMapEmpty (msp.msFreemap (txgSlot (syncing + 3))))).freePoints txg := by
    simp only [syncDoneVacate, Metaslab.freePoints, Metaslab.setFreemap, txgSlot_clean]
  rw [same, Metaslab.freePoints_setFreemap (by omega) le_rfl txg lower upper,
    points_spaceMapEmpty]

section

variable (inv : state.Inv geometry ledger) (quiet : state.sync = none)
  (unlisted : state.msp.msTxgNode (txgSlot state.syncing) = false)

include inv quiet unlisted

/-- A metaslab that is not on the list of a group has empty maps. -/
theorem Inv.settled :
    state.msp.allocPoints state.syncing = ∅ ∧ state.msp.freePoints state.syncing = ∅ := by
  have listed := inv.dirty state.syncing le_rfl (by omega) (by simp [quiet])
  rw [unlisted] at listed
  constructor
  · exact Set.not_nonempty_iff_eq_empty.mp fun present => absurd (listed (.inl present)) (by simp)
  · exact Set.not_nonempty_iff_eq_empty.mp fun present => absurd (listed (.inr present)) (by simp)

theorem Inv.advance (allocs : msp.msAllocmap = state.msp.msAllocmap)
    (smo : msp.msSmoSyncing = state.msp.msSmoSyncing)
    (freemaps : ∀ slot, MapOk geometry.range (msp.msFreemap slot))
    (frees : ∀ txg, state.syncing ≤ txg → txg ≤ state.syncing + 2 →
      msp.freePoints txg = state.msp.freePoints txg)
    (emptied : msp.freePoints (state.syncing + 3) = ∅)
    (kept : ∀ txg, state.syncing ≤ txg → txg ≤ state.syncing + 2 →
      msp.msTxgNode (txgSlot txg) = state.msp.msTxgNode (txgSlot txg))
    (core : (∀ disk, Recorded geometry.range disk state.msp.msSmoSyncing state.object →
        ({ state with msp := msp, synced := state.syncing }.books disk).Balance geometry.bytes
          (ledger.release state.syncing) →
      Loaded geometry { state with msp := msp, synced := state.syncing }
          (ledger.release state.syncing) ∨
        Unloaded geometry { state with msp := msp, synced := state.syncing }
          (ledger.release state.syncing))) :
    Inv geometry { state with msp := msp, synced := state.syncing }
      (ledger.release state.syncing) := by
  obtain ⟨no_allocs, no_frees⟩ := inv.settled quiet unlisted
  obtain ⟨disk, balanced, recorded⟩ := inv.disk (by simp [quiet]) (by simp [quiet])
  have alloc_same : msp.allocPoints = state.msp.allocPoints := by
    funext txg
    rw [Metaslab.allocPoints, allocs]
    rfl
  have spare : msp.allocPoints (state.syncing + 4) = ∅ := by
    rw [alloc_same, Metaslab.allocPoints, txgSlot_add_four]
    exact no_allocs
  have clean : msp.freePoints (state.syncing + 4) = ∅ := by
    rw [Metaslab.freePoints, txgSlot_add_four]
    exact (frees state.syncing le_rfl (by omega)).trans no_frees
  have balance : ({ state with msp := msp, synced := state.syncing }.books disk).Balance
      geometry.bytes (ledger.release state.syncing) :=
    balanced.release no_allocs no_frees rfl rfl (fun txg _ _ => congrFun alloc_same txg)
      (fun txg lower upper => frees txg (Nat.le_of_succ_le lower) upper) emptied spare clean
        (by simp [books, quiet])
  refine ⟨by rw [allocs]; exact inv.allocmaps, freemaps, ⟨disk, balance, ?_⟩, ?_, ?_, ?_,
    core disk recorded balance⟩
  · rw [DiskOk, quiet, smo]
    exact recorded
  · simp [quiet]
  · intro txg (lower : state.syncing + 1 ≤ txg) (upper : txg ≤ state.syncing + 1 + 2) _ present
    rcases Nat.lt_or_ge txg (state.syncing + 3) with below | last
    · rw [kept txg (by omega) (by omega)]
      refine inv.dirty txg (by omega) (by omega) (by simp [quiet]) ?_
      rwa [alloc_same, frees txg (by omega) (by omega)] at present
    · obtain rfl : txg = state.syncing + 3 := by omega
      rw [alloc_same, emptied] at present
      have spare_before : state.msp.allocPoints (state.syncing + 3) = ∅ := balanced.spare
      rw [spare_before] at present
      simp at present
  · intro _ present
    exact absurd clean (Set.nonempty_iff_ne_empty.mp present)

theorem Inv.freePoints_eq :
    state.msp.freePoints (state.syncing + 3) = {byte | ledger byte = .freed state.syncing} := by
  obtain ⟨disk, balanced, -⟩ := inv.balance
  ext byte
  exact balanced.mem_freed_iff (inv.settled quiet unlisted).2 byte

/-- A transaction group is done in which the metaslab was not synced. -/
theorem Inv.pass (other : state.NotLoadingFor state.syncing)
    (clean : state.msp.msTxgNode (txgSlot (txgClean state.syncing)) = false) :
    Inv geometry { state with synced := state.syncing } (ledger.release state.syncing) := by
  have emptied : state.msp.freePoints (state.syncing + 3) = ∅ := by
    by_contra present
    have listed := inv.clean quiet (Set.nonempty_iff_ne_empty.mpr present)
    rw [← txgSlot_clean, clean] at listed
    cases listed
  have same : ledger.release state.syncing = ledger := by
    funext byte
    have none_freed := inv.freePoints_eq quiet unlisted
    rw [emptied] at none_freed
    exact if_neg fun freed => (none_freed ▸ freed : byte ∈ (∅ : Set ℕ))
  refine inv.advance quiet unlisted rfl rfl inv.freemaps (fun _ _ _ => rfl) emptied
    (fun _ _ _ => rfl) fun disk recorded balance => ?_
  rw [same]
  rcases inv.core with loaded | unloaded
  · exact .inl { loaded with }
  · refine .inr { unloaded with loading := fun frame busy => ?_ }
    have loading := unloaded.loading frame busy
    refine { loading with current := ?_ }
    obtain ⟨lower, upper, -⟩ := loading.current
    have later := other frame busy
    simp only [Open, syncing] at later ⊢
    exact ⟨by omega, by omega, fun busy => absurd quiet busy⟩

/-- The in-core map of a loaded metaslab holds the free bytes again. -/
theorem Inv.returned (loaded : state.Loaded geometry ledger)
    (back : syncDoneReturn false state.syncing state.msp = .ok sm) :
    MapOk geometry.range sm ∧ sm.smLoaded = true ∧
    sm.points = geometry.bytes \ (ledger.release state.syncing).used := by
  rw [syncDoneReturn, if_pos loaded.flag, txgSlot_clean] at back
  obtain ⟨-, acts⟩ := (implements_add false).applyFunc _ (inv.freemaps _).wf.callable_postorder
    loaded.map.wf
  obtain ⟨wf, covered, same⟩ := acts sm back
  rw [segsCover_postorder] at covered
  have points : sm.points = state.msp.msMap.points ∪
    (state.msp.msFreemap (txgSlot (state.syncing + 3))).points := covered
  refine ⟨⟨wf, loaded.map.same.trans same⟩, (applyFunc_sameLoad back).1.trans loaded.flag, ?_⟩
  have freed : (state.msp.msFreemap (txgSlot (state.syncing + 3))).points =
    {byte | ledger byte = .freed state.syncing} := inv.freePoints_eq quiet unlisted
  rw [points, loaded.points, freed, used_release]
  ext byte
  have inside : ledger byte = .freed state.syncing → byte ∈ geometry.bytes := fun same =>
    inv.used_subset (by simp [Ledger.used, same])
  simp only [Set.mem_union, Set.mem_sdiff, Set.mem_ofPred_eq]
  tauto

/-- The freed map is empty, whatever becomes of the in-core map. -/
theorem Inv.vacate {ppd : Option (ℕ → ℕ)} {weight : ℕ} {state' : MetaslabState}
    (after : state' = { state with
      msp := { syncDoneVacate state.syncing sm (state.msp.vdevClean (txgClean state.syncing)) with
        smPpd := ppd, msWeight := weight }
      synced := state.syncing })
    (core : ∀ disk, Recorded geometry.range disk state'.msp.msSmo state'.object →
      (state'.books disk).Balance geometry.bytes (ledger.release state.syncing) →
      state'.msp.freePoints (state'.syncing + 3) = ∅ → state'.msp.allocPoints state.syncing = ∅ →
        state'.msp.allocPoints (state.syncing + 3) = ∅ →
          state'.Loaded geometry (ledger.release state.syncing) ∨
            state'.Unloaded geometry (ledger.release state.syncing)) :
    state'.Inv geometry (ledger.release state.syncing) := by
  subst after
  obtain ⟨no_allocs, no_frees⟩ := inv.settled quiet unlisted
  have emptied := mapOk_empty (inv.freemaps (txgSlot (txgClean state.syncing)))
  have frees := @freePoints_syncDoneVacate (state.msp.vdevClean (txgClean state.syncing)) sm
    state.syncing
  have kept : ∀ txg, state.syncing ≤ txg → txg ≤ state.syncing + 2 →
      (state.msp.vdevClean (txgClean state.syncing)).msTxgNode (txgSlot txg) =
        state.msp.msTxgNode (txgSlot txg) := by
    intro txg lower upper
    have other : txgSlot txg ≠ txgSlot (state.syncing + 3) :=
      (txgSlot_inj lower (by omega) (by omega) le_rfl).not.mpr (by omega)
    rw [Metaslab.vdevClean, txgSlot_clean]
    exact update_of_ne other _ _
  refine inv.advance quiet unlisted rfl rfl (.update inv.freemaps emptied _) ?_ ?_ kept ?_
  · intro txg lower upper
    refine (frees txg lower (by omega)).trans ?_
    exact update_of_ne (by omega) _ _
  · exact (frees _ (by omega) le_rfl).trans (update_self _ _ _)
  · intro disk recorded balance
    obtain ⟨before, balanced, -⟩ := inv.balance
    refine core disk recorded balance ?_ no_allocs balanced.spare
    change (Metaslab.freePoints _ (state.syncing + 4)) = ∅
    rw [Metaslab.freePoints, txgSlot_add_four]
    refine (frees _ le_rfl (by omega)).trans ?_
    rw [update_of_ne (by omega)]
    exact no_frees

theorem Inv.syncDone (idle : state.load = none)
    (done : metaslabSyncDone false geometry.vd state.syncing
      (state.msp.vdevClean (txgClean state.syncing)) = .ok msp) :
    Inv geometry { state with msp := msp, synced := state.syncing }
      (ledger.release state.syncing) := by
  have created : ((state.msp.vdevClean (txgClean state.syncing)).msFreemap
      (txgSlot (txgClean state.syncing))).smSize ≠ 0 := by
    have same := (inv.freemaps (txgSlot (txgClean state.syncing))).same.size
    exact same.trans_ne geometry.ranged.nonempty
  rw [metaslabSyncDone, syncDoneCreate, if_neg created] at done
  obtain ⟨sm, back, rest⟩ := bind_ok done
  cases rest
  have alloc_le : state.msp.msSmoSyncing.smoAlloc ≤ geometry.range.smSize := by
    obtain ⟨disk, -, recorded⟩ := inv.disk (by simp [quiet]) (by simp [quiet])
    rw [recorded.alloc_eq]
    exact (ncard_le_size recorded.inside).2
  rcases inv.core with loaded | unloaded
  · obtain ⟨map, flag, points⟩ := inv.returned quiet unlisted loaded back
    rw [syncDoneEvict]
    split_ifs with evict
    · -- the map is evicted, and the synced object takes its place
      obtain ⟨-, passive, future⟩ := evict
      rw [List.all_eq_true] at future
      have emptied := mapOk_empty map
      have range : SameRange geometry.range { spaceMapEmpty sm with smLoaded := false } :=
        ⟨map.same.start, map.same.size, map.same.shift⟩
      refine inv.vacate quiet unlisted rfl fun disk recorded balance settled first last => .inr ?_
      refine .of_balance balance recorded settled (allocPoints_eq_empty state.syncing ?_) rfl
        ⟨emptied.wf.reload _ _, range⟩ (points_spaceMapEmpty sm) ?_ quiet le_rfl idle
      · intro txg lower upper
        rcases (by omega : txg = state.syncing ∨ txg = state.syncing + 1 ∨ txg = state.syncing + 2 ∨
          txg = state.syncing + 3) with rfl | rfl | rfl | rfl
        · exact first
        · exact points_eq_empty (inv.allocmaps _) (of_decide_eq_true (future 1 (by decide)))
        · exact points_eq_empty (inv.allocmaps _) (of_decide_eq_true (future 2 (by decide)))
        · exact last
      · rw [Metaslab.Active, metaslabGroupSort, metaslabWeight_and geometry range alloc_le]
        exact passive
    · refine inv.vacate quiet unlisted rfl fun disk recorded balance settled first last => .inl ?_
      exact ⟨flag, map, points, loaded.ops, idle⟩
  · have stays : sm = state.msp.msMap := by
      rw [syncDoneReturn, if_neg (by simp [unloaded.flag, Metaslab.vdevClean])] at back
      exact (Except.ok.inj back).symm
    subst stays
    obtain ⟨wf, empty⟩ := unloaded.idle idle
    rw [syncDoneEvict, if_neg (by simp [syncDoneVacate, unloaded.flag])]
    refine inv.vacate quiet unlisted rfl fun disk recorded balance settled _ _ => .inr ?_
    refine .of_balance balance recorded settled unloaded.allocs unloaded.flag
      ⟨wf, unloaded.range⟩ empty ?_ quiet le_rfl idle
    have weight := @metaslabWeight_and (syncDoneVacate state.syncing state.msp.msMap
      (state.msp.vdevClean (txgClean state.syncing))) geometry unloaded.range alloc_le
    rw [Metaslab.Active, metaslabGroupSort, weight]
    exact unloaded.inactive

end

end MetaslabState

end Zfs
