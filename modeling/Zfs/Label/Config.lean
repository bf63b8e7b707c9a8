import Zfs.Label.Crash

/-!
# The configuration in the labels after a crash

`vdev_label_read_config` returns the first of the four labels of a vdev that can be read and
unpacked. It does not compare the label with an uberblock.
-/

namespace Zfs

open CrashDisk ConfigSync

/-- `vdev_label_read_config`: the group of what it returns. -/
def vdevLabelReadConfig (disk : LabelDisk) (readable : Fin 4 → Bool) (guid : ℕ) : Option ℕ :=
  (List.finRange 4).findSome? fun l =>
    match readable l, disk (.label guid l) with
    | true, .label txg => some txg
    | _, _ => none

/-- The label that is returned is the first readable one. -/
theorem label_of_readConfig {disk : LabelDisk} {readable : Fin 4 → Bool} {guid txg : ℕ}
    (config : vdevLabelReadConfig disk readable guid = some txg) :
    ∃ l, disk (.label guid l) = .label txg ∧ readable l = true ∧
      ∀ before, readable before = true → ∀ other, disk (.label guid before) = .label other →
        l ≤ before := by
  obtain ⟨front, l, back, all, found, none⟩ := List.findSome?_eq_some_iff.mp config
  split at found
  next can here =>
    refine ⟨l, by rw [here, Option.some.inj found], can, fun before reads other holds => ?_⟩
    have sorted := List.pairwise_lt_finRange 4
    have member : before ∈ List.finRange 4 := List.mem_finRange before
    rw [all] at sorted member
    rcases List.mem_append.mp member with inFront | behind
    · have := none before inFront
      rw [reads, holds] at this
      cases this
    · rcases List.mem_cons.mp behind with same | behind
      · exact same.ge
      · exact (List.rel_of_pairwise_cons (List.pairwise_append.mp sorted).2.1 behind).le
  next => cases found

variable {sync : ConfigSync} {disk : LabelDisk} {fate : LabelLoc → Fate} {guid txg : ℕ} {l : Fin 4}
  {outcomes : List (LabelLoc → Outcome)}

/-- A label on the disks was there before the call, or is a new one. -/
theorem run_label (holds : (sync.run disk outcomes).disk (.label guid l) = .label txg) :
    disk (.label guid l) = .label txg ∨ txg = sync.ub.ubTxg := by
  rcases @run_cases sync disk outcomes (.label guid l) with same | torn | ⟨phase, _, written⟩
  · exact .inl (same.symm.trans holds)
  · cases torn.symm.trans holds
  · rw [holds] at written
    cases phase with
    | uberblocks | allUberblocks => cases written
    | evenLabels | oddLabels | done => exact .inr (LabelBlock.label.inj written)

theorem le_vdevUberblockLoad_iff {order reads : List LabelLoc} (perm : order.Perm reads)
    (positive : 0 < txg) : txg ≤ (vdevUberblockLoad disk order).ubTxg ↔
      ∃ loc ∈ reads, ∃ ub, disk loc = .uberblock ub ∧ uberblockVerify ub = 0 ∧ txg ≤ ub.ubTxg := by
  rw [vdevUberblockLoad_eq]
  constructor
  · intro order_le
    rcases @foldl_keepBest_mem _ _ _ ubKey ⟨0, 0, 0, 0, 0⟩
      (order.filterMap fun loc => candidate (disk loc)) with blank | member
    · rw [blank] at order_le
      exact absurd order_le (not_le.mpr positive)
    · obtain ⟨loc, read, holds, verified⟩ := (mem_candidates perm).mp member
      exact ⟨loc, read, _, holds, verified, order_le⟩
  · rintro ⟨loc, read, ub, holds, verified, order_le⟩
    have member := (mem_candidates perm).mpr ⟨loc, read, holds, verified⟩
    have best := @le_foldl_keepBest _ _ _ ubKey ⟨0, 0, 0, 0, 0⟩ _ ub
      (List.mem_cons_of_mem _ member)
    exact order_le.trans (Prod.Lex.monotone_fst _ _ best)

/-- A ring that is read holds the uberblock. -/
def UberblockOn (sync : ConfigSync) (disk : LabelDisk) (ub : Uberblock) : Prop :=
  ∃ loc ∈ vdevUberblockReads sync.rvd, disk loc = .uberblock ub

/-- Every new label that can be read is behind an old one that can be read. -/
def LabelsKept (sync : ConfigSync) (disk : LabelDisk) (readable : Fin 4 → Bool) (guid : ℕ) : Prop :=
  ∀ l, readable l = true → disk (.label guid l) = .label sync.ub.ubTxg →
    ∃ before < l, readable before = true ∧
      ∃ txg ≠ sync.ub.ubTxg, disk (.label guid before) = .label txg

/-- The labels are kept exactly if the one that is returned is no new one. -/
theorem labelsKept_iff {readable : Fin 4 → Bool}
    (config : vdevLabelReadConfig disk readable guid = some txg) :
    LabelsKept sync disk readable guid ↔ txg ≠ sync.ub.ubTxg := by
  obtain ⟨l, holds, reads, first⟩ := label_of_readConfig config
  constructor
  · rintro kept rfl
    obtain ⟨before, less, can, other, -, here⟩ := kept l reads holds
    exact absurd (first before can other here) (not_le.mpr less)
  · intro old new can here
    refine ⟨l, (first new can _ here).lt_of_ne fun same => ?_, reads, txg, old, holds⟩
    rw [same, here] at holds
    exact old (LabelBlock.label.inj holds).symm

section Recovery

variable {old : Uberblock} (committed : Committed sync.rvd disk old)
  (later : old.ubTxg < sync.ub.ubTxg) (valid : uberblockVerify sync.ub = 0)
  {order : List LabelLoc} (perm : order.Perm (vdevUberblockReads sync.rvd))

include committed later perm

/-- Without the new uberblock nothing of its transaction group is found. -/
theorem load_lt_of_absent
    (absent : ¬ UberblockOn sync (sync.crash (sync.run disk outcomes) fate) sync.ub) :
    (vdevUberblockLoad (sync.crash (sync.run disk outcomes) fate) order).ubTxg < sync.ub.ubTxg := by
  rw [← not_le, le_vdevUberblockLoad_iff perm (by omega)]
  rintro ⟨loc, read, ub, holds, verified, newer⟩
  rcases crash_uberblock committed read holds verified with rfl | rfl | older
  · exact absent ⟨loc, read, holds⟩
  · omega
  · have below : ub.ubTxg ≤ old.ubTxg :=
      Prod.Lex.monotone_fst _ _ ((ubKey_lt_iff _ _).mpr older).le
    omega

include valid

end Recovery

theorem relabelOneDisk_committed :
    Committed relabelOneDisk.rvd syncedPool.disk (oneDiskUberblock 4) := syncedPool_committed

theorem syncedPool_labels (guid : ℕ) (l : Fin 4) (txg : ℕ)
    (holds : syncedPool.disk (.label guid l) = .label txg) : txg ≤ (oneDiskUberblock 4).ubTxg := by
  rcases @run_label ((syncOneDisk 4 4).config (oneDiskUberblock 4)) createdPool.disk guid txg l
    (syncOneDisk 4 4).outcomes holds with template | rfl
  · cases template
  · exact le_rfl

end Zfs
