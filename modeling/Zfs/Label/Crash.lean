import Zfs.Label.Ring
import Mathlib.Data.Prod.Lex

/-!
# Crashes during `vdev_config_sync`

Whatever part of the writes since the last flush has reached the disks, the uberblock found
afterwards is the new one or the one before, and labels fit it.
-/

namespace Zfs

open CrashDisk ConfigSync

/-- The order of uberblocks. -/
def ubKey (ub : Uberblock) : ℕ ×ₗ ℕ := toLex (ub.ubTxg, ub.ubTimestamp)

theorem ubKey_lt_iff (ub1 ub2 : Uberblock) :
    ubKey ub2 < ubKey ub1 ↔ vdevUberblockCompare ub1 ub2 > 0 := by
  rw [ubKey, ubKey, Prod.Lex.toLex_lt_toLex, vdevUberblockCompare]
  split_ifs <;> omega

/-- The uberblock that a read offers. -/
def candidate : LabelBlock → Option Uberblock
  | .uberblock ub => if uberblockVerify ub = 0 then some ub else none
  | _ => none

variable {ub : Uberblock} {loc : LabelLoc} {vd : TopVdev}

theorem candidate_eq_some {block : LabelBlock} :
    candidate block = some ub ↔ block = .uberblock ub ∧ uberblockVerify ub = 0 := by
  cases block with
  | uberblock other =>
    rw [candidate]
    split_ifs with valid
    · constructor
      · rintro ⟨⟩
        exact ⟨rfl, valid⟩
      · rintro ⟨⟨⟩, _⟩
        rfl
    · refine ⟨fun none => (nomatch none), ?_⟩
      rintro ⟨⟨⟩, verified⟩
      exact absurd verified valid
  | label txg => exact ⟨fun none => (nomatch none), fun both => (nomatch both.1)⟩
  | torn => exact ⟨fun none => (nomatch none), fun both => (nomatch both.1)⟩

theorem vdevUberblockLoad_eq (disk : LabelDisk) (order : List LabelLoc) :
    vdevUberblockLoad disk order =
      (order.filterMap fun loc => candidate (disk loc)).foldl (keepBest ubKey) ⟨0, 0, 0, 0, 0⟩ := by
  rw [vdevUberblockLoad]
  generalize (⟨0, 0, 0, 0, 0⟩ : Uberblock) = start
  induction order generalizing start with
  | nil => rfl
  | cons loc order ih =>
    rw [List.foldl_cons, ih, List.filterMap_cons]
    cases block : disk loc with
    | uberblock ub =>
      by_cases valid : uberblockVerify ub = 0
      · simp only [candidate, vdevUberblockLoadDone, valid, if_true, true_and, List.foldl_cons,
          keepBest, ubKey_lt_iff]
      · simp only [candidate, vdevUberblockLoadDone, valid, if_false, false_and]
    | label txg => rfl
    | torn => rfl

section Load

variable {disk : LabelDisk} {order reads : List LabelLoc} (perm : order.Perm reads)

include perm

theorem mem_candidates :
    ub ∈ order.filterMap (fun loc => candidate (disk loc)) ↔
      ∃ loc ∈ reads, disk loc = .uberblock ub ∧ uberblockVerify ub = 0 := by
  simp only [List.mem_filterMap, candidate_eq_some, perm.mem_iff]

/-- The newest uberblock is chosen in any order of the reads. -/
theorem vdevUberblockLoad_newest {best : Uberblock} (valid : uberblockVerify best = 0)
    (positive : 0 < best.ubTxg) (present : ∃ loc ∈ reads, disk loc = .uberblock best)
    (newest : ∀ loc ∈ reads, ∀ ub, disk loc = .uberblock ub → uberblockVerify ub = 0 →
      ub = best ∨ vdevUberblockCompare best ub > 0) :
    vdevUberblockLoad disk order = best := by
  rw [vdevUberblockLoad_eq]
  refine foldl_keepBest (.inl ?_) (fun ub member => ?_) (.inr ?_)
  · obtain ⟨loc, inside, holds⟩ := present
    exact (mem_candidates perm).mpr ⟨loc, inside, holds, valid⟩
  · obtain ⟨loc, inside, holds, verified⟩ := (mem_candidates perm).mp member
    rw [ubKey_lt_iff]
    exact newest loc inside ub holds verified
  · rw [ubKey_lt_iff, vdevUberblockCompare, if_neg (by simp), if_pos positive]
    decide

theorem vdevUberblockLoad_mem (positive : 0 < ub.ubTxg)
    (chosen : vdevUberblockLoad disk order = ub) :
    ∃ loc ∈ reads, disk loc = .uberblock ub := by
  rw [vdevUberblockLoad_eq] at chosen
  rcases @foldl_keepBest_mem _ _ _ ubKey ⟨0, 0, 0, 0, 0⟩
    (order.filterMap fun loc => candidate (disk loc)) with blank | member
  · rw [chosen] at blank
    rw [blank] at positive
    exact absurd positive (lt_irrefl 0)
  · rw [chosen] at member
    obtain ⟨loc, inside, holds, _⟩ := (mem_candidates perm).mp member
    exact ⟨loc, inside, holds⟩

end Load

theorem mem_vdevUberblockReads {rvd : List TopVdev} :
    loc ∈ vdevUberblockReads rvd ↔ ∃ vd ∈ rvd, ∃ guid ∈ vd.tree.liveLeaves, ∃ l,
      ∃ n < vdevUberblockCount vd.vdevAshift, loc = .uberblock guid l n := by
  simp only [vdevUberblockReads, List.mem_flatMap, List.mem_map, List.mem_finRange, true_and,
    List.mem_range, eq_comm]

variable {l : Fin 4}

theorem labelsOf_disjoint (even : l ∈ labelsOf false) : l ∉ labelsOf true := by
  revert even
  revert l
  decide

variable {sync : ConfigSync}

theorem ConfigSync.reads_of_write (top : vd ∈ sync.rvd)
    (write : loc ∈ vdevUberblockSync sync.ub vd) :
    loc ∈ vdevUberblockReads sync.rvd := by
  obtain ⟨guid, leaf, l, rfl⟩ := mem_vdevUberblockSync.mp write
  refine mem_vdevUberblockReads.mpr ⟨vd, top, guid, leaf, l, _, ?_, rfl⟩
  rw [uberblockSlot_eq vd.ashift_le, vdevUberblockCount_eq vd.ashift_le]
  exact Nat.mod_lt _ (Nat.two_pow_pos _)

theorem ConfigSync.uberblock_of_mem {phase : SyncPhase} {guid n : ℕ}
    (inside : .uberblock guid l n ∈ sync.locs phase) :
    sync.block phase = .uberblock sync.ub ∧ .uberblock guid l n ∈ sync.locs .allUberblocks := by
  rcases mem_locs inside with ⟨_, _, _, _, same⟩ | ⟨_, _, _, _, same⟩ | both
  · cases same
  · cases same
  · exact both

theorem ConfigSync.label_of_mem {phase : SyncPhase} {guid : ℕ}
    (inside : .label guid l ∈ sync.locs phase) :
    phase = .evenLabels ∧ l ∈ labelsOf false ∨ phase = .oddLabels ∧ l ∈ labelsOf true := by
  rcases mem_locs inside with ⟨rfl, _, _, even, ⟨⟩⟩ | ⟨rfl, _, _, odd, ⟨⟩⟩ | ⟨_, member⟩
  · exact .inl ⟨rfl, even⟩
  · exact .inr ⟨rfl, odd⟩
  · obtain ⟨vd, _, write⟩ := List.mem_flatMap.mp member
    obtain ⟨_, _, _, ⟨⟩⟩ := mem_vdevUberblockSync.mp write

/-- A successful `vdev_config_sync`: its uberblock is the newest. -/
structure Committed (rvd : List TopVdev) (disk : LabelDisk) (ub : Uberblock) : Prop where
  /-- The uberblock is accepted. -/
  valid : uberblockVerify ub = 0
  /-- Its group is not the initial one. -/
  positive : 0 < ub.ubTxg
  /-- It is in a ring that `vdev_uberblock_load` reads. -/
  present : ∃ loc ∈ vdevUberblockReads rvd, disk loc = .uberblock ub
  /-- No other uberblock is newer. -/
  newest : ∀ loc ∈ vdevUberblockReads rvd, ∀ other, disk loc = .uberblock other →
    uberblockVerify other = 0 → other = ub ∨ vdevUberblockCompare ub other > 0

/-- Every even label of every dirty top-level vdev is of the group. -/
def AllEvenLabels (sync : ConfigSync) (disk : LabelDisk) : Prop :=
  ∀ vd ∈ sync.dirty, ∀ loc ∈ vdevLabelSync sync.packs false vd, disk loc = .label sync.ub.ubTxg

/-- The odd labels are unchanged. -/
def OddLabelsKept (before after : LabelDisk) : Prop :=
  ∀ guid, ∀ l ∈ labelsOf true, after (.label guid l) = before (.label guid l)

/-- No label write reports an error. -/
def LabelsReliable (outcome : LabelLoc → Outcome) : Prop :=
  ∀ guid l, outcome (.label guid l) = .good

/-- One of the two uberblocks is found, and labels fit it. -/
structure Recovers (sync : ConfigSync) (disk : LabelDisk) (old : Uberblock)
    (outcomes : List (LabelLoc → Outcome)) (fate : LabelLoc → Fate) (order : List LabelLoc) :
    Prop where
  chosen : vdevUberblockLoad (sync.crash (sync.run disk outcomes) fate) order = old ∨
    vdevUberblockLoad (sync.crash (sync.run disk outcomes) fate) order = sync.ub
  even : vdevUberblockLoad (sync.crash (sync.run disk outcomes) fate) order = sync.ub →
    AllEvenLabels sync (sync.crash (sync.run disk outcomes) fate)
  odd : vdevUberblockLoad (sync.crash (sync.run disk outcomes) fate) order = old →
    OddLabelsKept disk (sync.crash (sync.run disk outcomes) fate)

/-- An uberblock has a copy in a slot that the new one does not use. -/
def Spared (sync : ConfigSync) (disk : LabelDisk) (old : Uberblock) : Prop :=
  ∃ loc ∈ vdevUberblockReads sync.rvd, loc ∉ sync.locs .allUberblocks ∧ disk loc = .uberblock old

/-- No write is torn. -/
def Tearless (outcomes : List (LabelLoc → Outcome)) (fate : LabelLoc → Fate) : Prop :=
  (∀ outcome ∈ outcomes, ∀ loc, (outcome loc).fate ≠ .torn) ∧ ∀ loc, fate loc ≠ .torn

/-- One of the two uberblocks is there, and stays there. -/
def Alive (sync : ConfigSync) (old : Uberblock) (tearless : Prop) (disk : LabelDisk) : Prop :=
  Spared sync disk old ∨ tearless ∧ ∃ loc ∈ vdevUberblockReads sync.rvd,
    disk loc = .uberblock old ∨ disk loc = .uberblock sync.ub

section Invariant

variable {old : Uberblock} {tearless reliable : Prop} {disk : LabelDisk} {phase : SyncPhase}
  {fate : LabelLoc → Fate}

/-- A phase keeps one of the two uberblocks. -/
theorem Alive.crash (alive : Alive sync old tearless disk)
    (whole : tearless → ∀ loc, fate loc ≠ .torn) :
    Alive sync old tearless (sync.crash ⟨disk, phase⟩ fate) := by
  rcases alive with ⟨loc, read, spared, holds⟩ | ⟨intact, loc, read, holds⟩
  · refine .inl ⟨loc, read, spared, (settle_of_notMem fun inside => spared ?_).trans holds⟩
    obtain ⟨_, _, guid, _, l, n, _, rfl⟩ := mem_vdevUberblockReads.mp read
    exact (uberblock_of_mem inside).2
  · refine .inr ⟨intact, loc, read, ?_⟩
    rcases @settle_cases _ _ _ LabelBlock.torn disk (sync.locs phase)
      (sync.block phase) fate loc with
      same | ⟨inside, written⟩ | ⟨_, torn, _⟩
    · rw [ConfigSync.crash, same]
      exact holds
    · obtain ⟨_, _, guid, _, l, n, _, rfl⟩ := mem_vdevUberblockReads.mp read
      exact .inr (written.trans (uberblock_of_mem inside).1)
    · exact absurd torn (whole intact loc)

variable {before : LabelDisk}

/-- Only the phase of the odd labels touches them. -/
theorem OddLabelsKept.crash (kept : OddLabelsKept before disk) (other : phase ≠ .oddLabels) :
    OddLabelsKept before (sync.crash ⟨disk, phase⟩ fate) := by
  intro guid l odd
  refine (settle_of_notMem fun inside => ?_).trans (kept guid l odd)
  rcases label_of_mem inside with ⟨_, even⟩ | ⟨same, _⟩
  · exact labelsOf_disjoint even odd
  · exact other same

section

variable (other : phase ≠ .evenLabels)

include other

theorem crash_even (even : loc ∈ vdevLabelSync sync.packs false vd) :
    sync.crash ⟨disk, phase⟩ fate loc = disk loc := by
  obtain ⟨guid, l, member, rfl⟩ := mem_vdevLabelSync even
  refine settle_of_notMem fun inside => ?_
  rcases label_of_mem inside with ⟨same, _⟩ | ⟨_, odd⟩
  · exact other same
  · exact labelsOf_disjoint member odd

theorem AllEvenLabels.crash (labels : AllEvenLabels sync disk) :
    AllEvenLabels sync (sync.crash ⟨disk, phase⟩ fate) :=
  fun vd member loc even => (crash_even other even).trans (labels vd member loc even)

end

/-- The state of `vdev_config_sync` between two phases. -/
structure SyncInvariant (sync : ConfigSync) (before : LabelDisk) (reliable : Prop)
    (state : LabelSyncState) : Prop where
  /-- The even labels come before the uberblock. -/
  unwritten : state.phase = .evenLabels → ∀ loc ∈ vdevUberblockReads sync.rvd,
    state.disk loc = before loc
  /-- After the first phase the even labels are written. -/
  even : state.phase ≠ .evenLabels → reliable → AllEvenLabels sync state.disk
  /-- Until the last phase the odd labels are kept. -/
  odd : state.phase ≠ .oddLabels → state.phase ≠ .done → OddLabelsKept before state.disk
  /-- The uberblock comes before the odd labels. -/
  present : state.phase = .oddLabels ∨ state.phase = .done →
    ∃ loc ∈ vdevUberblockReads sync.rvd, state.disk loc = .uberblock sync.ub

theorem crash_ring (labels : sync.block phase ≠ .uberblock sync.ub)
    (read : loc ∈ vdevUberblockReads sync.rvd) : sync.crash ⟨disk, phase⟩ fate loc = disk loc := by
  obtain ⟨_, _, guid, _, l, n, _, rfl⟩ := mem_vdevUberblockReads.mp read
  exact settle_of_notMem fun inside => labels (uberblock_of_mem inside).1

variable {outcome : LabelLoc → Outcome}

theorem allEvenLabels_of_reliable (good : LabelsReliable outcome) :
    AllEvenLabels sync (sync.crash ⟨disk, .evenLabels⟩ fun loc => (outcome loc).fate) := by
  intro vd member loc even
  refine settle_landed (List.mem_flatMap.mpr ⟨vd, member, even⟩) ?_
  obtain ⟨guid, l, _, rfl⟩ := mem_vdevLabelSync even
  rw [good guid l]
  rfl

/-- The uberblock is on some vdev after `vdev_uberblock_sync_list`. -/
theorem present_of_success {svd : List TopVdev} (sub : ∀ vd ∈ svd, vd ∈ sync.rvd)
    (success : vdevUberblockSyncList sync svd outcome = 0) :
    ∃ loc ∈ vdevUberblockReads sync.rvd, settle .torn disk (svd.flatMap (vdevUberblockSync sync.ub))
      (.uberblock sync.ub) (fun loc => (outcome loc).fate) loc = .uberblock sync.ub := by
  rw [vdevUberblockSyncList] at success
  split_ifs at success with some_good
  · obtain ⟨vd, member, good⟩ := List.any_eq_true.mp some_good
    rw [Bool.and_eq_true] at good
    obtain ⟨loc, write, good⟩ := List.any_eq_true.mp good.2
    refine ⟨loc, reads_of_write (sub vd member) write,
      settle_landed (List.mem_flatMap.mpr ⟨vd, member, write⟩) ?_⟩
    rw [of_decide_eq_true good]
    rfl
  · cases success

/-- A phase after the even labels keeps what they have established. -/
theorem SyncInvariant.later {next : SyncPhase}
    (inv : SyncInvariant sync before reliable ⟨disk, phase⟩) (other : phase ≠ .evenLabels)
    (next_other : next ≠ .evenLabels)
    (next_odd : next ≠ .oddLabels → next ≠ .done → phase ≠ .oddLabels ∧ phase ≠ .done)
    (present : next = .oddLabels ∨ next = .done → ∃ loc ∈ vdevUberblockReads sync.rvd,
      sync.crash ⟨disk, phase⟩ fate loc = .uberblock sync.ub) :
    SyncInvariant sync before reliable ⟨sync.crash ⟨disk, phase⟩ fate, next⟩ where
  unwritten same := absurd same next_other
  even _ calm := .crash other (inv.even other calm)
  odd not_odd not_done :=
    have earlier := next_odd not_odd not_done
    (inv.odd earlier.1 earlier.2).crash earlier.1
  present := present

theorem SyncInvariant.step {state : LabelSyncState}
    (inv : SyncInvariant sync before reliable state) (good : reliable → LabelsReliable outcome) :
    SyncInvariant sync before reliable (sync.step state outcome) := by
  obtain ⟨disk, phase⟩ := state
  have keep_present : sync.block phase ≠ .uberblock sync.ub →
      (∃ loc ∈ vdevUberblockReads sync.rvd, disk loc = .uberblock sync.ub) →
      ∃ loc ∈ vdevUberblockReads sync.rvd,
        sync.crash ⟨disk, phase⟩ (fun loc => (outcome loc).fate) loc = .uberblock sync.ub := by
    rintro labels ⟨loc, read, holds⟩
    exact ⟨loc, read, (crash_ring labels read).trans holds⟩
  cases phase with
  | evenLabels =>
    have labels : sync.block .evenLabels ≠ .uberblock sync.ub := nofun
    have odd : OddLabelsKept before
        (sync.crash ⟨disk, .evenLabels⟩ fun loc => (outcome loc).fate) :=
      (inv.odd nofun nofun).crash nofun
    have rings : ∀ loc ∈ vdevUberblockReads sync.rvd,
        sync.crash ⟨disk, .evenLabels⟩ (fun loc => (outcome loc).fate) loc = before loc :=
      fun loc read => (crash_ring labels read).trans (inv.unwritten rfl loc read)
    by_cases success : vdevLabelSyncList sync false outcome = 0
    · rw [ConfigSync.step, next, if_neg (not_not.mpr success)]
      exact
        { unwritten := fun same => by cases same
          even := fun _ calm => allEvenLabels_of_reliable (good calm)
          odd := fun _ _ => odd
          present := by simp }
    · rw [ConfigSync.step, next, if_pos success]
      exact
        { unwritten := fun _ => rings
          even := fun other => absurd rfl other
          odd := fun _ _ => odd
          present := by simp }
  | uberblocks =>
    by_cases success : vdevUberblockSyncList sync sync.svd outcome = 0
    · rw [ConfigSync.step, next, if_neg (not_not.mpr success)]
      exact inv.later (by decide) (by decide) (by decide)
        fun _ => present_of_success sync.svd_sub success
    · rw [ConfigSync.step, next, if_pos success]
      exact inv.later (by decide) (by decide) (by decide) (by simp)
  | allUberblocks =>
    by_cases success : vdevUberblockSyncList sync sync.rvd outcome = 0
    · rw [ConfigSync.step, next, if_neg (not_not.mpr success)]
      exact inv.later (by decide) (by decide) (by decide)
        fun _ => present_of_success (fun _ member => member) success
    · rw [ConfigSync.step, next, if_pos success]
      exact inv.later (by decide) (by decide) (by decide) (by simp)
  | oddLabels =>
    have there := keep_present (by rintro ⟨⟩) (inv.present (.inl rfl))
    rw [ConfigSync.step, next]
    split_ifs
    · exact inv.later (by decide) (by decide) (by decide) fun _ => there
    · exact inv.later (by decide) (by decide) (by decide) fun _ => there
  | done =>
    have there := keep_present (by rintro ⟨⟩) (inv.present (.inr rfl))
    rw [ConfigSync.step, next]
    exact inv.later (by decide) (by decide) (by decide) fun _ => there

variable {outcomes : List (LabelLoc → Outcome)}

theorem syncInvariant_run : SyncInvariant sync before
    (∀ outcome ∈ outcomes, LabelsReliable outcome) (sync.run before outcomes) := by
  refine outcomes.foldlRecOn sync.step ?_ fun state inv outcome member =>
    inv.step fun calm => calm outcome member
  exact
    { unwritten := fun _ _ _ => rfl
      even := fun other => absurd rfl other
      odd := fun _ _ _ _ _ => rfl
      present := by simp }

/-- One of the two uberblocks is there whenever the system may crash. -/
theorem Alive.run (alive : Alive sync old tearless disk)
    (whole : tearless → ∀ outcome ∈ outcomes, ∀ loc, (outcome loc).fate ≠ .torn) :
    Alive sync old tearless (sync.run disk outcomes).disk :=
  outcomes.foldlRecOn sync.step (motive := fun state => Alive sync old tearless state.disk) alive
    fun _ alive outcome member => alive.crash fun intact => whole intact outcome member

end Invariant

section Recovery

variable {disk : LabelDisk} {old : Uberblock} (committed : Committed sync.rvd disk old)
  (later : old.ubTxg < sync.ub.ubTxg) {outcomes : List (LabelLoc → Outcome)}
  {fate : LabelLoc → Fate}

include committed later

theorem old_ne_new : old ≠ sync.ub := by
  rintro rfl
  exact lt_irrefl _ later

theorem compare_new (older : ub = old ∨ vdevUberblockCompare old ub > 0) :
    vdevUberblockCompare sync.ub ub > 0 := by
  rw [← ubKey_lt_iff]
  have key : ubKey old < ubKey sync.ub := by
    rw [ubKey, ubKey, Prod.Lex.toLex_lt_toLex]
    exact .inl later
  rcases older with rfl | older
  · exact key
  · exact ((ubKey_lt_iff _ _).mpr older).trans key

/-- The new uberblock is not there before it is written. -/
theorem no_new_before (valid : uberblockVerify sync.ub = 0)
    (read : loc ∈ vdevUberblockReads sync.rvd) : disk loc ≠ .uberblock sync.ub := by
  intro holds
  rcases committed.newest loc read _ holds valid with same | newer
  · exact old_ne_new committed later same.symm
  · have key := (ubKey_lt_iff _ _).mpr newer
    exact lt_asymm key ((ubKey_lt_iff _ _).mpr (compare_new committed later (.inl rfl)))

omit later in
theorem crash_uberblock (read : loc ∈ vdevUberblockReads sync.rvd)
    (holds : sync.crash (sync.run disk outcomes) fate loc = .uberblock ub)
    (valid : uberblockVerify ub = 0) :
    ub = sync.ub ∨ ub = old ∨ vdevUberblockCompare old ub > 0 := by
  rw [crash_eq_run] at holds
  rcases run_uberblock holds with before | ⟨same, _⟩
  · exact .inr (committed.newest loc read ub before valid)
  · exact .inl same

variable {order : List LabelLoc}

/-- A crash is survived if one of the two uberblocks is there. -/
theorem recovers_of_present (valid : uberblockVerify sync.ub = 0)
    (calm : ∀ outcome ∈ outcomes, LabelsReliable outcome)
    (perm : order.Perm (vdevUberblockReads sync.rvd)) (there : ∃ loc ∈ vdevUberblockReads sync.rvd,
      sync.crash (sync.run disk outcomes) fate loc = .uberblock old ∨
        sync.crash (sync.run disk outcomes) fate loc = .uberblock sync.ub) :
    Recovers sync disk old outcomes fate order := by
  have inv := @syncInvariant_run sync disk outcomes
  have found_new : (∃ loc ∈ vdevUberblockReads sync.rvd,
      sync.crash (sync.run disk outcomes) fate loc = .uberblock sync.ub) →
      vdevUberblockLoad (sync.crash (sync.run disk outcomes) fate) order = sync.ub := by
    intro present
    refine vdevUberblockLoad_newest perm valid (by omega) present
      fun loc read ub holds verified => ?_
    rcases crash_uberblock committed read holds verified with same | older
    · exact .inl same
    · exact .inr (compare_new committed later older)
  refine ⟨?_, fun chosen => ?_, fun chosen => ?_⟩
  · by_cases present : ∃ loc ∈ vdevUberblockReads sync.rvd,
        sync.crash (sync.run disk outcomes) fate loc = .uberblock sync.ub
    · exact .inr (found_new present)
    · -- the old uberblock must be there, and nothing is newer
      refine .inl (vdevUberblockLoad_newest perm committed.valid committed.positive ?_ ?_)
      · rcases there with ⟨loc, read, holds | holds⟩
        · exact ⟨loc, read, holds⟩
        · exact absurd ⟨loc, read, holds⟩ present
      · intro loc read ub holds verified
        rcases crash_uberblock committed read holds verified with rfl | older
        · exact absurd ⟨loc, read, holds⟩ present
        · exact older
  · have written : (sync.run disk outcomes).phase ≠ .evenLabels := by
      intro first
      obtain ⟨loc, read, holds⟩ := vdevUberblockLoad_mem perm (by omega) chosen
      have labels : sync.block (sync.run disk outcomes).phase ≠ .uberblock sync.ub := by
        rw [first]
        exact nofun
      have ring : (sync.run disk outcomes).disk loc = .uberblock sync.ub :=
        (crash_ring labels read).symm.trans holds
      rw [inv.unwritten first loc read] at ring
      exact no_new_before committed later valid read ring
    exact .crash written (inv.even written calm)
  · have earlier : ¬ ((sync.run disk outcomes).phase = .oddLabels ∨
        (sync.run disk outcomes).phase = .done) := by
      intro last
      obtain ⟨loc, read, holds⟩ := inv.present last
      have labels : sync.block (sync.run disk outcomes).phase ≠ .uberblock sync.ub := by
        rcases last with last | last
        all_goals
          rw [last]
          exact nofun
      have found := found_new ⟨loc, read, (crash_ring labels read).trans holds⟩
      exact old_ne_new committed later (chosen.symm.trans found)
    rw [not_or] at earlier
    exact (inv.odd earlier.1 earlier.2).crash earlier.1

/-- A crash is survived if one of the two uberblocks is always there. -/
theorem recovers_of_alive (valid : uberblockVerify sync.ub = 0)
    (calm : ∀ outcome ∈ outcomes, LabelsReliable outcome)
    (perm : order.Perm (vdevUberblockReads sync.rvd)) {tearless : Prop}
    (alive : Alive sync old tearless disk) (whole : tearless → Tearless outcomes fate) :
    Recovers sync disk old outcomes fate order := by
  have alive_after : Alive sync old tearless (sync.crash (sync.run disk outcomes) fate) :=
    (alive.run fun intact => (whole intact).1).crash fun intact => (whole intact).2
  refine recovers_of_present committed later valid calm perm ?_
  rcases alive_after with ⟨loc, read, _, holds⟩ | ⟨_, present⟩
  · exact ⟨loc, read, .inl holds⟩
  · exact present

/-- Every dirty top-level vdev that counts can be labelled. -/
def Labelable (sync : ConfigSync) : Prop :=
  ∀ vd ∈ sync.dirty, (vd.vdevIslog || vd.vdevAux) = false → vdevLabelSync sync.packs false vd ≠ []

omit committed later in
/-- The even labels of a vdev that cannot be labelled are tried forever. -/
theorem run_unlabelable (unlabelable : ¬ Labelable sync) :
    (sync.run disk outcomes).phase = .evenLabels := by
  have failed : ∀ outcome, vdevLabelSyncList sync false outcome ≠ 0 := by
    intro outcome
    rw [Labelable] at unlabelable
    push Not at unlabelable
    obtain ⟨vd, member, counts, empty⟩ := unlabelable
    have some_failed : (sync.dirty.any fun vd => !(vd.vdevIslog || vd.vdevAux) &&
        !(vdevLabelSync sync.packs false vd).any fun loc => outcome loc = .good) = true :=
      List.any_eq_true.mpr ⟨vd, member, by simp [counts, empty]⟩
    rw [vdevLabelSyncList, if_pos some_failed]
    decide
  refine outcomes.foldlRecOn sync.step (motive := fun state => state.phase = .evenLabels) ?_ ?_
  · rfl
  · intro state same outcome _
    rw [step, same]
    exact if_pos (failed outcome)

/-- The labels are written, and no uberblock. -/
def ringsFail : LabelLoc → Outcome
  | .label _ _ => .good
  | .uberblock _ _ _ => .failed .kept

omit committed later in
theorem run_failed (labelable : Labelable sync) :
    (sync.run disk [fun _ => .good, ringsFail]).phase = .allUberblocks ∧
    ∀ loc ∈ vdevUberblockReads sync.rvd,
      (sync.run disk [fun _ => .good, ringsFail]).disk loc = disk loc := by
  have labels : vdevLabelSyncList sync false (fun _ => .good) = 0 := by
    refine if_neg fun failed => ?_
    obtain ⟨vd, member, failed⟩ := List.any_eq_true.mp failed
    simp only [Bool.and_eq_true, Bool.not_eq_true', List.any_eq_false, decide_true,
      not_true_eq_false, imp_false] at failed
    exact labelable vd member failed.1 (List.eq_nil_iff_forall_not_mem.mpr failed.2)
  have first : sync.step ⟨disk, .evenLabels⟩ (fun _ => .good) = ⟨settle .torn disk
      (sync.locs .evenLabels) (sync.block .evenLabels) fun _ => .landed, .uberblocks⟩ := by
    rw [step, next, if_neg (not_not.mpr labels)]
    rfl
  have uberblocks : vdevUberblockSyncList sync sync.svd ringsFail ≠ 0 := by
    have no_good : ¬ (sync.svd.any fun vd => vd.vdevMsArray ≠ 0 &&
        (vdevUberblockSync sync.ub vd).any fun loc => ringsFail loc = .good) = true := by
      intro some_good
      obtain ⟨vd, -, good⟩ := List.any_eq_true.mp some_good
      obtain ⟨loc, write, good⟩ := List.any_eq_true.mp (Bool.and_eq_true _ _ ▸ good).2
      obtain ⟨guid, -, l, rfl⟩ := mem_vdevUberblockSync.mp write
      cases good
    rw [vdevUberblockSyncList, if_neg no_good]
    decide
  rw [run, List.foldl_cons, first, List.foldl_cons, List.foldl_nil, step,
    next, if_pos uberblocks]
  have ring_free : sync.block .evenLabels ≠ .uberblock sync.ub := LabelBlock.noConfusion
  refine ⟨rfl, fun loc read => ?_⟩
  have kept : (ringsFail loc).fate = .kept := by
    obtain ⟨_, _, guid, _, l, n, _, rfl⟩ := mem_vdevUberblockReads.mp read
    rfl
  have even : sync.crash ⟨disk, .evenLabels⟩ (fun _ => .landed) loc = disk loc :=
    crash_ring ring_free read
  exact (@settle_kept _ _ _ _ _ _ _ (fun loc => (ringsFail loc).fate) loc kept).trans even

/-- Torn writes to every slot destroy the old uberblock if no copy is elsewhere. -/
theorem not_recovers_of_torn (valid : uberblockVerify sync.ub = 0) (labelable : Labelable sync)
    (unspared : ¬ Spared sync disk old) :
    ¬ Recovers sync disk old [fun _ => .good, ringsFail] (fun _ => .torn)
      (vdevUberblockReads sync.rvd) := by
  intro recovers
  obtain ⟨phase, rings⟩ := @run_failed sync disk labelable
  have crashed : ∀ ub, (∃ loc ∈ vdevUberblockReads sync.rvd,
      sync.crash (sync.run disk [fun _ => .good, ringsFail]) (fun _ => .torn) loc =
        .uberblock ub) →
      ∃ loc ∈ vdevUberblockReads sync.rvd, loc ∉ sync.locs .allUberblocks ∧
      disk loc = .uberblock ub := by
    rintro ub ⟨loc, read, holds⟩
    rw [crash, phase] at holds
    by_cases inside : loc ∈ sync.locs .allUberblocks
    · rw [settle_torn inside rfl] at holds
      cases holds
    · rw [settle_of_notMem inside, rings loc read] at holds
      exact ⟨loc, read, inside, holds⟩
  rcases recovers.chosen with chosen | chosen
  · exact unspared (crashed old
      (vdevUberblockLoad_mem (List.Perm.refl _) committed.positive chosen))
  · obtain ⟨loc, read, _, holds⟩ :=
      crashed sync.ub (vdevUberblockLoad_mem (List.Perm.refl _) (by omega) chosen)
    exact no_new_before committed later valid read holds

/-- A call that returns leaves its uberblock as the newest one. -/
theorem committed_of_done (valid : uberblockVerify sync.ub = 0)
    (done : (sync.run disk outcomes).phase = .done) :
    Committed sync.rvd (sync.run disk outcomes).disk sync.ub where
  valid := valid
  positive := by omega
  present := syncInvariant_run.present (.inr done)
  newest loc read other holds verified := by
    rcases run_uberblock holds with before | ⟨same, _⟩
    · exact .inr (compare_new committed later (committed.newest loc read other before verified))
    · exact .inl same

omit committed later in
theorem reliable_ringsFail : ∀ outcome ∈ [fun _ => .good, ringsFail], LabelsReliable outcome :=
  List.forall_mem_cons.mpr ⟨fun _ _ => rfl, List.forall_mem_singleton.mpr fun _ _ => rfl⟩

end Recovery

theorem syncedPool_committed : Committed [oneDisk] syncedPool.disk (oneDiskUberblock 4) where
  valid := by decide
  positive := by decide
  present := ⟨.uberblock 1 0 4, mem_vdevUberblockReads.mpr ⟨oneDisk, by simp, 1, by simp [oneDisk,
    LabelVdev.liveLeaves], 0, 4, by decide, rfl⟩, by decide⟩
  newest loc read other holds verified := by
    rcases @run_uberblock ((syncOneDisk 4 4).config (oneDiskUberblock 4)) createdPool.disk
      (syncOneDisk 4 4).outcomes loc other holds with template | ⟨same, _⟩
    · cases template
      cases verified
    · exact .inl same

/-- `vdev_config_sync` for a group of the pool. -/
def configOneDisk (txg : ℕ) : ConfigSync := (syncOneDisk txg txg).config (oneDiskUberblock txg)

/-- A call that brings the labels of `oneDisk` up to date. -/
def relabelOneDisk : ConfigSync :=
  ⟨[oneDisk], [oneDisk], [oneDisk], oneDiskUberblock 5, fun _ => true, fun _ => id, fun _ => id⟩

/-- The next transaction group does not use the slot of the uberblock before. -/
theorem relabelOneDisk_spared : Spared relabelOneDisk syncedPool.disk (oneDiskUberblock 4) := by
  refine ⟨.uberblock 1 0 4, mem_vdevUberblockReads.mpr ⟨oneDisk, List.mem_singleton.mpr rfl, 1,
    List.mem_singleton.mpr rfl, 0, 4, by decide, rfl⟩, ?_, by decide⟩
  intro write
  obtain ⟨vd, top, write⟩ := List.mem_flatMap.mp write
  obtain ⟨guid, _, l, same⟩ := mem_vdevUberblockSync.mp write
  rw [List.mem_singleton.mp top] at same
  injection same with _ _ slot
  exact absurd slot (by decide)

end Zfs
