import Zfs.Label.Code
import Zfs.Library.TransitionSystem

/-!
# The ring of uberblocks

Every uberblock on a leaf is in the slot of its transaction group.  A transaction group in which
nothing changed leaves the ring alone, so the next uberblock may come around to the newest one.
-/

namespace Zfs

open CrashDisk List

theorem vdevUberblockCount_eq {ashift : ℕ} (small : ashift ≤ 17) :
    vdevUberblockCount ashift = 2 ^ (17 - max ashift 10) := by
  rw [vdevUberblockCount, Nat.shiftRight_eq_div_pow, show 128 <<< 10 = 2 ^ 17 from rfl,
    Nat.pow_div (by omega) Nat.two_pos]

theorem uberblockSlot_eq {ashift : ℕ} (small : ashift ≤ 17) (ub : Uberblock) :
    uberblockSlot ashift ub = ub.ubTxg % vdevUberblockCount ashift := by
  rw [uberblockSlot, vdevUberblockCount_eq small, Nat.and_two_pow_sub_one_eq_mod]

theorem mem_vdevUberblockSync {ub : Uberblock} {vd : TopVdev} {loc : LabelLoc} :
    loc ∈ vdevUberblockSync ub vd ↔ ∃ guid ∈ vd.tree.liveLeaves, ∃ l,
      loc = .uberblock guid l (uberblockSlot vd.vdevAshift ub) := by
  simp only [vdevUberblockSync, mem_flatMap, mem_map, mem_finRange, true_and, eq_comm]

variable (txg birth : ℕ) (ashift : ℕ → ℕ)

/-- The rings of the leaves have the sizes given. -/
def RingSizes (rvd : List TopVdev) : Prop :=
  ∀ vd ∈ rvd, ∀ guid ∈ vd.tree.liveLeaves, vd.vdevAshift = ashift guid

/-- Every uberblock is in its slot, apart from templates. -/
def Placed (disk : LabelDisk) : Prop :=
  ∀ guid l n ub, disk (.uberblock guid l n) = .uberblock ub →
    ub.ubTxg = 0 ∨ n = uberblockSlot (ashift guid) ub

theorem mem_vdevLabelSync {packs : ℕ → Bool} {odd : Bool} {vd : TopVdev} {loc : LabelLoc}
    (inside : loc ∈ vdevLabelSync packs odd vd) :
    ∃ guid, ∃ l ∈ labelsOf odd, loc = .label guid l := by
  obtain ⟨guid, _, inside⟩ := mem_flatMap.mp inside
  split_ifs at inside
  · obtain ⟨l, member, same⟩ := mem_map.mp inside
    exact ⟨guid, l, member, same.symm⟩
  · cases inside

/-- Labels are written in two phases, and rings in the others. -/
theorem ConfigSync.mem_locs {sync : ConfigSync} {phase : SyncPhase} {loc : LabelLoc}
    (inside : loc ∈ sync.locs phase) :
    (phase = .evenLabels ∧ ∃ guid, ∃ l ∈ labelsOf false, loc = .label guid l) ∨
      (phase = .oddLabels ∧ ∃ guid, ∃ l ∈ labelsOf true, loc = .label guid l) ∨
      sync.block phase = .uberblock sync.ub ∧ loc ∈ sync.locs .allUberblocks := by
  have label_of : ∀ odd, loc ∈ sync.dirty.flatMap (vdevLabelSync sync.packs odd) →
      ∃ guid, ∃ l ∈ labelsOf odd, loc = .label guid l := by
    intro odd member
    obtain ⟨vd, _, member⟩ := mem_flatMap.mp member
    exact mem_vdevLabelSync member
  cases phase with
  | evenLabels => exact .inl ⟨rfl, label_of false inside⟩
  | oddLabels => exact .inr (.inl ⟨rfl, label_of true inside⟩)
  | done => cases inside
  | uberblocks =>
    obtain ⟨vd, member, write⟩ := mem_flatMap.mp inside
    exact .inr (.inr ⟨rfl, mem_flatMap.mpr ⟨vd, sync.svd_sub vd member, write⟩⟩)
  | allUberblocks => exact .inr (.inr ⟨rfl, inside⟩)

section Origin

variable {sync : ConfigSync} {disk : LabelDisk} {outcomes : List (LabelLoc → Outcome)}
  {loc : LabelLoc}

/-- What is on the disks was there before, was torn, or was written. -/
theorem ConfigSync.run_cases :
    (sync.run disk outcomes).disk loc = disk loc ∨ (sync.run disk outcomes).disk loc = .torn ∨
      ∃ phase, loc ∈ sync.locs phase ∧ (sync.run disk outcomes).disk loc = sync.block phase := by
  refine outcomes.foldlRecOn sync.step (motive := fun state : LabelSyncState =>
    state.disk loc = disk loc ∨ state.disk loc = .torn ∨
      ∃ phase, loc ∈ sync.locs phase ∧ state.disk loc = sync.block phase) (.inl rfl)
    fun state before outcome _ => ?_
  rcases @settle_cases _ _ _ LabelBlock.torn state.disk (sync.locs state.phase)
    (sync.block state.phase) (fun loc => (outcome loc).fate) loc with
    same | ⟨inside, written⟩ | ⟨_, _, torn⟩
  · rw [← same] at before
    exact before
  · exact .inr (.inr ⟨_, inside, written⟩)
  · exact .inr (.inl torn)

/-- A crash is a last phase whose writes all fail. -/
theorem ConfigSync.crash_eq_run {fate : LabelLoc → Fate} :
    sync.crash (sync.run disk outcomes) fate =
      (sync.run disk (outcomes ++ [fun loc => .failed (fate loc)])).disk := by
  rw [run, run, foldl_append]
  rfl

/-- An uberblock on the disks was there before the call, or is the new one. -/
theorem ConfigSync.run_uberblock {ub : Uberblock}
    (holds : (sync.run disk outcomes).disk loc = .uberblock ub) :
    disk loc = .uberblock ub ∨
      ub = sync.ub ∧ ∃ vd ∈ sync.rvd, loc ∈ vdevUberblockSync sync.ub vd := by
  rcases @run_cases sync disk outcomes loc with same | torn | ⟨phase, inside, written⟩
  · exact .inl (same.symm.trans holds)
  · cases torn.symm.trans holds
  · rw [holds] at written
    rcases mem_locs inside with ⟨rfl, _⟩ | ⟨rfl, _⟩ | ⟨block, member⟩
    · cases written
    · cases written
    · cases written.trans block
      exact .inr ⟨rfl, mem_flatMap.mp member⟩

end Origin

theorem Placed.run {ashift : ℕ → ℕ} {disk : LabelDisk} {sync : ConfigSync}
    (placed : Placed ashift disk) (sizes : RingSizes ashift sync.rvd)
    (outcomes : List (LabelLoc → Outcome)) : Placed ashift (sync.run disk outcomes).disk := by
  intro guid l n ub holds
  rcases ConfigSync.run_uberblock holds with before | ⟨rfl, vd, top, write⟩
  · exact placed guid l n ub before
  · obtain ⟨guid', leaf, l', same⟩ := mem_vdevUberblockSync.mp write
    cases same
    rw [sizes vd top guid leaf]
    exact .inr rfl

/-- Calls of `spa_sync` for increasing groups, on a new pool. -/
def spaSyncSystem : TransitionSystem SpaState SpaSync where
  Start state := ∀ guid l n ub, state.disk (.uberblock guid l n) = .uberblock ub → ub.ubTxg = 0
  Step state call next :=
    state.ub.ubTxg < call.txg ∧ RingSizes ashift call.rvd ∧
      (call.writes state.ub → ((call.config (call.update state.ub).1).run state.disk
        call.outcomes).phase = .done) ∧
      next = spaSync state call

theorem SpaSync.update_txg {call : SpaSync} {ub : Uberblock} (later : ub.ubTxg < call.txg) :
    (call.update ub).1.ubTxg = call.txg := by
  rw [SpaSync.update, if_pos later]
  rfl

theorem placed_of_reachable {ashift : ℕ → ℕ} {state : SpaState}
    (reachable : (spaSyncSystem ashift).Reachable state) : Placed ashift state.disk := by
  refine @TransitionSystem.Reachable.invariant _ _ _ (fun state => Placed ashift state.disk) _
    reachable
    ?_ ?_
  · intro state start guid l n ub holds
    exact .inl (start guid l n ub holds)
  · rintro state call next placed ⟨_, sizes, _, rfl⟩
    rw [spaSync]
    split_ifs
    · exact placed.run sizes _
    · exact placed

/-- The uberblock that was last committed on a leaf. -/
structure NewestOn (disk : LabelDisk) (guid : ℕ) (ub : Uberblock) : Prop where
  /-- It is in some slot of the ring. -/
  present : ∃ l n, disk (.uberblock guid l n) = .uberblock ub
  /-- No other uberblock of the leaf is newer. -/
  newest : ∀ l n other, disk (.uberblock guid l n) = .uberblock other →
    vdevUberblockCompare other ub ≤ 0
  /-- It is no template of a new pool. -/
  committed : ub.ubTxg ≠ 0

/-- The call writes the ring of the vdev, in one of the two phases of the uberblocks. -/
def SpaSync.WritesRing (call : SpaSync) (state : SpaState) (vd : TopVdev) : Prop :=
  call.writes state.ub ∧ ∃ count,
    let phase := ((call.config (call.update state.ub).1).run state.disk
      (call.outcomes.take count)).phase
    phase = .uberblocks ∧ vd ∈ call.svd ∨ phase = .allUberblocks ∧ vd ∈ call.rvd

section Spares

variable {ashift : ℕ → ℕ} {state : SpaState} (reachable : (spaSyncSystem ashift).Reachable state)
  {call : SpaSync} (later : state.ub.ubTxg < call.txg) (sizes : RingSizes ashift call.rvd)
  {vd : TopVdev} (top : vd ∈ call.rvd) {guid : ℕ} (leaf : guid ∈ vd.tree.liveLeaves)
  {old : Uberblock} (newest : NewestOn state.disk guid old)

include reachable later sizes top leaf newest

theorem ring_apart_iff :
    let ub := (call.update state.ub).1
    let apart := ¬ call.txg ≡ old.ubTxg [MOD vdevUberblockCount vd.vdevAshift]
    ((∀ l, state.disk (.uberblock guid l (uberblockSlot vd.vdevAshift ub)) ≠ .uberblock old) ↔
        apart) ∧
      ((∀ fate, ∃ l n, settle .torn state.disk (vdevUberblockSync ub vd) (.uberblock ub) fate
        (.uberblock guid l n) = .uberblock old) ↔ apart) := by
  intro ub apart
  have placed := placed_of_reachable reachable
  have ub_txg : ub.ubTxg = call.txg := SpaSync.update_txg later
  have slots : uberblockSlot vd.vdevAshift ub = uberblockSlot vd.vdevAshift old ↔
      call.txg ≡ old.ubTxg [MOD vdevUberblockCount vd.vdevAshift] := by
    rw [uberblockSlot_eq vd.ashift_le, uberblockSlot_eq vd.ashift_le, ub_txg]
    rfl
  have copies : ∀ l n, state.disk (.uberblock guid l n) = .uberblock old →
      n = uberblockSlot vd.vdevAshift old := by
    intro l n holds
    rw [sizes vd top guid leaf]
    exact (placed guid l n old holds).resolve_left newest.committed
  obtain ⟨l, n, holds⟩ := newest.present
  constructor
  · constructor
    · intro spared same
      refine spared l ?_
      rw [slots.mpr same, ← copies l n holds]
      exact holds
    · intro distinct l' overwritten
      exact distinct (slots.mp (copies l' _ overwritten))
  · constructor
    · intro survives same
      obtain ⟨l', n', copy⟩ := survives fun _ => .torn
      rcases @settle_cases _ _ _ LabelBlock.torn state.disk (vdevUberblockSync ub vd)
        (.uberblock ub) (fun _ => .torn) (.uberblock guid l' n') with
        kept | ⟨inside, _⟩ | ⟨inside, _⟩
      · have write : LabelLoc.uberblock guid l' n' ∈ vdevUberblockSync ub vd := by
          rw [mem_vdevUberblockSync, slots.mpr same, ← copies l' n' (kept.symm.trans copy)]
          exact ⟨guid, leaf, l', rfl⟩
        cases (settle_torn write rfl).symm.trans copy
      · cases (settle_torn inside rfl).symm.trans copy
      · cases (settle_torn inside rfl).symm.trans copy
    · intro distinct fate
      refine ⟨l, n, (settle_of_notMem fun write => ?_).trans holds⟩
      obtain ⟨guid', _, l', same⟩ := mem_vdevUberblockSync.mp write
      cases same
      exact distinct (slots.mp (copies l _ holds))

end Spares

/-- A new uberblock spares the newest one on a leaf exactly if nothing is written to the vdev or the
transaction groups of the two have different slots. -/
theorem uberblock_ring_spares {ashift : ℕ → ℕ} {state : SpaState}
    (reachable : (spaSyncSystem ashift).Reachable state) {call : SpaSync}
    (later : state.ub.ubTxg < call.txg) (sizes : RingSizes ashift call.rvd) {vd : TopVdev}
    (top : vd ∈ call.rvd) {guid : ℕ} (leaf : guid ∈ vd.tree.liveLeaves) {old : Uberblock}
    (newest : NewestOn state.disk guid old) :
    let ub := (call.update state.ub).1
    let safe := ¬ call.WritesRing state vd ∨
      ¬ call.txg ≡ old.ubTxg [MOD vdevUberblockCount vd.vdevAshift]
    ((call.WritesRing state vd →
        ∀ l, state.disk (.uberblock guid l (uberblockSlot vd.vdevAshift ub)) ≠ .uberblock old) ↔
        safe) ∧
      ((call.WritesRing state vd →
        ∀ fate, ∃ l n, settle .torn state.disk (vdevUberblockSync ub vd) (.uberblock ub) fate
          (.uberblock guid l n) = .uberblock old) ↔ safe) := by
  intro ub safe
  obtain ⟨slot, torn⟩ := ring_apart_iff reachable later sizes top leaf newest
  rw [slot, torn]
  exact ⟨imp_iff_not_or, imp_iff_not_or⟩

/-- A pool of one disk. -/
def oneDisk : TopVdev := ⟨.leaf 1 false, 9, 1, false, false, by decide⟩

/-- The pool when it was just created. -/
def createdPool : SpaState := ⟨⟨0, 3, 0, 0, 0⟩, fun _ => .uberblock ⟨0, 0, 0, 0, 0⟩⟩

/-- A group and the birth of its root block. -/
def syncOneDisk : SpaSync :=
  ⟨[oneDisk], [], txg, birth, 0, 0, 0, 2 ^ 64, fun _ => true, replicate 3 fun _ => .good,
    by simp⟩

/-- The uberblock of `oneDisk` in core. -/
def oneDiskUberblock : Uberblock := ⟨uberblockMagic, txg, 0, 0, 4⟩

/-- The pool after transaction group 4. -/
def syncedPool : SpaState := spaSync createdPool (syncOneDisk 4 4)

theorem ringSizes_oneDisk : RingSizes (fun _ => 9) (syncOneDisk txg birth).rvd := by
  intro vd member guid _
  rw [mem_singleton.mp member]
  rfl

theorem syncedPool_reachable : (spaSyncSystem fun _ => 9).Reachable syncedPool := by
  have start : (spaSyncSystem fun _ => 9).Start createdPool := by
    intro guid l n ub holds
    cases holds
    rfl
  exact TransitionSystem.Reachable.take (.start start) (syncOneDisk 4 4)
    ⟨by decide, ringSizes_oneDisk 4 4, fun _ => by decide, rfl⟩

/-- Nothing is written while nothing changes. -/
theorem idlePool_reachable (count : ℕ) : (spaSyncSystem fun _ => 9).Reachable
    ⟨oneDiskUberblock (4 + count), syncedPool.disk⟩ := by
  induction count with
  | zero => exact syncedPool_reachable
  | succ count ih =>
    have idle : (syncOneDisk (4 + (count + 1)) 4).update (oneDiskUberblock (4 + count)) =
        (oneDiskUberblock (4 + (count + 1)), true) := by
      simp [SpaSync.update, syncOneDisk, oneDiskUberblock, uberblockUpdate]
    have skipped : (syncOneDisk (4 + (count + 1)) 4).writes (oneDiskUberblock (4 + count)) =
        false := by
      rw [SpaSync.writes, idle]
      rfl
    refine ih.take (syncOneDisk (4 + (count + 1)) 4)
      ⟨Nat.lt_succ_self _, ringSizes_oneDisk _ _, fun writes => ?_, ?_⟩
    · rw [skipped] at writes
      cases writes
    · rw [spaSync, skipped, idle]
      rfl

theorem syncedPool_newest : NewestOn syncedPool.disk 1 (oneDiskUberblock 4) := by
  refine ⟨⟨0, 4, by decide⟩, fun l n other holds => ?_, by decide⟩
  rcases @ConfigSync.run_uberblock ((syncOneDisk 4 4).config (oneDiskUberblock 4)) createdPool.disk
    (syncOneDisk 4 4).outcomes (.uberblock 1 l n) other holds with template | ⟨rfl, _⟩
  · cases template
    decide
  · decide

/-- Transaction group 132 follows 127 idle ones and is written over the newest uberblock. -/
theorem uberblock_ring_overwrites :
    ∃ (state : SpaState) (call : SpaSync) (l : Fin 4),
      (spaSyncSystem fun _ => 9).Reachable state ∧ state.ub.ubTxg + 1 = call.txg ∧
      RingSizes (fun _ => 9) call.rvd ∧ call.WritesRing state oneDisk ∧
      NewestOn state.disk 1 (oneDiskUberblock 4) ∧
      state.disk (.uberblock 1 l (uberblockSlot 9 (call.update state.ub).1)) =
        .uberblock (oneDiskUberblock 4) :=
  ⟨⟨oneDiskUberblock 131, syncedPool.disk⟩, syncOneDisk 132 132, 0, idlePool_reachable 127, rfl,
    ringSizes_oneDisk _ _, ⟨by decide, 1, .inl ⟨by decide, mem_singleton.mpr rfl⟩⟩,
    syncedPool_newest, by decide⟩

/-- Transaction group 5 spares the uberblock of transaction group 4. -/
theorem uberblock_ring_spares_next : (syncOneDisk 5 5).WritesRing syncedPool oneDisk ∧
    ∀ l, syncedPool.disk (.uberblock 1 l
      (uberblockSlot 9 ((syncOneDisk 5 5).update syncedPool.ub).1)) ≠
        .uberblock (oneDiskUberblock 4) := by
  have writes : (syncOneDisk 5 5).WritesRing syncedPool oneDisk :=
    ⟨by decide, 1, .inl ⟨by decide, mem_singleton.mpr rfl⟩⟩
  exact ⟨writes, (uberblock_ring_spares syncedPool_reachable (by decide) (ringSizes_oneDisk 5 5)
    (mem_singleton.mpr rfl) (mem_singleton.mpr rfl) syncedPool_newest).1.mpr (.inr (by decide))
    writes⟩

end Zfs
