import Zfs.Txg.Code

/-!
# The transaction groups of a pool

Along every interleaving at most three transaction groups are not synced: the open one, one that is
quiescing or quiesced, and one that is syncing.  The quiesce thread opens the next group when it has
all locks, so a group that it has drained cannot be entered again.
-/

namespace Zfs

open Function List

variable {th : TxgHandle} {c txg : ℕ} {owner : TcOwner} {pc : QuiescePc} {next : TxState}
  {label : TxgLabel}

namespace TxState

/-- The counts of the CPUs are those of the holds. -/
def Counted (tx : TxState) : Prop :=
  ∀ c g, tx.tcCount c g =
    tx.holds.countP fun th => th.thCpu = c ∧ th.thTxg &&& txgMask = g

variable {ncpus last : ℕ} {tx : TxState}

private theorem update_count (counts : ℕ → ℕ → ℕ) (c g count c' g' : ℕ) :
    update counts c (update (counts c) g count) c' g' =
      if c = c' ∧ g = g' then count else counts c' g' := by
  rcases eq_or_ne c c' with rfl | other
  · rcases eq_or_ne g g' with rfl | other
    · simp
    · simp [update_of_ne other.symm, other]
  · simp [update_of_ne other.symm, other]

theorem Counted.holdCount (counted : tx.Counted) (c : ℕ) : (tx.holdCount c).Counted := by
  unfold TxState.holdCount
  split
  · rename_i txg _
    intro c' g'
    simp only [setLock, setCount, update_count, countP_cons]
    rw [counted c (txg &&& txgMask), counted c' g']
    by_cases same : c = c' ∧ txg &&& txgMask = g'
    · obtain ⟨rfl, rfl⟩ := same
      simp
    · simp [same]
  · exact counted

theorem Counted.releToSync (counted : tx.Counted) (held : th ∈ tx.holds) :
    (tx.releToSync th).Counted := by
  intro c g
  simp only [TxState.releToSync, setCount, update_count, countP_erase, held, true_and]
  rw [counted c g, counted th.thCpu (th.thTxg &&& txgMask)]
  by_cases same : th.thCpu = c ∧ th.thTxg &&& txgMask = g
  · obtain ⟨rfl, rfl⟩ := same
    simp
  · simp [same]

theorem Counted.thTxg_ne (counted : tx.Counted) (zero : tx.tcCount c (txg &&& txgMask) = 0)
    (held : th ∈ tx.holds) (cpu : th.thCpu = c) : th.thTxg ≠ txg := by
  rw [counted, countP_eq_zero] at zero
  rintro rfl
  exact zero th held (by simp [cpu])

/-- The locks are with callers in the open group and the quiesce thread. -/
structure Locked (ncpus : ℕ) (tx : TxState) : Prop where
  /-- A caller with a lock is in the open group. -/
  entered : ∀ c txg, tx.tcLock c = .entered txg ∨ tx.tcLock c = .holder txg → txg = tx.txOpenTxg
  /-- The quiesce thread has the locks that it took. -/
  locking : ∀ txg n, tx.quiescePc = .locking txg n → n ≤ ncpus ∧
    ∀ c < n, tx.tcLock c = .quiesceThread
  /-- There are no other locks. -/
  free : ∀ c, ncpus ≤ c → tx.tcLock c = .free

theorem Locked.setLock (locked : tx.Locked ncpus)
    (entered : ∀ txg, owner = .entered txg ∨ owner = .holder txg → txg = tx.txOpenTxg)
    (locking : ∀ txg n, pc = .locking txg n → n ≤ ncpus ∧
      ∀ c' < n, if c' = c then owner = .quiesceThread else tx.tcLock c' = .quiesceThread)
    (free : c < ncpus ∨ owner = .free) :
    { tx.setLock c owner with quiescePc := pc }.Locked ncpus := by
  have owner_eq (c' : ℕ) :
      (tx.setLock c owner).tcLock c' = if c' = c then owner else tx.tcLock c' :=
    update_apply ..
  refine ⟨fun c' txg => ?_, fun txg n reached => ?_, fun c' beyond => ?_⟩
  · dsimp only
    rw [owner_eq]
    split
    · exact entered txg
    · exact locked.entered c' txg
  · obtain ⟨bound, taken⟩ := locking txg n reached
    refine ⟨bound, fun c' below => ?_⟩
    have owned := taken c' below
    dsimp only
    rw [owner_eq]
    split_ifs at owned ⊢
    · exact owned
    · exact owned
  · dsimp only
    rw [owner_eq]
    split
    · exact free.resolve_left (by omega)
    · exact locked.free c' beyond

/-- The next group that `spa_sync` gets. -/
def nextTxg (last : ℕ) (tx : TxState) : ℕ := last + 1 + tx.handed.length

/-- The quiescing group has no hold on the CPUs that are drained. -/
def Quiescing (last : ℕ) (tx : TxState) (txg drained : ℕ) : Prop :=
  tx.txQuiescedTxg = 0 ∧ txg = tx.nextTxg last ∧ tx.txOpenTxg = txg + 1 ∧
    ∀ th ∈ tx.holds, th.thCpu < drained → th.thTxg ≠ txg

/-- Between two calls of `txg_quiesce`. -/
def Rested (last : ℕ) (tx : TxState) : Prop :=
  (tx.txQuiescedTxg = 0 ∧ tx.txOpenTxg = tx.nextTxg last) ∨
    (tx.txQuiescedTxg = tx.nextTxg last ∧ tx.txOpenTxg = tx.nextTxg last + 1 ∧
      ∀ th ∈ tx.holds, th.thTxg ≠ tx.nextTxg last)

/-- The groups that the quiesce thread works on, by where it is. -/
def QuiesceStage (ncpus last : ℕ) (tx : TxState) : Prop :=
  match tx.quiescePc with
  | .waiting | .exited => tx.Rested last
  | .locking txg _ =>
    tx.txQuiescedTxg = 0 ∧ txg = tx.nextTxg last ∧ tx.txOpenTxg = txg
  | .unlocking txg _ => tx.Quiescing last txg 0
  | .draining txg n => tx.Quiescing last txg n
  | .handingOff txg => tx.Quiescing last txg ncpus

/-- The group that the sync thread works on. -/
def SyncStage (last : ℕ) (tx : TxState) : Prop :=
  match tx.syncPc with
  | .syncing txg => tx.txSyncingTxg = txg ∧ txg + 1 = tx.nextTxg last ∧
    tx.synced.length + 1 = tx.handed.length
  | _ => tx.txSyncingTxg = 0 ∧ tx.synced.length = tx.handed.length

/-- What holds along every run. -/
structure Invariant (ncpus last : ℕ) (tx : TxState) : Prop where
  /-- The counts are those of the holds. -/
  counted : tx.Counted
  /-- The locks are in order. -/
  locked : tx.Locked ncpus
  /-- The quiesce thread is in order. -/
  quiesce : tx.QuiesceStage ncpus last
  /-- The sync thread is in order. -/
  sync : tx.SyncStage last
  /-- A hold is on a group that is not quiesced. -/
  holds : ∀ th ∈ tx.holds, th.thCpu < ncpus ∧ tx.nextTxg last ≤ th.thTxg ∧
    th.thTxg ≤ tx.txOpenTxg
  /-- Groups are handed over one by one. -/
  handed : tx.handed.reverse = range' (last + 1) tx.handed.length
  /-- Groups are synced one by one. -/
  synced : tx.synced.reverse = range' (last + 1) tx.synced.length

namespace Invariant

variable (inv : tx.Invariant ncpus last)
include inv

theorem nextTxg_le : tx.nextTxg last ≤ tx.txOpenTxg := by
  have stage := inv.quiesce
  simp only [QuiesceStage, Rested, Quiescing] at stage
  split at stage <;> omega

theorem setLock (cpu : c < ncpus) (unlocked : tx.tcLock c ≠ .quiesceThread)
    (entered : ∀ txg, owner = .entered txg ∨ owner = .holder txg → txg = tx.txOpenTxg) :
    (tx.setLock c owner).Invariant ncpus last :=
  { inv with
    locked := by
      refine inv.locked.setLock entered (fun txg n pc => ?_) (.inl cpu)
      obtain ⟨bound, taken⟩ := inv.locked.locking txg n pc
      refine ⟨bound, fun c' below => ?_⟩
      split
      · rename_i same
        exact absurd (same ▸ taken c' below) unlocked
      · exact taken c' below }

theorem addHold (counts : ℕ → ℕ → ℕ) (cpu : c < ncpus)
    (counted : { tx with tcCount := counts, holds := ⟨c, tx.txOpenTxg⟩ :: tx.holds }.Counted) :
    { tx with tcCount := counts, holds := ⟨c, tx.txOpenTxg⟩ :: tx.holds }.Invariant ncpus last :=
  { inv with
    counted := counted
    locked := { inv.locked with }
    quiesce := by
      have stage := inv.quiesce
      simp only [QuiesceStage, Rested, Quiescing, nextTxg, forall_mem_cons] at stage ⊢
      split at stage <;> grind
    holds := forall_mem_cons.mpr ⟨⟨cpu, inv.nextTxg_le, le_rfl⟩, inv.holds⟩ }

theorem holdCount (cpu : c < ncpus) (entered : tx.tcLock c = .entered txg) :
    (tx.holdCount c).Invariant ncpus last := by
  have current : txg = tx.txOpenTxg := inv.locked.entered c txg (.inl entered)
  have counted := inv.counted.holdCount c
  unfold TxState.holdCount at counted ⊢
  simp only [entered] at counted ⊢
  subst current
  have owned : (tx.setLock c (.holder tx.txOpenTxg)).Invariant ncpus last :=
    inv.setLock cpu (by simp [entered]) (by simp)
  exact owned.addHold _ cpu counted

theorem releToSync (held : th ∈ tx.holds) : (tx.releToSync th).Invariant ncpus last :=
  { inv with
    counted := inv.counted.releToSync held
    locked := { inv.locked with }
    quiesce := by
      have stage := inv.quiesce
      simp only [QuiesceStage, Rested, Quiescing, nextTxg, TxState.releToSync, setCount] at stage ⊢
      split at stage <;> grind
    holds := fun other member => inv.holds other (mem_of_mem_erase member) }

/-- What the threads ask each other for has no part in the invariant. -/
theorem asks (syncWaiting quiesceWaiting suspended : ℕ) (exiting : Bool) :
    { tx with
      txSyncTxgWaiting := syncWaiting
      txQuiesceTxgWaiting := quiesceWaiting
      txSuspend := suspended
      txExiting := exiting }.Invariant ncpus last :=
  { inv with locked := { inv.locked with } }

theorem setQuiescePc (unlocked : ∀ txg n, pc ≠ .locking txg (n + 1))
    (stage : { tx with quiescePc := pc }.QuiesceStage ncpus last) :
    { tx with quiescePc := pc }.Invariant ncpus last :=
  { inv with
    locked := by
      refine ⟨inv.locked.entered, ?_, inv.locked.free⟩
      rintro txg (_ | n) reached
      · exact ⟨Nat.zero_le _, nofun⟩
      · exact absurd reached (unlocked txg n)
    quiesce := stage }

theorem quiesceLock (pc : tx.quiescePc = .locking txg c) (cpu : c < ncpus) :
    { tx.setLock c .quiesceThread with quiescePc := .locking txg (c + 1) }.Invariant ncpus last :=
  { inv with
    locked := by
      obtain ⟨_, taken⟩ := inv.locked.locking txg c pc
      refine inv.locked.setLock nofun ?_ (.inl cpu)
      rintro _ _ ⟨⟩
      refine ⟨cpu, fun c' below => ?_⟩
      split
      · rfl
      · exact taken c' (by omega)
    quiesce := by
      have stage := inv.quiesce
      simp only [QuiesceStage, pc] at stage ⊢
      exact stage }

/-- All locks are taken, so no caller is about to count itself. -/
theorem quiesceAdvance (pc : tx.quiescePc = .locking txg ncpus) :
    { tx with txOpenTxg := tx.txOpenTxg + 1, quiescePc := .unlocking txg 0 }.Invariant
      ncpus last :=
  { inv with
    locked := by
      obtain ⟨_, taken⟩ := inv.locked.locking txg ncpus pc
      refine ⟨?_, nofun, inv.locked.free⟩
      intro c txg' owned
      rcases lt_or_ge c ncpus with cpu | beyond
      · simp [taken c cpu] at owned
      · simp [inv.locked.free c beyond] at owned
    quiesce := by
      have stage := inv.quiesce
      simp only [QuiesceStage, pc] at stage
      obtain ⟨none, next, opened⟩ := stage
      exact ⟨none, next, by simp only [opened], by simp⟩
    holds := by
      intro th held
      obtain ⟨cpu, lower, upper⟩ := inv.holds th held
      exact ⟨cpu, lower, Nat.le_succ_of_le upper⟩ }

/-- The quiesce thread drops a lock after the next group was opened. -/
theorem quiesceUnlock (pc : tx.quiescePc = .unlocking txg c) :
    { tx.setLock c .free with quiescePc := .unlocking txg (c + 1) }.Invariant ncpus last :=
  { inv with
    locked := inv.locked.setLock nofun nofun (.inr rfl)
    quiesce := by
      have stage := inv.quiesce
      simp only [QuiesceStage, pc] at stage ⊢
      exact stage }

theorem quiesceDrain (pc : tx.quiescePc = .draining txg c)
    (zero : tx.tcCount c (txg &&& txgMask) = 0) :
    { tx with quiescePc := .draining txg (c + 1) }.Invariant ncpus last := by
  have stage := inv.quiesce
  simp only [QuiesceStage, pc] at stage
  obtain ⟨none, next, opened, drained⟩ := stage
  refine inv.setQuiescePc nofun ⟨none, next, opened, fun th held below => ?_⟩
  rcases Nat.lt_succ_iff_lt_or_eq.mp below with before | same
  · exact drained th held before
  · exact inv.counted.thTxg_ne zero held same

/-- All CPUs are drained, so that nobody holds the group. -/
theorem quiesceHandOff (pc : tx.quiescePc = .handingOff txg) :
    { tx with txQuiescedTxg := txg, quiescePc := .waiting }.Invariant ncpus last :=
  { inv with
    locked := ⟨inv.locked.entered, nofun, inv.locked.free⟩
    quiesce := by
      have stage := inv.quiesce
      simp only [QuiesceStage, pc] at stage
      obtain ⟨_, next, opened, drained⟩ := stage
      refine .inr ⟨next, opened.trans (congrArg (· + 1) next), fun th held => ?_⟩
      have other := drained th held (inv.holds th held).1
      rwa [next] at other }

theorem setSyncPc {pc : SyncPc} (before : ∀ txg, tx.syncPc ≠ .syncing txg)
    (after : ∀ txg, pc ≠ .syncing txg) : { tx with syncPc := pc }.Invariant ncpus last :=
  { inv with
    locked := { inv.locked with }
    sync := by
      have stage := inv.sync
      simpa only [SyncStage, before, after] using stage }

theorem syncTake (pc : tx.syncPc = .prompting) (quiesced : tx.txQuiescedTxg ≠ 0) :
    tx.syncTake.Invariant ncpus last := by
  have next : tx.txQuiescedTxg = tx.nextTxg last ∧ tx.txOpenTxg = tx.nextTxg last + 1 ∧
      (∀ th ∈ tx.holds, th.thTxg ≠ tx.nextTxg last) ∧
      (tx.quiescePc = .waiting ∨ tx.quiescePc = .exited) := by
    have stage := inv.quiesce
    simp only [QuiesceStage, Rested, Quiescing] at stage
    split at stage <;> grind
  obtain ⟨is_next, opened, unheld, idle⟩ := next
  have step : tx.syncTake.nextTxg last = tx.nextTxg last + 1 := rfl
  refine ⟨inv.counted, { inv.locked with }, ?_, ?_, ?_, ?_, inv.synced⟩
  · have rested : tx.syncTake.Rested last := .inl ⟨rfl, opened.trans step.symm⟩
    unfold QuiesceStage
    have same : tx.syncTake.quiescePc = tx.quiescePc := rfl
    rcases idle with waiting | exited
    · simpa only [same, waiting] using rested
    · simpa only [same, exited] using rested
  · have stage := inv.sync
    simp only [SyncStage, pc] at stage
    simp only [SyncStage, TxState.syncTake, length_cons, true_and]
    exact ⟨by rw [is_next]; rfl, by rw [stage.2]⟩
  · intro th held
    obtain ⟨cpu, lower, upper⟩ := inv.holds th held
    have other := unheld th held
    refine ⟨cpu, ?_, upper⟩
    rw [step]
    omega
  · simp only [TxState.syncTake, reverse_cons, length_cons, inv.handed,
      range'_concat, is_next, nextTxg, one_mul]

theorem syncDone (pc : tx.syncPc = .syncing txg) : tx.syncDone.Invariant ncpus last := by
  have stage := inv.sync
  simp only [SyncStage, pc] at stage
  obtain ⟨_, next, lengths⟩ := stage
  unfold TxState.syncDone
  simp only [pc]
  refine { inv with locked := { inv.locked with }, sync := ⟨rfl, lengths⟩, synced := ?_ }
  have last_synced : txg = last + 1 + tx.synced.length := by
    simp only [nextTxg] at next
    omega
  simp only [reverse_cons, length_cons, inv.synced, range'_concat, last_synced,
    one_mul]

theorem step (taken : (txgSystem ncpus last).Step tx label next) : next.Invariant ncpus last := by
  obtain ⟨enabled, rfl⟩ := taken
  have stage := inv.quiesce
  cases label with
  | holdEnter c => exact inv.setLock enabled.1 (by simp [enabled.2]) (by simp)
  | holdRead c => exact inv.setLock enabled.1 (by simp [enabled.2]) (by simp)
  | holdCount c =>
    obtain ⟨cpu, txg, entered⟩ := enabled
    exact inv.holdCount cpu entered
  | releToQuiesce c =>
    obtain ⟨cpu, txg, owned⟩ := enabled
    exact inv.setLock cpu (by simp [owned]) (by simp)
  | releToSync th => exact inv.releToSync enabled.1
  | quiesceStart =>
    obtain ⟨pc, _, _, none⟩ := enabled
    simp only [QuiesceStage, pc, Rested] at stage
    simp only [apply, quiesceStep, pc]
    refine inv.setQuiescePc (by simp) ⟨none, ?_, rfl⟩
    rcases stage with ⟨_, opened⟩ | ⟨quiesced, _⟩
    · exact opened
    · simp only [nextTxg] at quiesced
      omega
  | quiesceLock =>
    obtain ⟨txg, c, pc, cpu, _⟩ := enabled
    simp only [apply, quiesceStep, pc, if_pos cpu]
    exact inv.quiesceLock pc cpu
  | quiesceAdvance =>
    obtain ⟨txg, pc⟩ := enabled
    simp only [apply, quiesceStep, pc, lt_irrefl, if_false]
    exact inv.quiesceAdvance pc
  | quiesceUnlock =>
    obtain ⟨txg, c, pc, cpu⟩ := enabled
    simp only [apply, quiesceStep, pc, if_pos cpu]
    exact inv.quiesceUnlock pc
  | quiesceUnlocked =>
    obtain ⟨txg, pc⟩ := enabled
    simp only [QuiesceStage, pc] at stage
    simp only [apply, quiesceStep, pc, lt_irrefl, if_false]
    exact inv.setQuiescePc nofun stage
  | quiesceDrain =>
    obtain ⟨txg, c, pc, cpu, _, zero⟩ := enabled
    simp only [apply, quiesceStep, pc, if_pos cpu]
    exact inv.quiesceDrain pc zero
  | quiesceDrained =>
    obtain ⟨txg, pc⟩ := enabled
    simp only [QuiesceStage, pc] at stage
    simp only [apply, quiesceStep, pc, lt_irrefl, if_false]
    exact inv.setQuiescePc nofun stage
  | quiesceHandOff =>
    obtain ⟨txg, pc⟩ := enabled
    simp only [apply, quiesceStep, pc]
    exact inv.quiesceHandOff pc
  | quiesceExit =>
    simp only [QuiesceStage, enabled.1] at stage
    exact inv.setQuiescePc nofun stage
  | syncWake timedOut => exact inv.setSyncPc (by simp [enabled.1]) nofun
  | syncPrompt => exact inv.asks _ _ _ _
  | syncTake => exact inv.syncTake enabled.1 enabled.2.2.1
  | syncDone =>
    obtain ⟨⟨txg, pc⟩, _⟩ := enabled
    exact inv.syncDone pc
  | syncExit => exact inv.setSyncPc (by simp [enabled.1]) nofun
  | waitSynced txg => exact inv.asks _ _ _ _
  | waitOpen txg => exact inv.asks _ _ _ _
  | suspend => exact inv.asks _ _ _ _
  | resume => exact inv.asks _ _ _ _
  | stop => exact inv.asks _ _ _ _

end Invariant

theorem invariant_txgInit (ncpus last : ℕ) : (txgInit (last + 1)).Invariant ncpus last where
  counted := fun _ _ => rfl
  locked := ⟨by simp [txgInit], by simp [txgInit], fun _ _ => rfl⟩
  quiesce := .inl ⟨rfl, rfl⟩
  sync := ⟨rfl, rfl⟩
  holds := by simp [txgInit]
  handed := rfl
  synced := rfl

theorem invariant_of_reachable (reachable : (txgSystem ncpus last).Reachable tx) :
    tx.Invariant ncpus last := by
  refine reachable.invariant ?_ ?_
  · rintro _ rfl
    exact invariant_txgInit ncpus last
  · intro state label next inv taken
    exact inv.step taken

/-- The groups that are quiescing or quiesced. -/
def quiescingTxgs (tx : TxState) : List ℕ :=
  (match tx.quiescePc with
    | .unlocking txg _ | .draining txg _ | .handingOff txg => [txg]
    | _ => []) ++ if tx.txQuiescedTxg = 0 then [] else [tx.txQuiescedTxg]

/-- The groups that are syncing. -/
def syncingTxgs (tx : TxState) : List ℕ :=
  if tx.txSyncingTxg = 0 then [] else [tx.txSyncingTxg]

/-- The groups that are open, quiescing or quiesced, and syncing. -/
def stages (tx : TxState) : List ℕ := tx.txOpenTxg :: (tx.quiescingTxgs ++ tx.syncingTxgs)

/-- The groups up to the open one that `spa_sync` has not synced. -/
def unsynced (last : ℕ) (tx : TxState) : Finset ℕ :=
  (Finset.Ioc last tx.txOpenTxg).filter (· ∉ tx.synced)

namespace Invariant

variable (inv : tx.Invariant ncpus last)
include inv

theorem quiescingTxgs_cases :
    (tx.txOpenTxg = tx.nextTxg last ∧ tx.quiescingTxgs = []) ∨
      (tx.txOpenTxg = tx.nextTxg last + 1 ∧ tx.quiescingTxgs = [tx.nextTxg last]) := by
  have stage := inv.quiesce
  have positive : tx.nextTxg last ≠ 0 := by simp [nextTxg]
  simp only [QuiesceStage, Rested, Quiescing, quiescingTxgs] at stage ⊢
  split at stage <;> grind

theorem syncingTxgs_cases :
    (tx.synced.length = tx.handed.length ∧ tx.syncingTxgs = []) ∨
      (tx.synced.length + 1 = tx.handed.length ∧
        tx.syncingTxgs = [last + 1 + tx.synced.length]) := by
  have stage := inv.sync
  simp only [SyncStage, nextTxg, syncingTxgs] at stage ⊢
  split at stage <;> grind

/-- The stages are the groups from the open one down to the last synced one. -/
theorem stages_eq : ∃ count ≤ 3, tx.txOpenTxg = last + tx.synced.length + count ∧
    tx.stages = (range' (last + 1 + tx.synced.length) count).reverse := by
  rcases inv.quiescingTxgs_cases with ⟨opened, none⟩ | ⟨opened, quiescing⟩ <;>
    rcases inv.syncingTxgs_cases with ⟨lengths, idle⟩ | ⟨lengths, syncing⟩
  · refine ⟨1, by omega, by simp only [nextTxg] at opened; omega, ?_⟩
    simp [stages, none, idle, opened, nextTxg, lengths]
  · refine ⟨2, by omega, by simp only [nextTxg] at opened; omega, ?_⟩
    simp [stages, none, syncing, opened, nextTxg, ← lengths, range'_succ]
    omega
  · refine ⟨2, by omega, by simp only [nextTxg] at opened; omega, ?_⟩
    simp [stages, quiescing, idle, opened, nextTxg, lengths, range'_succ]
  · refine ⟨3, by omega, by simp only [nextTxg] at opened; omega, ?_⟩
    simp [stages, quiescing, syncing, opened, nextTxg, ← lengths, range'_succ]
    omega

theorem mem_synced (txg : ℕ) :
    txg ∈ tx.synced ↔ last + 1 ≤ txg ∧ txg < last + 1 + tx.synced.length := by
  rw [← mem_reverse, inv.synced, mem_range'_1]

theorem stages_toFinset : tx.stages.toFinset = tx.unsynced last := by
  obtain ⟨count, _, opened, stages⟩ := inv.stages_eq
  ext txg
  rw [stages, mem_toFinset, mem_reverse, mem_range'_1, unsynced, Finset.mem_filter,
    Finset.mem_Ioc, inv.mem_synced]
  omega

theorem stages_nodup : tx.stages.Nodup := by
  obtain ⟨count, _, _, stages⟩ := inv.stages_eq
  rw [stages, nodup_reverse]
  exact nodup_range'

theorem stages_length : tx.stages.length ≤ 3 := by
  obtain ⟨count, few, _, stages⟩ := inv.stages_eq
  rwa [stages, length_reverse, length_range']

/-- Three groups in a row have their own slots. -/
theorem slots_nodup : (tx.stages.map (· &&& txgMask)).Nodup := by
  refine (nodup_map_iff_inj_on inv.stages_nodup).mpr ?_
  obtain ⟨count, few, _, stages⟩ := inv.stages_eq
  intro first first_mem second second_mem same
  rw [stages, mem_reverse, mem_range'_1] at first_mem second_mem
  rw [and_txgMask, and_txgMask, txgSize] at same
  omega

theorem thTxg_notMem_handed (held : th ∈ tx.holds) : th.thTxg ∉ tx.handed := by
  rw [← mem_reverse, inv.handed, mem_range'_1]
  have bounds := inv.holds th held
  simp only [nextTxg] at bounds
  omega

end Invariant

/-- What `spa_sync` has got it keeps. -/
theorem mem_handed_of_step (taken : (txgSystem ncpus last).Step tx label next)
    (handed : txg ∈ tx.handed) : txg ∈ next.handed := by
  obtain ⟨_, rfl⟩ := taken
  have quiesce : (tx.quiesceStep ncpus).handed = tx.handed := by
    unfold quiesceStep
    split <;> try split
    all_goals rfl
  cases label with
  | holdCount c =>
    simp only [apply, TxState.holdCount]
    split <;> exact handed
  | syncTake => exact mem_cons_of_mem _ handed
  | syncDone =>
    simp only [apply, TxState.syncDone]
    split <;> exact handed
  | _ => first | exact handed | exact quiesce ▸ handed

end TxState

/-- The open, quiescing and syncing groups are those that are not synced, at most three, in
different slots.  `spa_sync` gets them in order, and then nobody holds them. -/
theorem txg_stages {ncpus last : ℕ} {tx : TxState}
    (reachable : (txgSystem ncpus last).Reachable tx) :
    tx.stages.Nodup ∧ tx.stages.toFinset = tx.unsynced last ∧ (tx.unsynced last).card ≤ 3 ∧
    tx.quiescingTxgs.length ≤ 1 ∧
    (tx.stages.map (· &&& txgMask)).Nodup ∧
    tx.handed.reverse = range' (last + 1) tx.handed.length ∧
    (∀ next, (txgSystem ncpus last).Step tx .syncTake next →
      next.handed = tx.txQuiescedTxg :: tx.handed ∧
      ∀ th ∈ tx.holds, th.thTxg ≠ tx.txQuiescedTxg) ∧
    ∀ txg ∈ tx.handed, ∀ later, (txgSystem ncpus last).Leads tx later →
      ∀ th ∈ later.holds, th.thTxg ≠ txg := by
  have inv := TxState.invariant_of_reachable reachable
  have unheld : ∀ txg ∈ tx.handed, ∀ later, (txgSystem ncpus last).Leads tx later →
      ∀ th ∈ later.holds, th.thTxg ≠ txg := by
    rintro txg handed later run th held rfl
    have later_inv := TxState.invariant_of_reachable (reachable.leads run)
    refine later_inv.thTxg_notMem_handed held ?_
    exact run.keeps (fun _ _ _ handed taken => TxState.mem_handed_of_step taken handed) handed
  refine ⟨inv.stages_nodup, inv.stages_toFinset, ?_, ?_, inv.slots_nodup, inv.handed, ?_, unheld⟩
  · rw [← inv.stages_toFinset]
    exact (toFinset_card_le _).trans inv.stages_length
  · rcases inv.quiescingTxgs_cases with ⟨_, none⟩ | ⟨_, one⟩
    · simp [none]
    · simp [one]
  · intro next taken
    have next_inv := inv.step taken
    obtain ⟨_, rfl⟩ := taken
    refine ⟨rfl, fun th held same => ?_⟩
    exact next_inv.thTxg_notMem_handed held (by simp [same, TxState.apply, TxState.syncTake])

/-- One CPU: the first group is entered, left and handed to `spa_sync`. -/
def firstGroupHanded : TxState :=
  [TxgLabel.holdEnter 0, .holdRead 0, .holdCount 0, .releToQuiesce 0, .syncWake true, .syncPrompt,
    .quiesceStart, .quiesceLock, .quiesceAdvance, .quiesceUnlock, .quiesceUnlocked,
    .releToSync ⟨0, 1⟩, .quiesceDrain, .quiesceDrained, .quiesceHandOff, .syncTake].foldl
    (TxState.apply 1) (txgInit 1)

theorem reachable_firstGroupHanded : (txgSystem 1 0).Reachable firstGroupHanded := by
  have start : (txgSystem 1 0).Reachable (txgInit 1) := .start rfl
  have entered := start.take (.holdEnter 0) ⟨⟨by decide, rfl⟩, rfl⟩
  have read := entered.take (.holdRead 0) ⟨⟨by decide, rfl⟩, rfl⟩
  have counted := read.take (.holdCount 0) ⟨⟨by decide, 1, rfl⟩, rfl⟩
  have held := counted.take (.releToQuiesce 0) ⟨⟨by decide, 1, rfl⟩, rfl⟩
  have woken := held.take (.syncWake true) ⟨⟨rfl, .inr (.inl rfl)⟩, rfl⟩
  have prompted := woken.take .syncPrompt ⟨⟨rfl, rfl, rfl⟩, rfl⟩
  have started := prompted.take .quiesceStart ⟨⟨rfl, rfl, by decide, rfl⟩, rfl⟩
  have locked := started.take .quiesceLock ⟨⟨1, 0, rfl, by decide, rfl⟩, rfl⟩
  have advanced := locked.take .quiesceAdvance ⟨⟨1, rfl⟩, rfl⟩
  have unlocked := advanced.take .quiesceUnlock ⟨⟨1, 0, rfl, by decide⟩, rfl⟩
  have waiting := unlocked.take .quiesceUnlocked ⟨⟨1, rfl⟩, rfl⟩
  have released := waiting.take (.releToSync ⟨0, 1⟩) ⟨⟨by decide, rfl⟩, rfl⟩
  have drained := released.take .quiesceDrain ⟨⟨1, 0, rfl, by decide, rfl, rfl⟩, rfl⟩
  have all := drained.take .quiesceDrained ⟨⟨1, rfl⟩, rfl⟩
  have quiesced := all.take .quiesceHandOff ⟨⟨1, rfl⟩, rfl⟩
  exact quiesced.take .syncTake ⟨⟨rfl, rfl, by decide, rfl⟩, rfl⟩

/-- The first group is handed over, and is not held in any later state. -/
theorem txg_stages_firstGroup : firstGroupHanded.handed = [1] ∧ firstGroupHanded.stages = [2, 1] ∧
    (firstGroupHanded.stages.map (· &&& txgMask)).Nodup ∧
    ∀ later, (txgSystem 1 0).Leads firstGroupHanded later → ∀ th ∈ later.holds, th.thTxg ≠ 1 := by
  obtain ⟨_, _, _, _, slots, _, _, unheld⟩ := txg_stages reachable_firstGroupHanded
  exact ⟨by decide, by decide, slots, unheld 1 (by decide)⟩

end Zfs
