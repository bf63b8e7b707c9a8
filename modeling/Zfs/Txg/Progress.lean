import Zfs.Txg.Protocol

/-!
# Waiting for a transaction group

A group that a caller of `txg_wait_synced` waits for can always be synced: the threads, and the
callers that hold groups, only have to finish what they have begun.
-/

namespace Zfs

open Function List

/-- The steps that finish what has begun: nobody enters, asks, suspends or stops the threads. -/
def TxgLabel.Finishes : TxgLabel → Prop
  | .holdEnter _ | .waitSynced _ | .waitOpen _ | .suspend | .stop | .syncWake true => False
  | _ => True

/-- What a caller with the lock of a CPU still has to do, the release of its hold included. -/
def TcOwner.work : TcOwner → ℕ
  | .free | .quiesceThread => 0
  | .holder _ => 1
  | .entered _ => 3
  | .entering => 4

theorem TcOwner.work_le (owner : TcOwner) : owner.work ≤ 4 := by
  cases owner <;> simp [work]

namespace TxState

variable {ncpus last target c txg : ℕ} {tx next : TxState} {label : TxgLabel}

/-- The quiesce thread has the locks that it took, and threads exit only when they are stopped. -/
structure Orderly (ncpus : ℕ) (tx : TxState) : Prop where
  /-- The quiesce thread has the locks that it took. -/
  owned : ∀ c < ncpus, tx.tcLock c = .quiesceThread →
    match tx.quiescePc with
    | .locking _ n => c < n
    | .unlocking _ n => n ≤ c
    | _ => False
  /-- It is within the CPUs. -/
  inside : ∀ txg n, tx.quiescePc = .unlocking txg n ∨ tx.quiescePc = .draining txg n → n ≤ ncpus
  /-- Threads exit only when they are stopped. -/
  stopped : tx.quiescePc = .exited ∨ tx.syncPc = .exited → tx.txExiting = true
  /-- The groups are counted. -/
  synced : tx.synced.length ≤ tx.txSyncedTxg

theorem Orderly.step (orderly : tx.Orderly ncpus) (inv : tx.Invariant ncpus last)
    (taken : (txgSystem ncpus last).Step tx label next) : next.Orderly ncpus := by
  obtain ⟨enabled, rfl⟩ := taken
  obtain ⟨owned, inside, stopped, synced⟩ := orderly
  cases label with
  | holdEnter c | holdRead c | releToQuiesce c =>
    simp only [apply, setLock]
    exact ⟨by grind [update_apply], inside, stopped, synced⟩
  | holdCount c =>
    obtain ⟨-, txg, lock⟩ := enabled
    simp only [apply, holdCount, lock, setLock, setCount]
    exact ⟨by grind [update_apply], inside, stopped, synced⟩
  | quiesceStart =>
    simp only [apply, quiesceStep, enabled.1] at owned ⊢
    exact ⟨by grind, by grind, by grind, synced⟩
  | quiesceLock | quiesceUnlock | quiesceDrain =>
    obtain ⟨txg, c, pc, enabled⟩ := enabled
    have cpu : c < ncpus := by grind
    simp only [apply, quiesceStep, pc, if_pos cpu, setLock] at owned ⊢
    exact ⟨by grind [update_apply], by grind, by grind, synced⟩
  | quiesceAdvance | quiesceUnlocked | quiesceDrained | quiesceHandOff =>
    obtain ⟨txg, pc⟩ := enabled
    simp only [apply, quiesceStep, pc, lt_irrefl, if_false] at owned ⊢
    exact ⟨by grind, by grind, by grind, synced⟩
  | quiesceExit =>
    simp only [apply, enabled.1] at owned ⊢
    exact ⟨owned, by simp, fun _ => enabled.2, synced⟩
  | syncDone =>
    obtain ⟨⟨txg, pc⟩, -⟩ := enabled
    have sync := inv.sync
    simp only [SyncStage, pc, nextTxg] at sync
    simp only [apply, syncDone, pc]
    exact ⟨owned, inside, by grind, by simp; omega⟩
  | syncExit => exact ⟨owned, inside, fun _ => enabled.2, synced⟩
  | syncWake _ | syncTake =>
    refine ⟨owned, inside, fun exited => stopped (exited.imp_right ?_), synced⟩
    simp [apply, syncTake]
  | stop => exact ⟨owned, inside, fun _ => rfl, synced⟩
  | _ => exact ⟨owned, inside, stopped, synced⟩

theorem orderly_of_reachable (reachable : (txgSystem ncpus last).Reachable tx) :
    tx.Orderly ncpus := by
  induction reachable with
  | start first =>
    obtain rfl := first
    constructor <;> simp [txgInit]
  | step before taken ih => exact ih.step (invariant_of_reachable before) taken

/-- What the quiesce thread, and the callers that it waits for, still have to do for a group. -/
def quiesceWork (ncpus : ℕ) (tx : TxState) : ℕ :=
  if tx.txQuiescedTxg ≠ 0 then 0
  else
    match tx.quiescePc with
    | .waiting => 11 * ncpus + 13 + if tx.txQuiesceTxgWaiting ≤ tx.txOpenTxg then 1 else 0
    | .locking _ c => 6 * ncpus + 8 + 5 * (ncpus - c) + (tx.tcLock c).work
    | .unlocking _ c => 5 * ncpus + 7 + (ncpus - c)
    | .draining _ c => 2 + 5 * (ncpus - c) + (tx.tcLock c).work
    | .handingOff _ => 1
    | .exited => 0

/-- A bound for the steps until a number of groups is synced. -/
def work (ncpus target : ℕ) (tx : TxState) : ℕ :=
  (11 * ncpus + 16) * (target - tx.handed.length + (target - tx.synced.length)) +
    (if tx.syncPc = .waiting then 1 else 0) + tx.quiesceWork ncpus + tx.holds.length + tx.txSuspend

/-- Some step that finishes what has begun leaves less to do. -/
def Progresses (ncpus target : ℕ) (tx : TxState) : Prop :=
  ∃ label : TxgLabel, label.Finishes ∧ tx.Enabled ncpus label ∧
    (tx.apply ncpus label).work ncpus target < tx.work ncpus target

section Quiesce

variable (inv : tx.Invariant ncpus last) (orderly : tx.Orderly ncpus) (none : tx.txQuiescedTxg = 0)
include none

/-- A caller with the lock that the quiesce thread waits for goes on. -/
theorem progresses_of_owner (cpu : c < ncpus) (busy : (tx.tcLock c).work ≠ 0)
    (pc : tx.quiescePc = .locking txg c ∨ tx.quiescePc = .draining txg c) :
    tx.Progresses ncpus target := by
  cases lock : tx.tcLock c with
  | free | quiesceThread => simp [lock, TcOwner.work] at busy
  | entering =>
    refine ⟨.holdRead c, trivial, ⟨cpu, lock⟩, ?_⟩
    rcases pc with pc | pc <;> simp [work, quiesceWork, apply, setLock, none, pc, lock,
      TcOwner.work]
  | entered txg =>
    refine ⟨.holdCount c, trivial, ⟨cpu, txg, lock⟩, ?_⟩
    rcases pc with pc | pc <;>
      simp [work, quiesceWork, apply, holdCount, setLock, setCount, none, pc, lock,
        TcOwner.work] <;>
      omega
  | holder txg =>
    refine ⟨.releToQuiesce c, trivial, ⟨cpu, txg, lock⟩, ?_⟩
    rcases pc with pc | pc <;> simp [work, quiesceWork, apply, setLock, none, pc, lock,
      TcOwner.work]

include inv orderly

/-- While the sync thread waits for a quiesced group, some step brings it nearer. -/
theorem progresses_of_quiesce (running : tx.txExiting = false)
    (prompting : tx.syncPc = .prompting) :
    tx.Progresses ncpus target := by
  cases pc : tx.quiescePc with
  | waiting =>
    by_cases asked : tx.txOpenTxg < tx.txQuiesceTxgWaiting
    · refine ⟨.quiesceStart, trivial, ⟨pc, running, asked, none⟩, ?_⟩
      have first := (tx.tcLock 0).work_le
      simp [work, quiesceWork, apply, quiesceStep, none, pc]
      omega
    · refine ⟨.syncPrompt, trivial, ⟨prompting, running, none⟩, ?_⟩
      simp [work, quiesceWork, apply, none, pc]
      grind
  | locking txg n =>
    obtain ⟨bound, -⟩ := inv.locked.locking txg n pc
    rcases bound.lt_or_eq with cpu | rfl
    · cases lock : tx.tcLock n with
      | free =>
        refine ⟨.quiesceLock, trivial, ⟨txg, n, pc, cpu, lock⟩, ?_⟩
        have next := (tx.tcLock (n + 1)).work_le
        simp [work, quiesceWork, apply, quiesceStep, setLock, none, pc, cpu, lock]
        omega
      | quiesceThread => simpa [pc] using orderly.owned n cpu lock
      | _ => exact progresses_of_owner none cpu (by simp [lock, TcOwner.work]) (.inl pc)
    · refine ⟨.quiesceAdvance, trivial, ⟨txg, pc⟩, ?_⟩
      simp [work, quiesceWork, apply, quiesceStep, none, pc]
      omega
  | unlocking txg n =>
    rcases (orderly.inside txg n (.inl pc)).lt_or_eq with cpu | rfl
    · refine ⟨.quiesceUnlock, trivial, ⟨txg, n, pc, cpu⟩, ?_⟩
      simp [work, quiesceWork, apply, quiesceStep, setLock, none, pc, cpu]
      omega
    · refine ⟨.quiesceUnlocked, trivial, ⟨txg, pc⟩, ?_⟩
      have first := (tx.tcLock 0).work_le
      simp [work, quiesceWork, apply, quiesceStep, none, pc]
      omega
  | draining txg n =>
    rcases (orderly.inside txg n (.inr pc)).lt_or_eq with cpu | rfl
    · cases lock : tx.tcLock n with
      | free =>
        by_cases zero : tx.tcCount n (txg &&& txgMask) = 0
        · refine ⟨.quiesceDrain, trivial, ⟨txg, n, pc, cpu, lock, zero⟩, ?_⟩
          have next := (tx.tcLock (n + 1)).work_le
          simp [work, quiesceWork, apply, quiesceStep, none, pc, cpu, lock]
          omega
        · -- a hold on the group is given back first
          rw [inv.counted] at zero
          obtain ⟨th, held, here⟩ := countP_pos_iff.mp (Nat.pos_of_ne_zero zero)
          simp only [decide_eq_true_eq] at here
          refine ⟨.releToSync th, trivial, ⟨held, here.1 ▸ lock⟩, ?_⟩
          have some_hold := length_pos_of_mem held
          simp [work, quiesceWork, apply, releToSync, setCount, none, pc, length_erase_of_mem held]
          omega
      | quiesceThread => simpa [pc] using orderly.owned n cpu lock
      | _ => exact progresses_of_owner none cpu (by simp [lock, TcOwner.work]) (.inr pc)
    · refine ⟨.quiesceDrained, trivial, ⟨txg, pc⟩, ?_⟩
      simp [work, quiesceWork, apply, quiesceStep, none, pc]
      omega
  | handingOff txg =>
    have stage := inv.quiesce
    simp only [QuiesceStage, Quiescing, pc, nextTxg] at stage
    refine ⟨.quiesceHandOff, trivial, ⟨txg, pc⟩, ?_⟩
    simp [work, quiesceWork, apply, quiesceStep, none, pc, show txg ≠ 0 by omega]
  | exited => simpa [running] using orderly.stopped (.inl pc)

end Quiesce

/-- A group is handed to `spa_sync`, or synced. -/
theorem work_lt_of_round (holds : next.holds = tx.holds) (suspend : next.txSuspend = tx.txSuspend)
    (round : target - next.handed.length + (target - next.synced.length) + 1 =
      target - tx.handed.length + (target - tx.synced.length)) :
    next.work ncpus target < tx.work ncpus target := by
  have bound : next.quiesceWork ncpus ≤ 11 * ncpus + 14 := by
    have work_le := TcOwner.work_le
    unfold quiesceWork
    grind
  simp only [work, ← round, Nat.mul_succ, holds, suspend]
  split_ifs <;> omega

/-- As long as somebody waits for a group, some thread or caller inside can go on. -/
theorem progresses (reachable : (txgSystem ncpus last).Reachable tx)
    (running : tx.txExiting = false)
    (waited : tx.txSyncedTxg < tx.txSyncTxgWaiting) :
    tx.Progresses ncpus tx.txSyncTxgWaiting := by
  have inv := invariant_of_reachable reachable
  have orderly := orderly_of_reachable reachable
  have fewer := orderly.synced
  have sync := inv.sync
  rcases Nat.eq_zero_or_pos tx.txSuspend with resumed | suspended
  · cases pc : tx.syncPc with
    | waiting =>
      refine ⟨.syncWake false, trivial, ⟨pc, by simp [waited]⟩, ?_⟩
      have same : { tx with syncPc := .prompting }.quiesceWork ncpus = tx.quiesceWork ncpus := rfl
      simp [work, apply, pc, same]
    | prompting =>
      by_cases none : tx.txQuiescedTxg = 0
      · exact progresses_of_quiesce inv orderly none running pc
      · refine ⟨.syncTake, trivial, ⟨pc, running, none, resumed⟩, work_lt_of_round rfl rfl ?_⟩
        simp only [SyncStage, pc, apply, syncTake, length_cons] at sync ⊢
        omega
    | syncing txg =>
      refine ⟨.syncDone, trivial, ⟨⟨txg, pc⟩, resumed⟩, ?_⟩
      simp only [SyncStage, pc, apply, syncDone] at sync ⊢
      refine work_lt_of_round rfl rfl ?_
      simp only [length_cons]
      omega
    | exited => simpa [running] using orderly.stopped (.inr pc)
  · exact ⟨.resume, trivial, suspended, Nat.add_lt_add_left (Nat.sub_lt suspended one_pos) _⟩

/-- A step of `Finishes` leads from one state to the next. -/
def Finishing (ncpus last : ℕ) (tx next : TxState) : Prop :=
  ∃ label : TxgLabel, label.Finishes ∧ (txgSystem ncpus last).Step tx label next

theorem asked_of_finishes (finishes : label.Finishes) (running : tx.txExiting = false) :
    (tx.apply ncpus label).txExiting = false ∧
      (tx.apply ncpus label).txSyncTxgWaiting = tx.txSyncTxgWaiting := by
  have quiesce : (tx.quiesceStep ncpus).txExiting = tx.txExiting ∧
      (tx.quiesceStep ncpus).txSyncTxgWaiting = tx.txSyncTxgWaiting := by
    unfold quiesceStep
    split <;> try split
    all_goals exact ⟨rfl, rfl⟩
  cases label with
  | holdCount c =>
    simp only [apply, holdCount]
    split <;> exact ⟨running, rfl⟩
  | syncDone =>
    simp only [apply, syncDone]
    split <;> exact ⟨running, rfl⟩
  | waitSynced _ | stop => exact finishes.elim
  | _ => first | exact ⟨running, rfl⟩ | exact ⟨quiesce.1.trans running, quiesce.2⟩

end TxState

/-- A group that somebody waits for is synced when the threads and the callers inside finish what
they have begun. -/
theorem txg_wait_synced_served {ncpus last : ℕ} {tx : TxState}
    (reachable : (txgSystem ncpus last).Reachable tx) (running : tx.txExiting = false) :
    ∃ later, Relation.ReflTransGen (TxState.Finishing ncpus last) tx later ∧
      tx.txSyncTxgWaiting ≤ later.txSyncedTxg := by
  generalize work_eq : tx.work ncpus tx.txSyncTxgWaiting = work
  induction work using Nat.strong_induction_on generalizing tx with
  | _ work ih =>
    by_cases waited : tx.txSyncedTxg < tx.txSyncTxgWaiting
    · obtain ⟨label, finishes, enabled, less⟩ := TxState.progresses reachable running waited
      obtain ⟨running', asked⟩ := TxState.asked_of_finishes finishes running
      rw [work_eq, ← asked] at less
      obtain ⟨later, run, served⟩ := ih _ less (reachable.take label ⟨enabled, rfl⟩) running' rfl
      exact ⟨later, .head ⟨label, finishes, enabled, rfl⟩ run, asked ▸ served⟩
    · exact ⟨tx, .refl, not_lt.mp waited⟩

/-- Somebody waits for the third group of a new pool. -/
theorem txg_wait_synced_served_third : ∃ later, Relation.ReflTransGen (TxState.Finishing 2 0)
    ((txgInit 1).apply 2 (.waitSynced 3)) later ∧ 3 ≤ later.txSyncedTxg :=
  txg_wait_synced_served
    (TransitionSystem.Reachable.take (.start rfl) (.waitSynced 3) ⟨trivial, rfl⟩) rfl

end Zfs
