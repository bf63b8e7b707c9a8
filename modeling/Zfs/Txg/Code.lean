import Zfs.Library.TransitionSystem
import Zfs.Machine

/-!
# Transaction groups

The threads of `txg.c`: any number of callers, the quiesce thread and the sync thread.  A step is a
stretch of code in which no other thread can interfere: under `tx_sync_lock`, under the lock of a
CPU, or the access to one shared variable.
-/

namespace Zfs

/-- `txg_handle_t`: a hold on a transaction group. -/
structure TxgHandle where
  thCpu : ℕ
  thTxg : ℕ
  deriving DecidableEq

/-- Who holds the `tc_lock` of a CPU. -/
inductive TcOwner where
  | free
  /-- A caller of `txg_hold_open` that has the lock. -/
  | entering
  /-- A caller of `txg_hold_open` that has read `tx_open_txg`. -/
  | entered (txg : ℕ)
  /-- A caller between `txg_hold_open` and `txg_rele_to_quiesce`. -/
  | holder (txg : ℕ)
  | quiesceThread
  deriving DecidableEq

/-- The quiesce thread goes three times over the CPUs. -/
inductive QuiescePc where
  | waiting
  | locking (txg c : ℕ)
  | unlocking (txg c : ℕ)
  | draining (txg c : ℕ)
  | handingOff (txg : ℕ)
  | exited
  deriving DecidableEq

/-- Where the sync thread is. -/
inductive SyncPc where
  | waiting
  | prompting
  | syncing (txg : ℕ)
  | exited
  deriving DecidableEq

/-- `tx_state_t`, the holds, the threads, and the groups handed over and synced. -/
structure TxState where
  /-- The open group. -/
  txOpenTxg : ℕ
  /-- The quiesced group, or zero. -/
  txQuiescedTxg : ℕ
  /-- The syncing group, or zero. -/
  txSyncingTxg : ℕ
  /-- The last group synced. -/
  txSyncedTxg : ℕ
  /-- The group that is to be synced. -/
  txSyncTxgWaiting : ℕ
  /-- The group that is to be quiesced. -/
  txQuiesceTxgWaiting : ℕ
  /-- Whether the threads are to exit. -/
  txExiting : Bool
  /-- The readers of `tx_suspend`. -/
  txSuspend : ℕ
  /-- Who has the lock of a CPU. -/
  tcLock : ℕ → TcOwner
  /-- The holds of a CPU, by slot. -/
  tcCount : ℕ → ℕ → ℕ
  /-- The holds of the callers. -/
  holds : List TxgHandle
  /-- Where the quiesce thread is. -/
  quiescePc : QuiescePc
  /-- Where the sync thread is. -/
  syncPc : SyncPc
  /-- The groups handed over. -/
  handed : List ℕ
  /-- The groups synced. -/
  synced : List ℕ

/-- The steps of the threads. -/
inductive TxgLabel where
  | holdEnter (c : ℕ)
  | holdRead (c : ℕ)
  | holdCount (c : ℕ)
  | releToQuiesce (c : ℕ)
  | releToSync (th : TxgHandle)
  | quiesceStart
  | quiesceLock
  | quiesceAdvance
  | quiesceUnlock
  | quiesceUnlocked
  | quiesceDrain
  | quiesceDrained
  | quiesceHandOff
  | quiesceExit
  | syncWake (timedOut : Bool)
  | syncPrompt
  | syncTake
  | syncDone
  | syncExit
  | waitSynced (txg : ℕ)
  | waitOpen (txg : ℕ)
  | suspend
  | resume
  | stop

namespace TxState

variable (ncpus : ℕ) (tx : TxState)

/-- When a thread may take a step, with a number of CPUs. -/
def Enabled : TxgLabel → Prop
  | .holdEnter c => c < ncpus ∧ tx.tcLock c = .free
  | .holdRead c => c < ncpus ∧ tx.tcLock c = .entering
  | .holdCount c => c < ncpus ∧ ∃ txg, tx.tcLock c = .entered txg
  | .releToQuiesce c => c < ncpus ∧ ∃ txg, tx.tcLock c = .holder txg
  | .releToSync th => th ∈ tx.holds ∧ tx.tcLock th.thCpu = .free
  | .quiesceStart => tx.quiescePc = .waiting ∧ tx.txExiting = false ∧
    tx.txOpenTxg < tx.txQuiesceTxgWaiting ∧ tx.txQuiescedTxg = 0
  | .quiesceLock => ∃ txg c, tx.quiescePc = .locking txg c ∧ c < ncpus ∧ tx.tcLock c = .free
  | .quiesceAdvance => ∃ txg, tx.quiescePc = .locking txg ncpus
  | .quiesceUnlock => ∃ txg c, tx.quiescePc = .unlocking txg c ∧ c < ncpus
  | .quiesceUnlocked => ∃ txg, tx.quiescePc = .unlocking txg ncpus
  | .quiesceDrain => ∃ txg c, tx.quiescePc = .draining txg c ∧ c < ncpus ∧ tx.tcLock c = .free ∧
    tx.tcCount c (txg &&& txgMask) = 0
  | .quiesceDrained => ∃ txg, tx.quiescePc = .draining txg ncpus
  | .quiesceHandOff => ∃ txg, tx.quiescePc = .handingOff txg
  | .quiesceExit => tx.quiescePc = .waiting ∧ tx.txExiting = true
  | .syncWake timedOut => tx.syncPc = .waiting ∧ (tx.txExiting = true ∨ timedOut = true ∨
    tx.txSyncedTxg < tx.txSyncTxgWaiting ∨ tx.txQuiescedTxg ≠ 0)
  | .syncPrompt => tx.syncPc = .prompting ∧ tx.txExiting = false ∧ tx.txQuiescedTxg = 0
  | .syncTake => tx.syncPc = .prompting ∧ tx.txExiting = false ∧ tx.txQuiescedTxg ≠ 0 ∧
    tx.txSuspend = 0
  | .syncDone => (∃ txg, tx.syncPc = .syncing txg) ∧ tx.txSuspend = 0
  | .syncExit => tx.syncPc = .prompting ∧ tx.txExiting = true
  | .waitSynced _ => True
  | .waitOpen _ => True
  | .suspend => True
  | .resume => 0 < tx.txSuspend
  | .stop => True

/-- Give the lock of a CPU to somebody. -/
def setLock (c : ℕ) (owner : TcOwner) : TxState :=
  { tx with tcLock := Function.update tx.tcLock c owner }

/-- Change a count of a CPU. -/
def setCount (c g count : ℕ) : TxState :=
  { tx with tcCount := Function.update tx.tcCount c (Function.update (tx.tcCount c) g count) }

/-- `tc_count[txg & TXG_MASK]++` in `txg_hold_open`. -/
def holdCount (c : ℕ) : TxState :=
  match tx.tcLock c with
  | .entered txg =>
    let tx := tx.setCount c (txg &&& txgMask) (tx.tcCount c (txg &&& txgMask) + 1)
    { tx.setLock c (.holder txg) with holds := ⟨c, txg⟩ :: tx.holds }
  | _ => tx

def releToSync (th : TxgHandle) : TxState :=
  let g := th.thTxg &&& txgMask
  { tx.setCount th.thCpu g (tx.tcCount th.thCpu g - 1) with holds := tx.holds.erase th }

/-- What the quiesce thread does next. -/
def quiesceStep : TxState :=
  match tx.quiescePc with
  | .waiting => { tx with quiescePc := .locking tx.txOpenTxg 0 }
  | .locking txg c =>
    if c < ncpus then
      { tx.setLock c .quiesceThread with quiescePc := .locking txg (c + 1) }
    else
      { tx with txOpenTxg := tx.txOpenTxg + 1, quiescePc := .unlocking txg 0 }
  | .unlocking txg c =>
    if c < ncpus then
      { tx.setLock c .free with quiescePc := .unlocking txg (c + 1) }
    else
      { tx with quiescePc := .draining txg 0 }
  | .draining txg c =>
    if c < ncpus then
      { tx with quiescePc := .draining txg (c + 1) }
    else
      { tx with quiescePc := .handingOff txg }
  | .handingOff txg => { tx with txQuiescedTxg := txg, quiescePc := .waiting }
  | .exited => tx

/-- The sync thread hands the quiesced group to `spa_sync`. -/
def syncTake : TxState :=
  { tx with
    txQuiescedTxg := 0
    txSyncingTxg := tx.txQuiescedTxg
    syncPc := .syncing tx.txQuiescedTxg
    handed := tx.txQuiescedTxg :: tx.handed }

/-- `spa_sync` has returned. -/
def syncDone : TxState :=
  match tx.syncPc with
  | .syncing txg =>
    { tx with
      txSyncedTxg := txg
      txSyncingTxg := 0
      syncPc := .waiting
      synced := txg :: tx.synced }
  | _ => tx

/-- A step of a thread. -/
def apply : TxgLabel → TxState
  | .holdEnter c => tx.setLock c .entering
  | .holdRead c => tx.setLock c (.entered tx.txOpenTxg)
  | .holdCount c => tx.holdCount c
  | .releToQuiesce c => tx.setLock c .free
  | .releToSync th => tx.releToSync th
  | .quiesceStart | .quiesceLock | .quiesceAdvance | .quiesceUnlock | .quiesceUnlocked
  | .quiesceDrain | .quiesceDrained | .quiesceHandOff => tx.quiesceStep ncpus
  | .quiesceExit => { tx with quiescePc := .exited }
  | .syncWake _ => { tx with syncPc := .prompting }
  | .syncPrompt =>
    { tx with txQuiesceTxgWaiting := max tx.txQuiesceTxgWaiting (tx.txOpenTxg + 1) }
  | .syncTake => tx.syncTake
  | .syncDone => tx.syncDone
  | .syncExit => { tx with syncPc := .exited }
  | .waitSynced txg =>
    { tx with
      txSyncTxgWaiting := max tx.txSyncTxgWaiting (if txg = 0 then tx.txOpenTxg else txg) }
  | .waitOpen txg =>
    { tx with
      txQuiesceTxgWaiting :=
        max tx.txQuiesceTxgWaiting (if txg = 0 then tx.txOpenTxg + 1 else txg) }
  | .suspend => { tx with txSuspend := tx.txSuspend + 1 }
  | .resume => { tx with txSuspend := tx.txSuspend - 1 }
  | .stop => { tx with txExiting := true }

end TxState

/-- `txg_init` and `txg_sync_start`. -/
def txgInit (txg : ℕ) : TxState where
  txOpenTxg := txg
  txQuiescedTxg := 0
  txSyncingTxg := 0
  txSyncedTxg := 0
  txSyncTxgWaiting := 0
  txQuiesceTxgWaiting := 0
  txExiting := false
  txSuspend := 0
  tcLock := fun _ => .free
  tcCount := fun _ _ => 0
  holds := []
  quiescePc := .waiting
  syncPc := .waiting
  handed := []
  synced := []

/-- The threads of a pool, from the group after that of the uberblock. -/
def txgSystem (ncpus spaLastSyncedTxg : ℕ) : TransitionSystem TxState TxgLabel where
  Start tx := tx = txgInit (spaLastSyncedTxg + 1)
  Step tx label next := tx.Enabled ncpus label ∧ next = tx.apply ncpus label

end Zfs
