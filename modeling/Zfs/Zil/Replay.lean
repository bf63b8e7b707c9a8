import Zfs.Zil.Code
import Zfs.Library.TransitionSystem

/-!
# Replayed sequence numbers

Replay interleaved with the synchronization of transaction groups.  `zil_sync` copies the slot of
its transaction group to the header whether or not a record was replayed in it.
-/

namespace Zfs

open Function List

/-- A run of `zil_replay`, and the transaction groups meanwhile. -/
structure ReplayState where
  zilog : ReplayLog
  /-- The records to come. -/
  records : List LogRecord
  /-- Whether the pending record was tried after waiting for a sync. -/
  sunk : Bool
  /-- The open group. -/
  openTxg : ℕ
  /-- The last group synced. -/
  syncedTxg : ℕ
  /-- The records replayed so far with their transaction groups, the latest first. -/
  replayed : List (ℕ × ℕ)

/-- The highest sequence number replayed up to a group. -/
def highestReplayed (before : ℕ) : List (ℕ × ℕ) → ℕ → ℕ
  | [], _ => before
  | (seq, replayTxg) :: rest, txg =>
    if replayTxg ≤ txg then max seq (highestReplayed before rest txg)
    else highestReplayed before rest txg

variable (state : ReplayState) (before : ℕ) (replayed : List (ℕ × ℕ))

/-- The last record replayed in a group up to some one. -/
def lastReplayed (txg : ℕ) : Option (ℕ × ℕ) :=
  replayed.find? fun record => record.2 ≤ txg

/-- The last record up to a group was replayed in one with the same slot, if any. -/
def SlotCurrent (txg : ℕ) : Prop :=
  match lastReplayed replayed txg with
  | some (seq, replayTxg) => replayTxg ≡ txg [MOD txgSize] ∧ before ≤ seq
  | none => before = 0

/-- The steps of replay and of the transaction groups. -/
inductive ReplayLabel where
  | skip
  | attempt (attempt : ReplayAttempt)
  | openNext
  | sync (dirty : Bool) (guid : ℕ)

/-- The state after a pass for the first of the records. -/
def ReplayState.afterPass (lr : LogRecord) (rest : List LogRecord) (attempt : ReplayAttempt) :
    ReplayState :=
  match zilReplayPass state.zilog lr state.sunk attempt, attempt with
  | .replayed zilog, .assigned txg _ =>
    { state with
      zilog, records := rest, sunk := false, replayed := (lr.lrcSeq, txg) :: state.replayed }
  | .replayed zilog, .refused _ => { state with zilog, records := rest, sunk := false }
  | .retry sunk, _ => { state with sunk }
  | .stopped zilog, _ => { state with zilog, records := rest, sunk := false }

/-- The state after a transaction group has synced. -/
def ReplayState.afterSync (dirty : Bool) (guid : ℕ) : ReplayState :=
  { state with
    zilog := if dirty then zilSync state.zilog (state.syncedTxg + 1) guid else state.zilog
    syncedTxg := state.syncedTxg + 1 }

/-- Replay of a log until it is destroyed, for guarded dirty groups. -/
def zilReplaySystem (claimTxg before : ℕ) (Guard : ReplayState → Prop) :
    TransitionSystem ReplayState ReplayLabel where
  Start state :=
    state.zilog.zlHeader.zhReplaySeq = before ∧ (∀ i, state.zilog.zlReplaySeq i = 0) ∧
      state.replayed = [] ∧ (∀ lr ∈ state.records, 0 < lr.lrcSeq) ∧
      state.records.Pairwise (fun lr later => lr.lrcSeq < later.lrcSeq) ∧
      state.syncedTxg < state.openTxg ∧ state.openTxg ≤ state.syncedTxg + 3
  Step state label next :=
    match label with
    | .skip => ∃ lr rest, state.records = lr :: rest ∧ zilReplaySkips state.zilog claimTxg lr ∧
      next = { state with records := rest, sunk := false }
    | .attempt attempt => ∃ lr rest, state.records = lr :: rest ∧
      ¬ zilReplaySkips state.zilog claimTxg lr ∧
      -- the transaction group is open or held open, and it does not go back
      (∀ txg error, attempt = .assigned txg error → state.syncedTxg < txg ∧
        txg ≤ state.openTxg ∧ ∀ record ∈ state.replayed, record.2 ≤ txg) ∧
      next = state.afterPass lr rest attempt
    | .openNext => state.openTxg + 1 ≤ state.syncedTxg + 3 ∧
      next = { state with openTxg := state.openTxg + 1 }
    | .sync dirty guid => state.syncedTxg + 1 < state.openTxg ∧
      state.zilog.zlDestroyTxg ≠ state.syncedTxg + 1 ∧
      -- a replayed record dirties the dataset
      ((∃ record ∈ state.replayed, record.2 = state.syncedTxg + 1) → dirty = true) ∧
      (dirty = true → Guard state) ∧
      next = state.afterSync dirty guid

/-- The last record replayed in a group with some slot. -/
def slotSeq (i : ℕ) : ℕ :=
  match replayed.find? fun record => record.2 &&& txgMask = i with
  | some record => record.1
  | none => 0

theorem slotSeq_cons (seq txg : ℕ) (replayed : List (ℕ × ℕ)) :
    slotSeq ((seq, txg) :: replayed) =
      update (slotSeq replayed) (txg &&& txgMask) seq := by
  funext i
  rw [slotSeq, find?_cons]
  by_cases same : txg &&& txgMask = i
  · simp [same]
  · simp [same, Ne.symm same, slotSeq]

/-- Later records have higher sequence numbers, no earlier groups. -/
def ReplayOrder : Prop :=
  replayed.Pairwise fun later record => record.1 < later.1 ∧ record.2 ≤ later.2

/-- The state of replay between two steps. -/
structure ReplayInvariant (state : ReplayState) : Prop where
  /-- The slots have the last record of each group. -/
  slots : state.zilog.zlReplaySeq = slotSeq state.replayed
  /-- Records are replayed in order. -/
  order : ReplayOrder state.replayed
  /-- Sequence numbers are positive. -/
  positive : (∀ record ∈ state.replayed, 0 < record.1) ∧ ∀ lr ∈ state.records, 0 < lr.lrcSeq
  /-- Records to come have higher ones. -/
  pending : ∀ lr ∈ state.records, ∀ record ∈ state.replayed, record.1 < lr.lrcSeq
  /-- They are in order. -/
  sorted : state.records.Pairwise fun lr later => lr.lrcSeq < later.lrcSeq
  /-- At most three groups are not synced. -/
  window : state.syncedTxg < state.openTxg ∧ state.openTxg ≤ state.syncedTxg + 3
  /-- Records are replayed in groups that are open. -/
  opened : ∀ record ∈ state.replayed, record.2 ≤ state.openTxg

/-- A pass replays a record in its slot, or leaves the slots alone. -/
theorem zilReplayPass_cases (zilog : ReplayLog) (lr : LogRecord) (sunk : Bool)
    (attempt : ReplayAttempt) :
    (∃ txg error, attempt = .assigned txg error ∧
        zilReplayPass zilog lr sunk attempt = .replayed { zilog with
          zlReplaySeq := update zilog.zlReplaySeq (txg &&& txgMask) lr.lrcSeq }) ∨
      (∃ later, zilReplayPass zilog lr sunk attempt = .retry later) ∨
      zilReplayPass zilog lr sunk attempt = .stopped { zilog with zlStopReplay := true } := by
  cases attempt with
  | refused error => exact .inr (.inr rfl)
  | assigned txg error =>
    unfold zilReplayPass
    dsimp only
    generalize (if lr.txtype = 0 ∨ lr.txtype ≥ txMaxType then einval else error) = result
    by_cases success : result = 0
    · exact .inl ⟨txg, error, rfl, if_pos success⟩
    · rw [if_neg success]
      by_cases retry : result ≠ erestart ∧ sunk = false
      · exact .inr (.inl ⟨true, if_pos retry⟩)
      · rw [if_neg retry]
        by_cases failed : result ≠ erestart
        · exact .inr (.inr (if_pos failed))
        · exact .inr (.inl ⟨sunk, if_neg failed⟩)

variable {txg guid : ℕ} {lr : LogRecord} {rest : List LogRecord} {record : ℕ × ℕ}

theorem zilSync_of_ne {zilog : ReplayLog} (kept : zilog.zlDestroyTxg ≠ txg) :
    (zilSync zilog txg guid).zlHeader.zhReplaySeq = zilog.zlReplaySeq (txg &&& txgMask) ∧
    (zilSync zilog txg guid).zlReplaySeq = zilog.zlReplaySeq := by
  simp only [zilSync, zilSyncDestroy]
  rw [if_neg kept]
  exact ⟨rfl, rfl⟩

section Run

variable {claimTxg before : ℕ} {Guard : ReplayState → Prop} {state next : ReplayState}
  {label : ReplayLabel}

theorem ReplayInvariant.drop (inv : ReplayInvariant state) (parsed : state.records = lr :: rest)
    (zilog : ReplayLog) (same : zilog.zlReplaySeq = state.zilog.zlReplaySeq) (sunk : Bool) :
    ReplayInvariant { state with zilog, records := rest, sunk } where
  slots := same.trans inv.slots
  order := inv.order
  positive := ⟨inv.positive.1, fun lr' member => inv.positive.2 lr' (by simp [parsed, member])⟩
  pending lr' member := inv.pending lr' (by simp [parsed, member])
  sorted := (pairwise_cons.mp (parsed ▸ inv.sorted)).2
  window := inv.window
  opened := inv.opened

theorem ReplayInvariant.replay (inv : ReplayInvariant state) (parsed : state.records = lr :: rest)
    (current : txg ≤ state.openTxg) (latest : ∀ record ∈ state.replayed, record.2 ≤ txg) :
    ReplayInvariant { state with
      zilog := { state.zilog with
        zlReplaySeq := update state.zilog.zlReplaySeq (txg &&& txgMask) lr.lrcSeq }
      records := rest
      sunk := false
      replayed := (lr.lrcSeq, txg) :: state.replayed } := by
  have head : lr ∈ state.records := by simp [parsed]
  have sorted := pairwise_cons.mp (parsed ▸ inv.sorted)
  refine ⟨?_, ?_, ⟨?_, ?_⟩, ?_, sorted.2, inv.window, ?_⟩
  · rw [slotSeq_cons, ← inv.slots]
  · refine pairwise_cons.mpr ⟨fun record member => ?_, inv.order⟩
    exact ⟨inv.pending lr head record member, latest record member⟩
  · intro record member
    rcases mem_cons.mp member with rfl | member
    · exact inv.positive.2 lr head
    · exact inv.positive.1 record member
  · exact fun lr' member => inv.positive.2 lr' (by simp [parsed, member])
  · intro lr' member record replayed
    rcases mem_cons.mp replayed with rfl | replayed
    · exact sorted.1 lr' member
    · exact inv.pending lr' (by simp [parsed, member]) record replayed
  · intro record member
    rcases mem_cons.mp member with rfl | member
    · exact current
    · exact inv.opened record member

theorem ReplayInvariant.step (inv : ReplayInvariant state)
    (step : (zilReplaySystem claimTxg before Guard).Step state label next) :
    ReplayInvariant next := by
  cases label with
  | skip =>
    obtain ⟨lr, rest, parsed, _, rfl⟩ := step
    exact inv.drop parsed state.zilog rfl false
  | attempt attempt =>
    obtain ⟨lr, rest, parsed, _, current, rfl⟩ := step
    unfold ReplayState.afterPass
    rcases zilReplayPass_cases state.zilog lr state.sunk attempt with
      ⟨txg, error, rfl, pass⟩ | ⟨later, pass⟩ | pass
    · obtain ⟨_, opened, latest⟩ := current txg error rfl
      rw [pass]
      exact inv.replay parsed opened latest
    · rw [pass]
      exact { inv with }
    · rw [pass]
      exact inv.drop parsed { state.zilog with zlStopReplay := true } rfl false
  | openNext =>
    obtain ⟨room, rfl⟩ := step
    exact { inv with
      window := ⟨by have := inv.window; simp only; omega, room⟩
      opened := fun record member => (inv.opened record member).trans (Nat.le_succ _) }
  | sync dirty guid =>
    obtain ⟨room, kept, _, _, rfl⟩ := step
    have window := inv.window
    refine { inv with slots := ?_, window := ⟨room, ?_⟩ }
    · rw [ReplayState.afterSync]
      cases dirty with
      | false => exact inv.slots
      | true => exact (zilSync_of_ne kept).2.trans inv.slots
    · simp only [ReplayState.afterSync]
      omega

theorem replayInvariant_of_reachable
    (reachable : (zilReplaySystem claimTxg before Guard).Reachable state) :
    ReplayInvariant state := by
  refine @TransitionSystem.Reachable.invariant _ _ _ ReplayInvariant _ reachable ?_ ?_
  · rintro state ⟨_, blank, none, positive, sorted, window⟩
    refine ⟨?_, ?_, ⟨?_, positive⟩, ?_, sorted, window, ?_⟩
    · rw [none]
      exact funext blank
    all_goals simp [none, ReplayOrder]
  · exact fun state label next inv step => inv.step step

end Run

variable {replayed : List (ℕ × ℕ)}

/-- The last record up to a transaction group has the highest sequence number. -/
theorem highestReplayed_eq (before : ℕ) (order : ReplayOrder replayed) (txg : ℕ) :
    highestReplayed before replayed txg =
      match lastReplayed replayed txg with
      | some record => max record.1 before
      | none => before := by
  induction replayed with
  | nil => rfl
  | cons record rest ih =>
    obtain ⟨seq, replayTxg⟩ := record
    obtain ⟨newest, rest_order⟩ := pairwise_cons.mp order
    rw [highestReplayed, lastReplayed, find?_cons, ih rest_order]
    by_cases early : replayTxg ≤ txg
    · rw [if_pos early]
      simp only [early, decide_true]
      cases found : lastReplayed rest txg with
      | none => rfl
      | some older =>
        have lower := (newest older (mem_of_find?_eq_some found)).1
        rw [← max_assoc, max_eq_left lower.le]
    · rw [if_neg early]
      simp only [early, decide_false]
      rfl

/-- The slot of a transaction group has nothing of the later ones. -/
theorem slotSeq_filter (window : ∀ record ∈ replayed, record.2 < txg + txgSize) :
    slotSeq (replayed.filter fun record => record.2 ≤ txg) (txg &&& txgMask) =
      slotSeq replayed (txg &&& txgMask) := by
  induction replayed with
  | nil => rfl
  | cons record rest ih =>
    obtain ⟨seq, replayTxg⟩ := record
    have same := ih fun record member => window record (mem_cons_of_mem _ member)
    rw [filter_cons, slotSeq_cons]
    by_cases early : replayTxg ≤ txg
    · rw [if_pos (decide_eq_true early), slotSeq_cons, update_apply, update_apply, same]
    · have near := window (seq, replayTxg) mem_cons_self
      have other : txg &&& txgMask ≠ replayTxg &&& txgMask := by
        rw [and_txgMask, and_txgMask]
        simp only [txgSize] at near ⊢
        omega
      rw [if_neg (by simpa using early), update_of_ne other, same]

/-- A slot that is not current holds an older sequence number. -/
theorem slotSeq_lt {older : List (ℕ × ℕ)} (order : ReplayOrder (record :: older))
    (positive : 0 < record.1) (i : ℕ) : slotSeq older i < record.1 := by
  rw [slotSeq]
  cases found : older.find? fun record => record.2 &&& txgMask = i with
  | none => exact positive
  | some record => exact ((pairwise_cons.mp order).1 record (mem_of_find?_eq_some found)).1

/-- The slot of a group holds the highest sequence number if it is current. -/
theorem slotSeq_eq_highest_iff {before : ℕ} (order : ReplayOrder replayed)
    (positive : ∀ record ∈ replayed, 0 < record.1)
    (window : ∀ record ∈ replayed, record.2 < txg + txgSize) :
    slotSeq replayed (txg &&& txgMask) = highestReplayed before replayed txg ↔
      SlotCurrent before replayed txg := by
  rw [highestReplayed_eq before order, SlotCurrent, ← slotSeq_filter window]
  have last : lastReplayed replayed txg = (replayed.filter fun record => record.2 ≤ txg).head? :=
    head?_filter.symm
  have sub : (replayed.filter fun record => record.2 ≤ txg).Sublist replayed := filter_sublist
  rw [last]
  cases early : replayed.filter fun record => record.2 ≤ txg with
  | nil => exact eq_comm
  | cons record older =>
    rw [early] at sub
    obtain ⟨seq, replayTxg⟩ := record
    rw [slotSeq_cons, head?_cons]
    by_cases same : replayTxg ≡ txg [MOD txgSize]
    · rw [and_txgMask, and_txgMask, same, update_self]
      simp only [same, true_and]
      omega
    · have lower := slotSeq_lt (order.sublist sub) (positive _ (sub.subset mem_cons_self))
        (txg &&& txgMask)
      rw [update_of_ne (by rw [and_txgMask, and_txgMask]; exact fun equal => same equal.symm)]
      simp only [same, false_and, iff_false]
      omega

/-- The slot of the next transaction group is current. -/
def NextSlotCurrent (before : ℕ) (state : ReplayState) : Prop :=
  SlotCurrent before state.replayed (state.syncedTxg + 1)

theorem highestReplayed_mono (before : ℕ) (replayed : List (ℕ × ℕ)) {txg' : ℕ}
    (order : txg ≤ txg') :
    highestReplayed before replayed txg ≤ highestReplayed before replayed txg' := by
  induction replayed with
  | nil => exact le_rfl
  | cons record rest ih =>
    rw [highestReplayed, highestReplayed]
    split_ifs with early late
    · exact max_le_max le_rfl ih
    · omega
    · exact ih.trans (le_max_right _ _)
    · exact ih

theorem highestReplayed_succ (before : ℕ) (quiet : ∀ record ∈ replayed, record.2 ≠ txg + 1) :
    highestReplayed before replayed (txg + 1) = highestReplayed before replayed txg := by
  induction replayed with
  | nil => rfl
  | cons record rest ih =>
    obtain ⟨seq, replayTxg⟩ := record
    have other : replayTxg ≠ txg + 1 := quiet _ mem_cons_self
    rw [highestReplayed, highestReplayed,
      ih fun record member => quiet record (mem_cons_of_mem _ member)]
    exact if_congr (by omega) rfl rfl

theorem le_highestReplayed {before : ℕ} (member : record ∈ replayed) (early : record.2 ≤ txg) :
    record.1 ≤ highestReplayed before replayed txg := by
  induction replayed with
  | nil => cases member
  | cons newest rest ih =>
    rw [highestReplayed]
    rcases mem_cons.mp member with rfl | member
    · rw [if_pos early]
      exact le_max_left _ _
    · split_ifs
      · exact (ih member).trans (le_max_right _ _)
      · exact ih member

section Current

variable {claimTxg before : ℕ} {Guard : ReplayState → Prop} {state next : ReplayState}
  {label : ReplayLabel}

theorem sync_replaySeq (inv : ReplayInvariant state)
    (kept : state.zilog.zlDestroyTxg ≠ state.syncedTxg + 1) :
    (state.afterSync true guid).zilog.zlHeader.zhReplaySeq =
        highestReplayed before state.replayed (state.syncedTxg + 1) ↔
      NextSlotCurrent before state := by
  have window : ∀ record ∈ state.replayed, record.2 < state.syncedTxg + 1 + txgSize := by
    intro record member
    have opened := inv.opened record member
    have room := inv.window
    simp only [txgSize]
    omega
  have copied : (state.afterSync true guid).zilog.zlHeader.zhReplaySeq =
      state.zilog.zlReplaySeq ((state.syncedTxg + 1) &&& txgMask) := (zilSync_of_ne kept).1
  rw [copied, inv.slots]
  exact slotSeq_eq_highest_iff inv.order inv.positive.1 window

/-- Only a dirty transaction group writes the header. -/
theorem header_of_not_sync (step : (zilReplaySystem claimTxg before Guard).Step state label next)
    (other : ∀ dirty guid, label ≠ .sync dirty guid) :
    next.zilog.zlHeader = state.zilog.zlHeader ∧
    highestReplayed before next.replayed next.syncedTxg =
      highestReplayed before state.replayed state.syncedTxg := by
  cases label with
  | skip =>
    obtain ⟨lr, rest, _, _, rfl⟩ := step
    exact ⟨rfl, rfl⟩
  | attempt attempt =>
    obtain ⟨lr, rest, _, _, live, rfl⟩ := step
    unfold ReplayState.afterPass
    rcases zilReplayPass_cases state.zilog lr state.sunk attempt with
      ⟨txg, error, rfl, pass⟩ | ⟨later, pass⟩ | pass
    · rw [pass]
      exact ⟨rfl, if_neg (not_le.mpr (live txg error rfl).1)⟩
    all_goals
      rw [pass]
      exact ⟨rfl, rfl⟩
  | openNext =>
    obtain ⟨_, rfl⟩ := step
    exact ⟨rfl, rfl⟩
  | sync dirty guid => exact absurd rfl (other dirty guid)

/-- The header is at the highest sequence number up to the last synced txg. -/
theorem header_of_reachable
    (reachable : (zilReplaySystem claimTxg before (NextSlotCurrent before)).Reachable state) :
    state.zilog.zlHeader.zhReplaySeq = highestReplayed before state.replayed state.syncedTxg := by
  induction reachable with
  | start start =>
    obtain ⟨header, _, none, _⟩ := start
    rw [header, none]
    rfl
  | @step _ _ label reachable step ih =>
    by_cases sync : ∃ dirty guid, label = .sync dirty guid
    · obtain ⟨dirty, guid, rfl⟩ := sync
      obtain ⟨_, kept, dirties, guard, rfl⟩ := step
      cases dirty with
      | true => exact (sync_replaySeq (replayInvariant_of_reachable reachable) kept).mpr (guard rfl)
      | false =>
        refine ih.trans (highestReplayed_succ before fun record member same => ?_).symm
        cases dirties ⟨record, member, same⟩
    · push Not at sync
      obtain ⟨header, same⟩ := header_of_not_sync step sync
      rw [header, same, ih]

end Current

/-- `zil_sync` writes the highest replayed sequence number exactly if the slot of its group is
current; if it always is, no record whose effects are on disk is replayed again. -/
theorem zil_sync_replay_seq (claimTxg before : ℕ) :
    (∀ (Guard : ReplayState → Prop) (state next : ReplayState) (guid : ℕ),
      (zilReplaySystem claimTxg before Guard).Reachable state →
      (zilReplaySystem claimTxg before Guard).Step state (.sync true guid) next →
      (next.zilog.zlHeader.zhReplaySeq =
          highestReplayed before state.replayed (state.syncedTxg + 1) ↔
        NextSlotCurrent before state)) ∧
    (∀ (state next : ReplayState) (label : ReplayLabel),
      (zilReplaySystem claimTxg before (NextSlotCurrent before)).Reachable state →
      (zilReplaySystem claimTxg before (NextSlotCurrent before)).Step state label next →
      state.zilog.zlHeader.zhReplaySeq ≤ next.zilog.zlHeader.zhReplaySeq ∧
      ∀ (lr : LogRecord) (txg : ℕ), (lr.lrcSeq, txg) ∈ next.replayed → txg ≤ next.syncedTxg →
        zilReplaySkips next.zilog claimTxg lr) := by
  constructor
  · rintro Guard state next guid reachable ⟨_, kept, _, _, rfl⟩
    exact sync_replaySeq (replayInvariant_of_reachable reachable) kept
  · intro state next label reachable step
    have header := header_of_reachable reachable
    have header' := header_of_reachable (.step reachable step)
    constructor
    · by_cases sync : ∃ dirty guid, label = .sync dirty guid
      · obtain ⟨dirty, guid, rfl⟩ := sync
        obtain ⟨_, _, _, _, rfl⟩ := step
        rw [header, header']
        exact highestReplayed_mono before state.replayed (Nat.le_succ _)
      · push Not at sync
        rw [(header_of_not_sync step sync).1]
    · intro lr txg member early
      have replayed : lr.lrcSeq ≤ next.zilog.zlHeader.zhReplaySeq := by
        rw [header']
        exact le_highestReplayed member early
      simp [zilReplaySkips, replayed]

/-- A log of one record before it is replayed. -/
def oneRecord : ReplayState where
  zilog := ⟨⟨7, 0, some ⟨1, 1, 1⟩, 1⟩, fun _ => 0, 0, false, false, []⟩
  records := [⟨9, 7, 1⟩]
  sunk := false
  openTxg := 9
  syncedTxg := 8
  replayed := []

/-- The record is replayed in group 9, and group 10 is open. -/
def oneRecordReplayed : ReplayState :=
  { oneRecord.afterPass ⟨9, 7, 1⟩ [] (.assigned 9 0) with openTxg := 10 }

theorem reachable_oneRecordReplayed (Guard : ReplayState → Prop) :
    (zilReplaySystem 7 0 Guard).Reachable oneRecordReplayed := by
  have start : (zilReplaySystem 7 0 Guard).Reachable oneRecord :=
    .start ⟨rfl, fun _ => rfl, rfl, by decide, by decide, by decide, by decide⟩
  have replayed := start.take (ReplayLabel.attempt (.assigned 9 0))
    ⟨⟨9, 7, 1⟩, [], rfl, by decide, by
      rintro txg error ⟨⟩
      exact ⟨by decide, by decide, by decide⟩, rfl⟩
  exact replayed.take ReplayLabel.openNext ⟨by decide, rfl⟩

/-- The record is skipped as soon as group 9 is synced. -/
theorem zil_sync_replay_seq_synced :
    NextSlotCurrent 0 oneRecordReplayed ∧
    (oneRecordReplayed.afterSync true 0).zilog.zlHeader.zhReplaySeq = 1 ∧
    zilReplaySkips (oneRecordReplayed.afterSync true 0).zilog 7 ⟨9, 7, 1⟩ := by
  have current : NextSlotCurrent 0 oneRecordReplayed := ⟨rfl, by decide⟩
  have sync : (zilReplaySystem 7 0 (NextSlotCurrent 0)).Step oneRecordReplayed (.sync true 0)
      (oneRecordReplayed.afterSync true 0) :=
    ⟨by decide, by decide, fun _ => rfl, fun _ => current, rfl⟩
  have reachable := reachable_oneRecordReplayed (NextSlotCurrent 0)
  obtain ⟨written, kept⟩ := zil_sync_replay_seq 7 0
  exact ⟨current, (written _ _ _ 0 reachable sync).mpr current,
    (kept _ _ _ reachable sync).2 ⟨9, 7, 1⟩ 9 (by decide) (by decide)⟩

/-- A record is replayed in group 9, and 9 and 10 are synced. -/
def oneRecordSynced : ReplayState :=
  let synced := oneRecordReplayed.afterSync true 0
  { synced with openTxg := 11 }.afterSync true 0

/-- Nothing is replayed in transaction group 10: the sequence number in the header goes back. -/
theorem zil_sync_replay_seq_back :
    (zilReplaySystem 7 0 fun _ => True).Reachable oneRecordSynced ∧
    (1, 9) ∈ oneRecordSynced.replayed ∧ oneRecordSynced.syncedTxg = 10 ∧
    oneRecordSynced.zilog.zlHeader.zhReplaySeq = 0 ∧
    zilReplaySkips oneRecordSynced.zilog 7 ⟨9, 7, 1⟩ = false := by
  refine ⟨?_, by decide, by decide, by decide, by decide⟩
  have synced := (reachable_oneRecordReplayed fun _ => True).take (ReplayLabel.sync true 0)
    ⟨by decide, by decide, fun _ => rfl, fun _ => trivial, rfl⟩
  have reopened := synced.take ReplayLabel.openNext ⟨by decide, rfl⟩
  exact reopened.take (ReplayLabel.sync true 0)
    ⟨by decide, by decide, fun _ => rfl, fun _ => trivial, rfl⟩

end Zfs
