import Zfs.Machine

/-!
# The holds of an operation on a fat ZAP

`zap_add` and `zap_update`, as far as they hold leaves and the ZAP.  What the other calls return is
given for every round of the retry loop.  A leaf is known by its address.
-/

namespace Zfs.Zap

def eagain : ℕ := 11

def eexist : ℕ := 17

/-- How often each leaf and the ZAP were held, less released. -/
structure Holds where
  /-- The holds of each leaf. -/
  leaves : ℕ → ℤ
  /-- The holds of the ZAP. -/
  zap : ℤ
  /-- Whether `zn_zap` is not `NULL`. -/
  znZap : Bool

namespace Holds

variable (holds : Holds) (l : ℕ)

/-- `zap_deref_leaf` or `zap_create_leaf` returns a leaf. -/
@[simp] def getLeaf : Holds := { holds with leaves := holds.leaves + Pi.single l 1 }

@[simp] def zapPutLeaf : Holds := { holds with leaves := holds.leaves - Pi.single l 1 }

@[simp] def zapUnlockdir : Holds := { holds with zap := holds.zap - 1 }

@[simp] def zapLockdir (err : ℕ) : Holds :=
  { holds with zap := holds.zap + if err = 0 then 1 else 0, znZap := err = 0 }

end Holds

/-- What the calls of one round of the retry loop return. -/
structure Round where
  /-- The error of `zap_leaf_lookup`. -/
  lookup : ℕ
  /-- `zap_entry_create` or `zap_entry_update`. -/
  store : ℕ
  /-- Whether `zap_tryupgradedir` succeeds. -/
  tryupgradedir : Bool
  /-- Whether the prefix of the leaf is as long as the indices of the pointer table. -/
  full : Bool
  /-- The error of `zap_lockdir`. -/
  lockdir : ℕ
  /-- The error of `zap_grow_ptrtbl`, as often as it is called, or of `zap_deref_leaf`, or the
  leaf. -/
  derefLeaf : Except ℕ ℕ
  /-- Whether another thread has split the leaf. -/
  split : Bool
  /-- The error of `zap_idx_to_blk`. -/
  idxToBlk : ℕ
  /-- The leaf that `zap_create_leaf` makes. -/
  createLeaf : ℕ
  /-- Whether the name belongs to the new leaf. -/
  sibling : Bool

/-- The second half of `zap_expand_leaf`. -/
def splitLeaf (round : Round) (l : ℕ) (holds : Holds) : Except ℕ ℕ × Holds :=
  if round.idxToBlk ≠ 0 then (.error round.idxToBlk, holds)
  else
    let nl := round.createLeaf
    if round.sibling then (.ok nl, (holds.getLeaf nl).zapPutLeaf l)
    else (.ok l, (holds.getLeaf nl).zapPutLeaf nl)

/-- `zap_expand_leaf`: its error, or the leaf for the caller. -/
def zapExpandLeaf (round : Round) (l : ℕ) (holds : Holds) : Except ℕ ℕ × Holds :=
  if round.tryupgradedir = false ∨ round.full = true then
    let holds := (holds.zapPutLeaf l).zapUnlockdir.zapLockdir round.lockdir
    if round.lockdir ≠ 0 then (.error round.lockdir, holds)
    else
      match round.derefLeaf with
      | .error err => (.error err, holds)
      | .ok l =>
        if round.split then (.ok l, holds.getLeaf l) else splitLeaf round l (holds.getLeaf l)
  else splitLeaf round l holds

/-- What the calls of `zap_put_leaf_maybe_grow_ptrtbl` return. -/
structure Ending where
  /-- Whether the leaf is nearly full, or the pointer table is growing. -/
  grows : Bool
  /-- Whether `zap_tryupgradedir` succeeds. -/
  tryupgradedir : Bool
  /-- The error of `zap_lockdir`. -/
  lockdir : ℕ

def zapPutLeafMaybeGrowPtrtbl (ending : Ending) (l : ℕ) (holds : Holds) : Holds :=
  if ending.grows = true ∧ ending.tryupgradedir = false then
    (holds.zapPutLeaf l).zapUnlockdir.zapLockdir ending.lockdir
  else holds.zapPutLeaf l

/-- The end of `fzap_add_cd` and `fzap_update`. -/
def out (ending : Ending) (l : ℕ) (holds : Holds) : Holds :=
  let holds := if holds.znZap then zapPutLeafMaybeGrowPtrtbl ending l holds else holds
  if holds.znZap then holds.zapUnlockdir else holds

/-- The retry loop; an attempt may ask to expand the leaf. -/
def retry (attempt : Round → ℕ × Bool) (ending : Ending) :
    List Round → ℕ → Holds → Option (ℕ × Holds)
  | [], _, _ => none
  | round :: rounds, l, holds =>
    if (attempt round).2 then
      match zapExpandLeaf round l holds with
      | (.ok l, holds) => retry attempt ending rounds l holds
      | (.error err, holds) => some (err, out ending l holds)
    else some ((attempt round).1, out ending l holds)

/-- What the calls of an operation return. -/
structure Call where
  /-- The error of `zap_lockdir`. -/
  lockdir : ℕ
  /-- The error of `zap_name_alloc`, `fzap_checksize` or `zap_deref_leaf`, or the leaf. -/
  derefLeaf : Except ℕ ℕ
  /-- The rounds of the loop. -/
  rounds : List Round
  ending : Ending

/-- An operation on a fat ZAP: its error, and the holds that it leaves. -/
def operation (attempt : Round → ℕ × Bool) (call : Call) : Option (ℕ × Holds) :=
  let holds := Holds.zapLockdir ⟨0, 0, false⟩ call.lockdir
  if call.lockdir ≠ 0 then some (call.lockdir, holds)
  else
    match call.derefLeaf with
    | .error err => some (err, holds.zapUnlockdir)
    | .ok l => retry attempt call.ending call.rounds l (holds.getLeaf l)

/-- The attempt of `fzap_add_cd`. -/
def addAttempt (round : Round) : ℕ × Bool :=
  if round.lookup = 0 then (eexist, false)
  else if round.lookup ≠ enoent then (round.lookup, false)
  else (round.store, round.store = eagain)

/-- The attempt of `fzap_update`. -/
def updateAttempt (round : Round) : ℕ × Bool := (round.store, round.store = eagain)

def zapAdd : Call → Option (ℕ × Holds) := operation addAttempt

def zapUpdate : Call → Option (ℕ × Holds) := operation updateAttempt

def Holds.Released (holds : Holds) : Prop := holds.leaves = 0 ∧ holds.zap = 0

/-- The holds of a caller with a leaf. -/
def owning (l : ℕ) : Holds := ⟨Pi.single l 1, 1, true⟩

/-- Nothing fails that leaves the caller without its leaf. -/
def Round.Keeps (round : Round) (l : ℕ) : Prop :=
  round.tryupgradedir = false ∨ round.full = true → round.lockdir = 0 →
    ∃ leaf, round.derefLeaf = .ok leaf ∧ (round.split = true ∨ round.idxToBlk = 0 ∨ leaf = l)

/-- The caller keeps its leaf in every round. -/
def Keeps (attempt : Round → ℕ × Bool) : List Round → ℕ → Prop
  | [], _ => True
  | round :: rounds, l => (attempt round).2 = true → round.Keeps l ∧
    ∀ next, (zapExpandLeaf round l (owning l)).1 = .ok next → Keeps attempt rounds next

/-- The caller keeps its leaf in the retry loop. -/
def Call.Keeps (attempt : Round → ℕ × Bool) (call : Call) : Prop :=
  ∀ l, call.lockdir = 0 → call.derefLeaf = .ok l → Zap.Keeps attempt call.rounds l

variable {attempt : Round → ℕ × Bool} {ending : Ending} {round : Round} {rounds : List Round}
  {holds : Holds} {l : ℕ}

theorem released_out {leaves : ℕ → ℤ} :
    (out ending l ⟨leaves, 1, true⟩).Released ↔ leaves = Pi.single l 1 := by
  unfold out zapPutLeafMaybeGrowPtrtbl Holds.Released
  by_cases locked : ending.lockdir = 0 <;> split_ifs <;> simp_all [sub_eq_zero]

theorem single_eq_iff {leaf : ℕ} : (Pi.single leaf 1 : ℕ → ℤ) = Pi.single l 1 ↔ leaf = l := by
  refine ⟨fun same => ?_, fun same => by rw [same]⟩
  by_contra other
  simpa [Pi.single_apply, other] using congrFun same leaf

/-- What the caller can do after `zap_expand_leaf`. -/
def Leaves (ending : Ending) (l : ℕ) (keeps : Prop) : Except ℕ ℕ × Holds → Prop
  | (.ok next, holds) => holds = owning next ∧ keeps
  | (.error _, holds) => (out ending l holds).Released ↔ keeps

theorem leaves_splitLeaf {leaf : ℕ} {keeps : Prop} (iff : keeps ↔ round.idxToBlk = 0 ∨ leaf = l) :
    Leaves ending l keeps (splitLeaf round leaf (owning leaf)) := by
  unfold splitLeaf
  split_ifs with failed sibling
  · exact released_out.trans (by rw [single_eq_iff, iff, or_iff_right failed])
  · exact ⟨by simp [owning], iff.mpr (.inl (not_not.mp failed))⟩
  · exact ⟨by simp [owning], iff.mpr (.inl (not_not.mp failed))⟩

theorem leaves_zapExpandLeaf (round : Round) (l : ℕ) :
    Leaves ending l (round.Keeps l) (zapExpandLeaf round l (owning l)) := by
  unfold zapExpandLeaf Round.Keeps
  by_cases relocks : round.tryupgradedir = false ∨ round.full = true
  · by_cases locked : round.lockdir = 0
    · cases found : round.derefLeaf with
      | error err =>
        have lost : (0 : ℕ → ℤ) ≠ Pi.single l 1 := fun same => by simpa using congrFun same l
        simp [relocks, locked, owning, Leaves, released_out, lost]
      | ok leaf =>
        by_cases split : round.split = true
        · simp [relocks, locked, split, owning, Leaves]
        · have := @leaves_splitLeaf ending round l leaf _ Iff.rfl
          simpa [relocks, locked, split, owning] using this
    · simp [relocks, locked, owning, Leaves, out, Holds.Released]
  · rw [if_neg relocks]
    exact leaves_splitLeaf (by simp [relocks])

theorem released_retry {done : ℕ × Holds}
    (returns : retry attempt ending rounds l (owning l) = some done) :
    done.2.Released ↔ Keeps attempt rounds l := by
  induction rounds generalizing l with
  | nil => cases returns
  | cons round rounds ih =>
    have leaves := @leaves_zapExpandLeaf ending round l
    rw [retry] at returns
    unfold Keeps
    split_ifs at returns with expands
    · generalize zapExpandLeaf round l (owning l) = result at returns leaves
      obtain ⟨next | err, holds⟩ := result
      · cases returns
        simpa only [expands, Leaves, true_implies, reduceCtorEq, false_implies, implies_true,
          and_true] using leaves
      · obtain ⟨rfl, keeps⟩ := leaves
        simp [ih returns, expands, keeps]
    · cases returns
      exact iff_of_true (released_out.mpr rfl) fun expands' => absurd expands' expands

theorem released_operation {call : Call} {done : ℕ × Holds}
    (returns : operation attempt call = some done) : done.2.Released ↔ call.Keeps attempt := by
  unfold operation at returns
  unfold Call.Keeps
  by_cases locked : call.lockdir = 0
  · cases found : call.derefLeaf with
    | error err =>
      obtain rfl : (err, ⟨0, 0, true⟩) = done := by simpa [locked, found] using returns
      simp [Holds.Released]
    | ok leaf =>
      have loop : retry attempt call.ending call.rounds leaf (owning leaf) = some done := by
        simpa [locked, found, owning] using returns
      simpa [locked] using released_retry loop
  · obtain rfl : (call.lockdir, ⟨0, 0, false⟩) = done := by simpa [locked] using returns
    simp [Holds.Released, locked]

/-- `zap_add` and `zap_update` release every hold once, if and only if the caller of
`zap_expand_leaf` keeps its leaf in every round. -/
theorem fzap_holds_released_iff (call : Call) (done : ℕ × Holds) :
    (zapAdd call = some done → (done.2.Released ↔ call.Keeps addAttempt)) ∧
    (zapUpdate call = some done → (done.2.Released ↔ call.Keeps updateAttempt)) :=
  ⟨released_operation, released_operation⟩

/-- The lock cannot be upgraded, and the leaf cannot be read again. -/
def lostLeaf : Call :=
  ⟨0, .ok 7, [⟨enoent, eagain, false, false, 0, .error eio, false, 0, 0, false⟩], ⟨false, true, 0⟩⟩

theorem not_released_lostLeaf :
    ∃ done, zapAdd lostLeaf = some done ∧ zapUpdate lostLeaf = some done ∧
      done.2.leaves 7 = -1 := by
  refine ⟨_, rfl, rfl, ?_⟩
  decide

/-- The leaf 7 is split, and the name goes to its sibling 8. -/
def usedSibling : Call :=
  ⟨0, .ok 7, [⟨enoent, eagain, true, false, 0, .ok 7, false, 0, 8, true⟩,
    ⟨enoent, 0, true, false, 0, .ok 8, false, 0, 9, false⟩], ⟨false, true, 0⟩⟩

theorem fzap_holds_released_iff_usedSibling : ∃ done, zapAdd usedSibling = some done ∧
    done.1 = 0 ∧ (done.2.Released ↔ usedSibling.Keeps addAttempt) :=
  ⟨_, rfl, rfl, (fzap_holds_released_iff usedSibling _).1 rfl⟩

end Zfs.Zap
