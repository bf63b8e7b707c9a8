import Zfs.Rlock.Cover

/-!
# Range locks along every run

The counts of the tree are those of the locks that are held, and every such lock starts and ends
between entries.  A lock that is its own entry is alone in its range.
-/

namespace Zfs

open CountedIntervals TransitionSystem List

/-- A lock is over an offset. -/
def Rl.Covers (rl : Rl) (x : ℕ) : Prop := rl.rOff ≤ x ∧ x < rl.rEnd

instance (rl : Rl) (x : ℕ) : Decidable (rl.Covers x) := inferInstanceAs (Decidable (_ ∧ _))

/-- The number of the locks over an offset. -/
def heldAt (held : List Rl) (x : ℕ) : ℕ := held.countP fun lock => lock.Covers x

/-- An entry of the tree is a lock that is held. -/
structure Rl.IsEntry (rl lock : Rl) : Prop where
  owner : rl.owner = lock.owner
  rOff : rl.rOff = lock.rOff
  rLen : rl.rLen = lock.rLen
  rType : rl.rType = lock.rType

/-- What holds between two calls. -/
structure RangeState.Invariant (state : RangeState) : Prop where
  /-- The entries are in order. -/
  entries : Entries state.tree
  /-- They count the locks that are held. -/
  counts : ∀ x, cntAt state.tree x = heldAt state.held x
  /-- No entry reaches over an end of a lock. -/
  cut : ∀ lock ∈ state.held, Cut Rl.rOff Rl.rEnd state.tree lock.rOff ∧
    Cut Rl.rOff Rl.rEnd state.tree lock.rEnd
  /-- The ranges are proper. -/
  proper : ∀ lock ∈ state.held, ProperRange lock.rOff lock.rLen
  /-- A lock is an entry, or a reader that proxies replace. -/
  single : ∀ lock ∈ state.held, lock.rCnt = 1 ∨ lock.rCnt = 0 ∧ lock.rType = .reader
  /-- An entry with an owner is held. -/
  own : ∀ rl ∈ state.tree, rl.owner ≠ none → ∃ lock ∈ state.held, lock.rCnt = 1 ∧ rl.IsEntry lock
  /-- A lock with a reference is an entry. -/
  entered : ∀ lock ∈ state.held, lock.rCnt = 1 → ∃ rl ∈ state.tree, rl.IsEntry lock
  /-- A lock has an owner. -/
  owned : ∀ lock ∈ state.held, lock.owner ≠ none
  /-- Owners have one lock each. -/
  distinct : (state.held.map Rl.owner).Nodup
  /-- No count reaches 2^32. -/
  room : state.held.length < 2 ^ 32

variable {state : RangeState} {tree held : List Rl} {rl lock other : Rl} {off len x owner : ℕ}

theorem Rl.IsEntry.symm (same : rl.IsEntry lock) : lock.IsEntry rl :=
  ⟨same.owner.symm, same.rOff.symm, same.rLen.symm, same.rType.symm⟩

theorem Rl.IsEntry.trans (same : rl.IsEntry lock) (same' : lock.IsEntry other) : rl.IsEntry other :=
  ⟨same.owner.trans same'.owner, same.rOff.trans same'.rOff, same.rLen.trans same'.rLen,
    same.rType.trans same'.rType⟩

theorem Rl.IsEntry.rEnd (same : rl.IsEntry lock) : rl.rEnd = lock.rEnd := by
  rw [Rl.rEnd, Rl.rEnd, same.rOff, same.rLen]

theorem heldAt_cons (lock : Rl) (held : List Rl) (x : ℕ) :
    heldAt (lock :: held) x = heldAt held x + if lock.Covers x then 1 else 0 := by
  simp only [heldAt, countP_cons, decide_eq_true_eq]

theorem heldAt_perm {held' : List Rl} (permuted : held.Perm held') (x : ℕ) :
    heldAt held x = heldAt held' x := permuted.countP_eq _

/-- Two locks over an offset are counted as two. -/
theorem two_le_heldAt (member : lock ∈ held) (member' : other ∈ held) (different : other ≠ lock)
    (covers : lock.Covers x) (covers' : other.Covers x) : 2 ≤ heldAt held x := by
  rw [heldAt_perm (perm_cons_erase member), heldAt_cons, if_pos covers]
  have : 0 < heldAt (held.erase lock) x :=
    countP_pos_iff.mpr
      ⟨other, (mem_erase_of_ne different).mpr member', decide_eq_true covers'⟩
  omega

namespace RangeState.Invariant

variable (invariant : state.Invariant)

include invariant

theorem eq_of_owner (member : lock ∈ state.held)
    (member' : other ∈ state.held) (same : lock.owner = other.owner) : lock = other :=
  inj_on_of_nodup_map invariant.distinct member member' same

theorem exists_entry (member : lock ∈ state.held)
    (covers : lock.Covers x) : ∃ rl ∈ state.tree, rl.Covers x := by
  have counted : 0 < heldAt state.held x :=
    countP_pos_iff.mpr ⟨lock, member, decide_eq_true covers⟩
  rw [← invariant.counts] at counted
  exact exists_of_weightAt_pos counted

theorem rCnt_eq (member : rl ∈ state.tree) (covers : rl.Covers x) :
    rl.rCnt = heldAt state.held x := by
  rw [← invariant.counts]
  exact (invariant.entries.ordered.weightAt_eq member covers.1 covers.2).symm

theorem rCnt_le (member : rl ∈ state.tree) :
    rl.rCnt ≤ state.held.length := by
  rw [invariant.rCnt_eq member ⟨le_rfl, invariant.entries.positive rl member⟩]
  exact countP_le_length

/-- A lock that is its own entry is alone in its range. -/
theorem alone (member : lock ∈ state.held) (single : lock.rCnt = 1)
    (member' : other ∈ state.held) (covers : lock.Covers x) (covers' : other.Covers x) :
    other = lock := by
  by_contra different
  obtain ⟨rl, rl_member, same⟩ := invariant.entered lock member single
  have once : rl.rCnt = 1 := by
    apply (invariant.entries.entry rl rl_member).once
    rw [same.owner]
    exact invariant.owned lock member
  have count := invariant.rCnt_eq rl_member (x := x) (by
    rw [Rl.Covers, same.rOff, same.rEnd]
    exact covers)
  have := two_le_heldAt member member' different covers covers'
  omega

theorem tree_nodup : state.tree.Nodup := by
  refine invariant.entries.ordered.imp_of_mem fun {first second} member _ apart same => ?_
  have := invariant.entries.positive first member
  subst same
  omega

theorem eq_of_tree_owner {rl' : Rl} (member : rl ∈ state.tree)
    (member' : rl' ∈ state.tree) (owned : rl.owner = some owner) (owned' : rl'.owner = some owner) :
    rl = rl' := by
  obtain ⟨lock, lock_member, -, same⟩ := invariant.own rl member (by simp [owned])
  obtain ⟨other, other_member, -, same'⟩ := invariant.own rl' member' (by simp [owned'])
  obtain rfl : lock = other := by
    apply invariant.eq_of_owner lock_member other_member
    rw [← same.owner, ← same'.owner, owned, owned']
  have bounds := invariant.entries.positive rl member
  refine invariant.entries.ordered.eq_of_over member member' ⟨le_rfl, bounds⟩ ?_
  rw [same'.rOff, same'.rEnd, ← same.rOff, ← same.rEnd]
  exact ⟨le_rfl, bounds⟩

theorem owners_nodup : (owners state.tree).Nodup := by
  refine pairwise_filterMap.mpr ?_
  refine Pairwise.imp_of_mem ?_ invariant.entries.ordered
  intro first second member member' apart owner owned owner' owned' same
  subst same
  have := invariant.entries.positive first member
  obtain rfl := invariant.eq_of_tree_owner member member' owned owned'
  omega

theorem cut_of_refines (member : lock ∈ state.held)
    (refines : ∀ rl ∈ tree, (∃ whole ∈ state.tree, whole.rOff ≤ rl.rOff ∧ rl.rEnd ≤ whole.rEnd) ∨
      ∀ x, rl.rOff ≤ x → x < rl.rEnd → cntAt state.tree x = 0) :
    Cut Rl.rOff Rl.rEnd tree lock.rOff ∧ Cut Rl.rOff Rl.rEnd tree lock.rEnd := by
  obtain ⟨cut, cut'⟩ := invariant.cut lock member
  obtain ⟨order, _⟩ := Rl.order (invariant.proper lock member)
  have covered {x : ℕ} (covers : lock.Covers x) : cntAt state.tree x ≠ 0 := by
    rw [invariant.counts]
    exact (countP_pos_iff.mpr ⟨lock, member, decide_eq_true covers⟩).ne'
  constructor
  all_goals
    intro rl rl_member
    rcases refines rl rl_member with ⟨whole, whole_member, _, _⟩ | gap
  · have := cut whole whole_member
    omega
  · by_contra inside
    exact covered ⟨le_rfl, order⟩ (gap lock.rOff (by omega) (by omega))
  · have := cut' whole whole_member
    omega
  · by_contra inside
    exact covered ⟨by omega, by omega⟩ (gap (lock.rEnd - 1) (by omega) (by omega))

end RangeState.Invariant

theorem cntAt_map {flag : Rl → Rl} (same : ∀ rl, (flag rl).IsEntry rl ∧ (flag rl).rCnt = rl.rCnt)
    (tree : List Rl) (x : ℕ) : cntAt (tree.map flag) x = cntAt tree x := by
  induction tree with
  | nil => rfl
  | cons rl tree ih =>
    obtain ⟨entry, rCnt⟩ := same rl
    rw [cntAt, map_cons, weightAt, cntAt, weightAt, entry.rOff, entry.rEnd, rCnt]
    exact congrArg _ ih

/-- A call that waits changes flags only. -/
theorem RangeState.Invariant.flags (invariant : state.Invariant) (flag : Rl → Rl)
    (same : ∀ rl, (flag rl).IsEntry rl ∧ (flag rl).rCnt = rl.rCnt) :
    RangeState.Invariant { state with tree := state.tree.map flag } where
  entries := by
    refine ⟨pairwise_map.mpr (invariant.entries.ordered.imp fun {first second} apart => ?_), ?_⟩
    · rw [(same first).1.rEnd, (same second).1.rOff]
      exact apart
    · intro flagged member
      obtain ⟨rl, rl_member, rfl⟩ := mem_map.mp member
      obtain ⟨entry, rCnt⟩ := same rl
      obtain ⟨proper, counted, converted, proxy, once⟩ := invariant.entries.entry rl rl_member
      constructor
      · rwa [entry.rOff, entry.rLen]
      · rwa [rCnt]
      · rwa [entry.rType]
      · rwa [entry.owner, entry.rType]
      · rwa [entry.owner, rCnt]
  counts x := by
    rw [← invariant.counts, cntAt_map same]
  cut lock member := invariant.cut_of_refines member (forall_mem_map.mpr fun rl rl_member =>
    .inl ⟨rl, rl_member, (same rl).1.rOff.ge, (same rl).1.rEnd.le⟩)
  proper := invariant.proper
  single := invariant.single
  own flagged member owned := by
    obtain ⟨rl, rl_member, rfl⟩ := mem_map.mp member
    rw [(same rl).1.owner] at owned
    obtain ⟨lock, lock_member, single, entry⟩ := invariant.own rl rl_member owned
    exact ⟨lock, lock_member, single, (same rl).1.trans entry⟩
  entered lock member single := by
    obtain ⟨rl, rl_member, entry⟩ := invariant.entered lock member single
    exact ⟨flag rl, mem_map_of_mem rl_member, (same rl).1.trans entry⟩
  owned := invariant.owned
  distinct := invariant.distinct
  room := invariant.room

theorem RangeState.Invariant.atOffset (invariant : state.Invariant) (off : ℕ) (flag : Rl → Rl)
    (same : ∀ rl, (flag rl).IsEntry rl ∧ (flag rl).rCnt = rl.rCnt) :
    RangeState.Invariant { state with tree := atOffset off flag state.tree } := by
  refine invariant.flags _ fun rl => ?_
  split
  · exact same rl
  · exact ⟨⟨rfl, rfl, rfl, rfl⟩, rfl⟩

theorem perm_avlAdd (lock : Rl) (tree : List Rl) : (avlAdd lock tree).Perm (lock :: tree) := by
  induction tree with
  | nil => exact .refl _
  | cons rl tree ih =>
    rw [avlAdd]
    split
    · exact .refl _
    · exact (ih.cons rl).trans (.swap _ _ _)

theorem ordered_avlAdd (ordered : Ordered Rl.rOff Rl.rEnd tree)
    (positive : ∀ rl ∈ tree, rl.rOff < rl.rEnd) (order : lock.rOff < lock.rEnd)
    (beside : ∀ rl ∈ tree, rl.rEnd ≤ lock.rOff ∨ lock.rEnd ≤ rl.rOff) :
    Ordered Rl.rOff Rl.rEnd (avlAdd lock tree) := by
  induction tree with
  | nil => exact pairwise_singleton _ _
  | cons rl tree ih =>
    obtain ⟨behind, rest_ordered⟩ := pairwise_cons.mp ordered
    have rl_beside := beside rl mem_cons_self
    have rl_positive := positive rl mem_cons_self
    rw [avlAdd]
    split
    · refine pairwise_cons.mpr ⟨forall_mem_cons.mpr ⟨by omega, ?_⟩, ordered⟩
      intro other member
      have := behind other member
      omega
    · refine pairwise_cons.mpr ⟨fun other member => ?_, ih rest_ordered
        (fun rl member => positive rl (.tail _ member))
        (fun rl member => beside rl (.tail _ member))⟩
      rcases mem_cons.mp ((perm_avlAdd lock tree).subset member) with rfl | member
      · omega
      · exact behind other member

theorem RangeState.Invariant.insert (invariant : state.Invariant)
    (proper : ProperRange lock.rOff lock.rLen) (single : lock.rCnt = 1)
    (converted : lock.rType ≠ .append) (owned : lock.owner ≠ none)
    (fresh : ∀ other ∈ state.held, other.owner ≠ lock.owner)
    (room : state.held.length + 1 < 2 ^ 32)
    (beside : ∀ rl ∈ state.tree, rl.rEnd ≤ lock.rOff ∨ lock.rEnd ≤ rl.rOff) :
    RangeState.Invariant ⟨avlAdd lock state.tree, lock :: state.held⟩ := by
  have perm := perm_avlAdd lock state.tree
  obtain ⟨order, bound⟩ := Rl.order proper
  constructor
  case entries =>
    refine ⟨ordered_avlAdd invariant.entries.ordered invariant.entries.positive order beside, ?_⟩
    intro rl member
    rcases mem_cons.mp (perm.subset member) with rfl | member
    · exact ⟨proper, by omega, converted, fun unowned => absurd unowned owned, fun _ => single⟩
    · exact invariant.entries.entry rl member
  case counts =>
    intro x
    rw [cntAt, weightAt_perm perm, weightAt, heldAt_cons, ← invariant.counts, single, Nat.add_comm]
    rfl
  case cut =>
    refine forall_mem_cons.mpr ⟨?_, fun other member => ?_⟩
    · constructor
      all_goals
        intro rl member
        rcases mem_cons.mp (perm.subset member) with rfl | member
        · omega
        · have := beside rl member
          omega
    · refine invariant.cut_of_refines member fun rl rl_member => ?_
      rcases mem_cons.mp (perm.subset rl_member) with rfl | rl_member
      · refine .inr fun x lower upper => weightAt_eq_zero fun entry entry_member => ?_
        have := beside entry entry_member
        omega
      · exact .inl ⟨rl, rl_member, le_rfl, le_rfl⟩
  case proper => exact forall_mem_cons.mpr ⟨proper, invariant.proper⟩
  case single => exact forall_mem_cons.mpr ⟨.inl single, invariant.single⟩
  case own =>
    intro rl member rl_owned
    rcases mem_cons.mp (perm.subset member) with rfl | member
    · exact ⟨rl, mem_cons_self, single, rfl, rfl, rfl, rfl⟩
    · obtain ⟨other, other_member, rest⟩ := invariant.own rl member rl_owned
      exact ⟨other, .tail _ other_member, rest⟩
  case entered =>
    refine forall_mem_cons.mpr ⟨fun _ => ⟨lock, perm.symm.subset mem_cons_self, rfl, rfl,
      rfl, rfl⟩, fun other member single => ?_⟩
    obtain ⟨rl, rl_member, same⟩ := invariant.entered other member single
    exact ⟨rl, perm.symm.subset (.tail _ rl_member), same⟩
  case owned => exact forall_mem_cons.mpr ⟨owned, invariant.owned⟩
  case distinct =>
    refine nodup_cons.mpr ⟨fun member => ?_, invariant.distinct⟩
    obtain ⟨other, member, same⟩ := mem_map.mp member
    exact fresh other member same
  case room => exact room

/-- A new reader that is counted in the entries that it overlaps. -/
theorem RangeState.Invariant.share (invariant : state.Invariant) {new : List Rl} {proxied : List ℕ}
    (added : Adds lock.rOff lock.rEnd 0 (2 ^ 64) state.tree new proxied)
    (proper : ProperRange lock.rOff lock.rLen) (shared : lock.rCnt = 0)
    (reader : lock.rType = .reader)
    (owned : lock.owner ≠ none) (fresh : ∀ other ∈ state.held, other.owner ≠ lock.owner)
    (room : state.held.length + 1 < 2 ^ 32) :
    RangeState.Invariant ⟨new, lock :: state.held.map fun rl =>
      if ∃ id ∈ proxied, rl.owner = some id then { rl with rCnt := 0 } else rl⟩ := by
  obtain ⟨order, bound⟩ := Rl.order proper
  set share : Rl → Rl := fun rl =>
    if ∃ id ∈ proxied, rl.owner = some id then { rl with rCnt := 0 } else rl with share_eq
  have share_same : ∀ rl, (share rl).IsEntry rl := by
    intro rl
    rw [share_eq]
    dsimp only
    split <;> exact ⟨rfl, rfl, rfl, rfl⟩
  have replaced {rl : Rl} (some_id : ∃ id ∈ proxied, rl.owner = some id) : (share rl).rCnt = 0 := by
    simp [share_eq, some_id]
  have kept {rl : Rl} (no_id : ¬∃ id ∈ proxied, rl.owner = some id) : share rl = rl := if_neg no_id
  -- an entry that is left is not one of those that have been replaced
  have left_in_tree : ∀ rl ∈ new, ∀ id ∈ proxied, rl.owner ≠ some id := by
    intro rl member id proxied_member rl_owned
    have nodup := added.owners.nodup_iff.mpr invariant.owners_nodup
    refine disjoint_of_nodup_append nodup proxied_member ?_
    exact mem_filterMap.mpr ⟨rl, member, rl_owned⟩
  constructor
  case entries => exact added.entries
  case counts =>
    intro x
    have held_eq : heldAt (state.held.map share) x = heldAt state.held x := by
      rw [heldAt, countP_map]
      refine countP_congr fun rl _ => ?_
      rw [Function.comp_apply, decide_eq_true_iff, decide_eq_true_iff, Rl.Covers, Rl.Covers,
        (share_same rl).rOff, (share_same rl).rEnd]
    rw [added.counts, heldAt_cons, held_eq, invariant.counts]
    congr 1
    refine if_congr ?_ rfl rfl
    rw [Rl.Covers]
    omega
  case cut =>
    refine forall_mem_cons.mpr ⟨added.cut, fun other member => ?_⟩
    obtain ⟨rl, rl_member, rfl⟩ := mem_map.mp member
    rw [(share_same rl).rOff, (share_same rl).rEnd]
    exact invariant.cut_of_refines rl_member added.refines
  case proper =>
    refine forall_mem_cons.mpr ⟨proper, fun other member => ?_⟩
    obtain ⟨rl, rl_member, rfl⟩ := mem_map.mp member
    rw [(share_same rl).rOff, (share_same rl).rLen]
    exact invariant.proper rl rl_member
  case single =>
    refine forall_mem_cons.mpr ⟨.inr ⟨shared, reader⟩, fun other member => ?_⟩
    obtain ⟨rl, rl_member, rfl⟩ := mem_map.mp member
    by_cases some_id : ∃ id ∈ proxied, rl.owner = some id
    · obtain ⟨id, id_member, rl_owned⟩ := some_id
      obtain ⟨entry, entry_member, entry_owned, entry_reader⟩ := added.readers id id_member
      obtain ⟨lock', lock_member, -, same⟩ :=
        invariant.own entry entry_member (by simp [entry_owned])
      obtain rfl : lock' = rl := by
        apply invariant.eq_of_owner lock_member rl_member
        rw [← same.owner, entry_owned, rl_owned]
      rw [(share_same _).rType, ← same.rType]
      exact .inr ⟨replaced ⟨id, id_member, rl_owned⟩, entry_reader⟩
    · rw [kept some_id]
      exact invariant.single rl rl_member
  case own =>
    intro rl member rl_owned
    obtain ⟨lock', lock_member, single, same⟩ := invariant.own rl (added.owned rl member rl_owned)
      rl_owned
    refine ⟨share lock', .tail _ (mem_map_of_mem lock_member), ?_, ?_⟩
    · rwa [kept]
      rintro ⟨id, id_member, lock_owned⟩
      exact left_in_tree rl member id id_member (same.owner.trans lock_owned)
    · exact same.trans (share_same lock').symm
  case entered =>
    refine forall_mem_cons.mpr ⟨fun single => by omega, fun other member single => ?_⟩
    obtain ⟨rl, rl_member, rfl⟩ := mem_map.mp member
    have no_id : ¬∃ id ∈ proxied, rl.owner = some id := fun some_id => by
      rw [replaced some_id] at single
      cases single
    have rl_single : rl.rCnt = 1 := by rwa [kept no_id] at single
    obtain ⟨entry, entry_member, same⟩ := invariant.entered rl rl_member rl_single
    obtain ⟨id, rl_owned⟩ := Option.ne_none_iff_exists'.mp (invariant.owned rl rl_member)
    rcases added.kept entry entry_member id (same.owner.trans rl_owned) with stays | proxy
    · exact ⟨entry, stays, same.trans (share_same rl).symm⟩
    · exact absurd ⟨id, proxy, rl_owned⟩ no_id
  case owned =>
    refine forall_mem_cons.mpr ⟨owned, fun other member => ?_⟩
    obtain ⟨rl, rl_member, rfl⟩ := mem_map.mp member
    rw [(share_same rl).owner]
    exact invariant.owned rl rl_member
  case distinct =>
    have same_owners : (state.held.map share).map Rl.owner = state.held.map Rl.owner := by
      rw [map_map]
      exact map_congr_left fun rl _ => (share_same rl).owner
    rw [map_cons, same_owners]
    refine nodup_cons.mpr ⟨fun member => ?_, invariant.distinct⟩
    obtain ⟨other, member, same⟩ := mem_map.mp member
    exact fresh other member same
  case room =>
    rw [length_cons, length_map]
    exact room

theorem perm_avlRemove (nodup : tree.Nodup) (member : rl ∈ tree) (owned : rl.owner = some owner)
    (unique : ∀ other ∈ tree, other.owner = some owner → other = rl) :
    tree.Perm (rl :: avlRemove owner tree) := by
  have erased : tree.erase rl = avlRemove owner tree := by
    rw [nodup.erase_eq_filter, avlRemove]
    refine filter_congr fun other other_member => ?_
    by_cases same : other = rl
    · simp [same, owned]
    · simp [same, mt (unique other other_member) same]
  rw [← erased]
  exact perm_cons_erase member

/-- A lock is released when the entries under it count one less. -/
theorem RangeState.Invariant.release (invariant : state.Invariant) {new : List Rl}
    (member : lock ∈ state.held) (owned : lock.owner = some owner) (entries : Entries new)
    (counts : ∀ x, cntAt state.tree x = cntAt new x + if lock.Covers x then 1 else 0)
    (ranges : ∀ rl ∈ new, ∃ old ∈ state.tree, old.rOff ≤ rl.rOff ∧ rl.rEnd ≤ old.rEnd)
    (stays : ∀ rl ∈ new, rl.owner ≠ none → rl ∈ state.tree ∧ rl.owner ≠ some owner)
    (kept : ∀ rl ∈ state.tree, rl.owner ≠ none → rl.owner ≠ some owner → rl ∈ new) :
    RangeState.Invariant ⟨new, avlRemove owner state.held⟩ := by
  have perm := perm_avlRemove (.of_map _ invariant.distinct) member owned
    fun other other_member same =>
      invariant.eq_of_owner other_member member (same.trans owned.symm)
  have still_held : ∀ other ∈ avlRemove owner state.held,
      other ∈ state.held ∧ other.owner ≠ some owner := by
    intro other other_member
    simpa [avlRemove] using other_member
  constructor
  case entries => exact entries
  case counts =>
    intro x
    have before := invariant.counts x
    rw [heldAt_perm perm, heldAt_cons, counts] at before
    exact Nat.add_right_cancel before
  case cut =>
    exact fun other other_member => invariant.cut_of_refines (still_held other other_member).1
      fun rl rl_member => .inl (ranges rl rl_member)
  case proper => exact fun other member => invariant.proper other (still_held other member).1
  case single => exact fun other member => invariant.single other (still_held other member).1
  case own =>
    intro rl rl_member rl_owned
    obtain ⟨rl_member, different⟩ := stays rl rl_member rl_owned
    obtain ⟨other, other_member, single, same⟩ := invariant.own rl rl_member rl_owned
    refine ⟨other, ?_, single, same⟩
    rw [same.owner] at different
    simpa [avlRemove] using ⟨other_member, different⟩
  case entered =>
    intro other other_member single
    obtain ⟨other_member, different⟩ := still_held other other_member
    obtain ⟨rl, rl_member, same⟩ := invariant.entered other other_member single
    refine ⟨rl, kept rl rl_member ?_ ?_, same⟩
    · rw [same.owner]
      exact invariant.owned other other_member
    · rwa [same.owner]
  case owned => exact fun other member => invariant.owned other (still_held other member).1
  case distinct => exact invariant.distinct.sublist (filter_sublist.map _)
  case room => exact lt_of_le_of_lt (length_filter_le _ _) invariant.room

/-- The proxies under a reader that is released. -/
def dropped (tiles : List Rl) : List Rl := (tiles.map drop).filter fun rl => rl.rCnt ≠ 0

theorem dropped_cons (rl : Rl) (tiles : List Rl) :
    dropped (rl :: tiles) = (if (drop rl).rCnt = 0 then [] else [drop rl]) ++ dropped tiles := by
  rw [dropped, map_cons, filter_cons]
  by_cases last : (drop rl).rCnt = 0
  · rw [if_pos last, if_neg (by simpa using last)]
    rfl
  · rw [if_neg last, if_pos (by simpa using last)]
    rfl

theorem unlockLoop_zero (rest : List Rl) : unlockLoop 0 rest = rest := by
  cases rest with
  | nil => rfl
  | cons rl rest => rw [unlockLoop, if_pos rfl]

/-- The loop of `zfs_range_unlock_reader` ends with the last proxy of the lock. -/
theorem unlockLoop_eq {tiles : List Rl} {start stop : ℕ}
    (tiled : Tiles Rl.rOff Rl.rEnd start tiles stop)
    (entry : ∀ rl ∈ tiles, rl.Entry) (bound : stop < 2 ^ 64) (rest : List Rl) :
    unlockLoop (stop - start) (tiles ++ rest) = dropped tiles ++ rest := by
  induction tiles generalizing start with
  | nil =>
    obtain rfl : start = stop := tiled
    rw [Nat.sub_self, nil_append, unlockLoop_zero]
    rfl
  | cons rl tiles ih =>
    obtain ⟨start_eq, tiled⟩ := tiled
    have later := (tiled.within fun rl member => (entry rl (.tail _ member)).bounds.1).1
    have rl_entry := entry rl mem_cons_self
    have positive := rl_entry.proper.1
    have ends := Rl.rEnd_eq rl_entry.proper
    have remaining : sub64 (stop - start) rl.rLen = stop - rl.rEnd := by
      rw [sub64_eq (by omega) (by omega)]
      omega
    rw [cons_append, unlockLoop, if_neg (by omega), remaining,
      ih tiled fun rl member => entry rl (.tail _ member), dropped_cons, append_assoc]

theorem mem_dropped {tiles : List Rl} (member : rl ∈ dropped tiles) :
    ∃ tile ∈ tiles, rl = drop tile ∧ rl.rCnt ≠ 0 := by
  obtain ⟨mapped, counted⟩ := mem_filter.mp member
  obtain ⟨tile, tile_member, rfl⟩ := mem_map.mp mapped
  refine ⟨tile, tile_member, rfl, ?_⟩
  rwa [decide_eq_true_iff] at counted

theorem drop_rOff (rl : Rl) : (drop rl).rOff = rl.rOff := rfl

theorem drop_rEnd (rl : Rl) : (drop rl).rEnd = rl.rEnd := rfl

theorem drop_rCnt (counted : 0 < rl.rCnt) : (drop rl).rCnt = rl.rCnt - 1 :=
  if_neg counted.ne'

theorem cntAt_dropped {tiles : List Rl} {start stop : ℕ}
    (tiled : Tiles Rl.rOff Rl.rEnd start tiles stop)
    (entry : ∀ rl ∈ tiles, rl.Entry) (x : ℕ) :
    cntAt tiles x = cntAt (dropped tiles) x + if start ≤ x ∧ x < stop then 1 else 0 := by
  induction tiles generalizing start with
  | nil =>
    obtain rfl : start = stop := tiled
    rw [if_neg (by omega)]
    rfl
  | cons rl tiles ih =>
    obtain ⟨start_eq, tiled⟩ := tiled
    have later := (tiled.within fun rl member => (entry rl (.tail _ member)).bounds.1).1
    have more := ih tiled fun rl member => entry rl (.tail _ member)
    have rl_entry := entry rl mem_cons_self
    have counted := rl_entry.counted
    have bounds := rl_entry.bounds
    have count := drop_rCnt counted
    have first : cntAt (dropped (rl :: tiles)) x =
        (if rl.rOff ≤ x ∧ x < rl.rEnd then rl.rCnt - 1 else 0) + cntAt (dropped tiles) x := by
      rw [dropped_cons, cntAt_append, ← count]
      by_cases last : (drop rl).rCnt = 0
      · rw [if_pos last, last, ite_self]
        rfl
      · rw [if_neg last, cntAt, weightAt, weightAt, Nat.add_zero, drop_rOff, drop_rEnd]
    rw [first, cntAt, weightAt]
    rw [cntAt] at more
    split_ifs at more ⊢ <;> omega

section

variable (invariant : state.Invariant) (member : lock ∈ state.held)

include invariant member

theorem RangeState.Invariant.remove (owned : lock.owner = some owner) (single : lock.rCnt = 1) :
    RangeState.Invariant ⟨avlRemove owner state.tree, avlRemove owner state.held⟩ := by
  obtain ⟨rl, rl_member, same⟩ := invariant.entered lock member single
  have rl_owned : rl.owner = some owner := same.owner.trans owned
  have perm := perm_avlRemove invariant.tree_nodup rl_member rl_owned
    fun other other_member other_owned =>
      invariant.eq_of_tree_owner other_member rl_member other_owned rl_owned
  have once : rl.rCnt = 1 := (invariant.entries.entry rl rl_member).once (by simp [rl_owned])
  have still : ∀ other ∈ avlRemove owner state.tree,
      other ∈ state.tree ∧ other.owner ≠ some owner := by
    intro other other_member
    simpa [avlRemove] using other_member
  apply invariant.release member owned
  · exact ⟨invariant.entries.ordered.filter _,
      fun other other_member => invariant.entries.entry other (still other other_member).1⟩
  · intro x
    rw [cntAt, weightAt_perm perm, weightAt, once, same.rOff, same.rEnd, Nat.add_comm]
    rfl
  · exact fun other other_member => ⟨other, (still other other_member).1, le_rfl, le_rfl⟩
  · exact fun other other_member _ => still other other_member
  · intro other other_member _ different
    simpa [avlRemove] using ⟨other_member, different⟩

/-- The entries under a lock tile its range. -/
theorem RangeState.Invariant.tiles :
    ∃ tiles after, (state.tree.filter fun rl => lock.rOff ≤ rl.rOff) = tiles ++ after ∧
      Tiles Rl.rOff Rl.rEnd lock.rOff tiles lock.rEnd := by
  obtain ⟨cut, cut'⟩ := invariant.cut lock member
  obtain ⟨order, _⟩ := Rl.order (invariant.proper lock member)
  exact exists_tiles invariant.entries.ordered invariant.entries.positive cut cut' order.le
    fun x lower upper => invariant.exists_entry member ⟨lower, upper⟩

/-- `zfs_range_unlock` of a reader that is counted in proxies. -/
theorem RangeState.Invariant.unlockReader
    (owned : lock.owner = some owner) (shared : lock.rCnt = 0) :
    RangeState.Invariant ⟨(state.tree.filter fun entry => entry.rOff < lock.rOff) ++
      unlockLoop lock.rLen (state.tree.filter fun entry => lock.rOff ≤ entry.rOff),
      avlRemove owner state.held⟩ := by
  obtain ⟨tiles, after, later_eq, tiled⟩ := invariant.tiles member
  have tree_eq := invariant.entries.ordered.filter_append_filter invariant.entries.positive
    lock.rOff
  rw [later_eq] at tree_eq ⊢
  generalize (state.tree.filter fun entry => entry.rOff < lock.rOff) = before at tree_eq ⊢
  have proper := invariant.proper lock member
  obtain ⟨order, bound⟩ := Rl.order proper
  have entry := invariant.entries.entry
  have positive := invariant.entries.positive
  have tile_member : ∀ rl ∈ tiles, rl ∈ state.tree := by
    intro rl rl_member
    rw [← tree_eq]
    exact mem_append_right _ (mem_append_left _ rl_member)
  have within := tiled.within fun rl rl_member => positive rl (tile_member rl rl_member)
  obtain ⟨before_entries, later_entries, apart⟩ := entries_append.mp (tree_eq ▸ invariant.entries)
  obtain ⟨tiles_entries, after_entries, behind⟩ := entries_append.mp later_entries
  -- the entries under the lock are proxies: a lock with its own entry would be alone
  have unowned : ∀ rl ∈ tiles, rl.owner = none := by
    intro rl rl_member
    by_contra rl_owned
    obtain ⟨other, other_member, single, same⟩ :=
      invariant.own rl (tile_member rl rl_member) rl_owned
    have rl_positive := positive rl (tile_member rl rl_member)
    have rl_within := within.2 rl rl_member
    have covers : other.Covers rl.rOff := by
      rw [Rl.Covers, ← same.rOff, ← same.rEnd]
      exact ⟨le_rfl, rl_positive⟩
    obtain rfl := invariant.alone other_member single member covers ⟨by omega, by omega⟩
    omega
  have length_eq : lock.rLen = lock.rEnd - lock.rOff := by
    rw [Rl.rEnd_eq proper]
    omega
  rw [length_eq, unlockLoop_eq tiled tiles_entries.entry bound]
  have dropped_entries : Entries (dropped tiles) := by
    have mapped_ordered : Ordered Rl.rOff Rl.rEnd (tiles.map drop) :=
      pairwise_map.mpr tiles_entries.ordered
    refine ⟨mapped_ordered.filter _, fun rl rl_member => ?_⟩
    obtain ⟨tile, tile_in, rfl, counted⟩ := mem_dropped rl_member
    have tile_entry := tiles_entries.entry tile tile_in
    exact ⟨tile_entry.proper, Nat.pos_of_ne_zero counted, tile_entry.converted,
      tile_entry.proxy, fun tile_owned => absurd (unowned tile tile_in) tile_owned⟩
  have outside : ∀ rl, rl ∈ before ∨ rl ∈ after → rl ∈ state.tree := by
    intro rl rl_member
    rw [← tree_eq, mem_append, mem_append]
    exact rl_member.imp_right .inr
  have new_cases : ∀ rl ∈ before ++ (dropped tiles ++ after),
      (rl ∈ before ∨ rl ∈ after) ∨ ∃ tile ∈ tiles, rl = drop tile ∧ rl.rCnt ≠ 0 := by
    intro rl rl_member
    rw [mem_append, mem_append] at rl_member
    rcases rl_member with rl_member | rl_member | rl_member
    · exact .inl (.inl rl_member)
    · exact .inr (mem_dropped rl_member)
    · exact .inl (.inr rl_member)
  apply invariant.release member owned
  · refine entries_append.mpr ⟨before_entries, entries_append.mpr ⟨dropped_entries, after_entries,
      ?_⟩, ?_⟩
    · intro first first_member second second_member
      obtain ⟨tile, tile_member, rfl, -⟩ := mem_dropped first_member
      exact behind tile tile_member second second_member
    · intro first first_member second second_member
      rcases mem_append.mp second_member with second_member | second_member
      · obtain ⟨tile, tile_member, rfl, -⟩ := mem_dropped second_member
        exact apart first first_member tile (mem_append_left _ tile_member)
      · exact apart first first_member second (mem_append_right _ second_member)
  · intro x
    rw [← tree_eq, cntAt_append, cntAt_append, cntAt_append, cntAt_append,
      cntAt_dropped tiled tiles_entries.entry]
    have covers_iff : lock.Covers x ↔ lock.rOff ≤ x ∧ x < lock.rEnd := Iff.rfl
    simp only [covers_iff]
    omega
  · intro rl rl_member
    rcases new_cases rl rl_member with rl_member | ⟨tile, member', rfl, -⟩
    · exact ⟨rl, outside rl rl_member, le_rfl, le_rfl⟩
    · exact ⟨tile, tile_member tile member', le_rfl, le_rfl⟩
  · intro rl rl_member rl_owned
    rcases new_cases rl rl_member with rl_member | ⟨tile, member', rfl, -⟩
    · refine ⟨outside rl rl_member, fun same => ?_⟩
      obtain ⟨other, other_member, single, other_same⟩ :=
        invariant.own rl (outside rl rl_member) rl_owned
      obtain rfl := invariant.eq_of_owner other_member member
        (other_same.owner.symm.trans (same.trans owned.symm))
      omega
    · exact absurd (unowned tile member') rl_owned
  · intro rl rl_member rl_owned _
    rw [← tree_eq, mem_append, mem_append] at rl_member
    rw [mem_append, mem_append]
    rcases rl_member with rl_member | rl_member | rl_member
    · exact .inl rl_member
    · exact absurd (unowned rl rl_member) rl_owned
    · exact .inr (.inr rl_member)

end

theorem eq_singleton (nodup : tree.Nodup) (member : rl ∈ tree)
    (only : ∀ other ∈ tree, other = rl) : tree = [rl] := by
  refine perm_singleton.mp ((perm_ext_iff_of_nodup nodup (nodup_singleton rl)).mpr fun other => ?_)
  rw [mem_singleton]
  exact ⟨only other, fun same => same ▸ member⟩

theorem RangeState.Invariant.start : RangeState.Invariant ⟨[], []⟩ where
  entries := ⟨.nil, nofun⟩
  counts _ := rfl
  cut := nofun
  proper := nofun
  single := nofun
  own := nofun
  entered := nofun
  owned := nofun
  distinct := .nil
  room := by decide

section

variable (invariant : state.Invariant)

include invariant

/-- A lock of the whole file is reduced when no other is held. -/
theorem RangeState.Invariant.reduce (member : lock ∈ state.held)
    (owned : lock.owner = some owner) (writer : lock.rType = .writer) (rOff_eq : lock.rOff = 0)
    (rLen_eq : lock.rLen = 2 ^ 64 - 1) (proper : ProperRange off len) :
    (zfsRangeReduce owner off len state).Invariant := by
  have single : lock.rCnt = 1 := by
    rcases invariant.single lock member with single | ⟨_, reader⟩
    · exact single
    · rw [writer] at reader
      cases reader
  have rEnd_eq : lock.rEnd = 2 ^ 64 - 1 := by
    rw [Rl.rEnd_eq (invariant.proper lock member), rOff_eq, rLen_eq, Nat.zero_add]
  have covers_all {rl : Rl} (rl_proper : ProperRange rl.rOff rl.rLen) : lock.Covers rl.rOff := by
    have := Rl.order rl_proper
    rw [Rl.Covers, rOff_eq, rEnd_eq]
    omega
  obtain ⟨rl, rl_member, same⟩ := invariant.entered lock member single
  have once : rl.rCnt = 1 := (invariant.entries.entry rl rl_member).once
    (by simp [same.owner, owned])
  have held_eq : state.held = [lock] :=
    eq_singleton (.of_map _ invariant.distinct) member fun other other_member =>
      invariant.alone member single other_member (covers_all (invariant.proper other other_member))
        ⟨le_rfl, (Rl.order (invariant.proper other other_member)).1⟩
  have tree_eq : state.tree = [rl] := by
    refine eq_singleton invariant.tree_nodup rl_member fun other other_member => ?_
    refine invariant.entries.ordered.eq_of_over other_member rl_member (x := other.rOff)
      ⟨le_rfl, invariant.entries.positive other other_member⟩ ?_
    rw [same.rOff, same.rEnd]
    exact covers_all (invariant.entries.entry other other_member).proper
  have inserted : RangeState.Invariant ⟨avlAdd { lock with rOff := off, rLen := len } [],
      [{ lock with rOff := off, rLen := len }]⟩ :=
    RangeState.Invariant.start.insert proper single (by simp [writer]) (by simp [owned]) nofun
      (by decide) nofun
  have flagged := inserted.flags
    (fun entry => { entry with rWriteWanted := rl.rWriteWanted, rReadWanted := rl.rReadWanted })
    fun _ => ⟨⟨rfl, rfl, rfl, rfl⟩, rfl⟩
  have reduced : zfsRangeReduce owner off len state =
      ⟨[{ rl with rOff := off, rLen := len }], [{ lock with rOff := off, rLen := len }]⟩ := by
    rw [zfsRangeReduce, tree_eq, held_eq]
    simp only [map_cons, map_nil, same.owner, owned, if_true]
  have rl_eq : ({ rl with rOff := off, rLen := len } : Rl) =
      { lock with
        rOff := off
        rLen := len
        rWriteWanted := rl.rWriteWanted
        rReadWanted := rl.rReadWanted } := by
    rw [Rl.mk.injEq]
    exact ⟨same.owner, rfl, rfl, once.trans single.symm, same.rType, rfl, rfl⟩
  rw [reduced, rl_eq]
  exact flagged

theorem RangeState.Invariant.lockWriter {zp : ZnodeSize}
    {rType : RlType} (fresh : ∀ rl ∈ state.held, rl.owner ≠ some owner)
    (proper : ProperRange (writerRange zp rType off len).1 (writerRange zp rType off len).2)
    (room : state.held.length + 1 < 2 ^ 32) :
    (lockWriter zp owner rType off len state).Invariant := by
  unfold Zfs.lockWriter
  generalize writerRange zp rType off len = range at proper
  dsimp only
  cases conflict : writerConflict state.tree range.1 range.2 with
  | some rl => exact invariant.atOffset rl.rOff _ fun _ => ⟨⟨rfl, rfl, rfl, rfl⟩, rfl⟩
  | none =>
    refine invariant.insert proper rfl nofun nofun fresh room fun rl member => ?_
    have lock_rEnd : Rl.rEnd ⟨some owner, range.1, range.2, 1, .writer, false, false⟩ =
        range.1 + range.2 := Rl.rEnd_eq proper
    rw [lock_rEnd]
    exact invariant.entries.writer_free conflict proper rl member

theorem RangeState.Invariant.lockReader
    (fresh : ∀ rl ∈ state.held, rl.owner ≠ some owner) (proper : ProperRange off len)
    (room : state.held.length + 1 < 2 ^ 32) : (lockReader owner off len state).Invariant := by
  unfold Zfs.lockReader
  cases conflict : readerConflict state.tree off len with
  | some rl => exact invariant.atOffset rl.rOff _ fun _ => ⟨⟨rfl, rfl, rfl, rfl⟩, rfl⟩
  | none =>
    dsimp only
    set new : Rl := ⟨some owner, off, len, 1, .reader, false, false⟩ with new_eq
    have new_proper : ProperRange new.rOff new.rLen := proper
    have new_rEnd : new.rEnd = off + len := Rl.rEnd_eq new_proper
    have readers : ∀ rl ∈ state.tree, new.rOff < rl.rEnd → rl.rOff < new.rEnd →
        rl.rType = .reader := by
      intro rl member ends starts
      rw [new_rEnd] at starts
      have free := invariant.entries.reader_free conflict proper rl member ends starts
      have converted := (invariant.entries.entry rl member).converted
      cases type_eq : rl.rType with
      | reader => rfl
      | writer => simp [readerBlocked, type_eq] at free
      | append => exact absurd type_eq converted
    have rooms : ∀ rl ∈ state.tree, rl.rCnt + 1 < 2 ^ 32 := fun rl member =>
      lt_of_le_of_lt (Nat.succ_le_succ (invariant.rCnt_le member)) room
    rcases invariant.entries.addReader new_proper readers rooms with
      ⟨added, beside⟩ | ⟨shared, added⟩
    · rw [added]
      have kept : (state.held.map fun rl =>
          if ∃ id ∈ ([] : List ℕ), rl.owner = some id then { rl with rCnt := 0 } else rl) =
          state.held := by
        simp
      rw [kept]
      exact invariant.insert proper rfl nofun nofun fresh room beside
    · rw [shared]
      exact invariant.share added proper rfl rfl nofun fresh room

theorem RangeState.Invariant.unlock (member : lock ∈ state.held)
    (owned : lock.owner = some owner) : (zfsRangeUnlock lock owner state).Invariant := by
  unfold zfsRangeUnlock
  split
  · rename_i own_entry
    refine invariant.remove member owned ?_
    rcases invariant.single lock member with single | ⟨_, reader⟩
    · exact single
    · rcases own_entry with writer | single
      · rw [reader] at writer
        cases writer
      · exact single
  · rename_i shared
    refine invariant.unlockReader member owned ?_
    rcases invariant.single lock member with single | ⟨shared, _⟩
    · exact absurd (.inr single) shared
    · exact shared

end

/-- Fewer locks are held than `r_cnt` can count. -/
def FewLocks (locks : ℕ) : Prop := locks + 1 < 2 ^ 32

theorem RangeState.Invariant.step (invariant : state.Invariant) {label : RangeLabel}
    (enabled : state.Enabled ProperRange FewLocks label) : (state.apply label).Invariant := by
  cases label with
  | lockReader owner off len =>
    obtain ⟨fresh, proper, room⟩ := enabled
    exact invariant.lockReader fresh proper room
  | lockWriter zp owner rType off len =>
    obtain ⟨fresh, _, proper, room⟩ := enabled
    exact invariant.lockWriter fresh proper room
  | unlock owner =>
    unfold RangeState.apply
    dsimp only
    cases found : state.held.find? fun rl => rl.owner = some owner with
    | none => exact invariant
    | some lock =>
      exact invariant.unlock (mem_of_find?_eq_some found) (by simpa using find?_some found)
  | reduce owner off len =>
    obtain ⟨⟨lock, member, owned, writer, rOff_eq, rLen_eq⟩, proper⟩ := enabled
    exact invariant.reduce member owned writer rOff_eq rLen_eq proper

/-- What holds between two calls holds in every reachable state. -/
theorem rangeLock_invariant (reachable : (rangeLockSystem ProperRange FewLocks).Reachable state) :
    state.Invariant := by
  refine reachable.invariant (fun state start => ?_) fun state label next invariant taken => ?_
  · obtain rfl : state = ⟨[], []⟩ := start
    exact .start
  · obtain ⟨enabled, rfl⟩ := taken
    exact invariant.step enabled

/-- Two locks have an offset in common. -/
def Rl.Overlaps (first second : Rl) : Prop := ∃ x, first.Covers x ∧ second.Covers x

/-- The count of the entry over an offset, and 0 if there is none. -/
def rCntAt (tree : List Rl) (x : ℕ) : ℕ :=
  match tree.find? fun rl => rl.Covers x with
  | some rl => rl.rCnt
  | none => 0

theorem Entries.rCntAt_eq (entries : Entries tree) (x : ℕ) : rCntAt tree x = cntAt tree x := by
  unfold rCntAt
  cases found : tree.find? fun rl => rl.Covers x with
  | none =>
    symm
    refine weightAt_eq_zero fun rl member => ?_
    have : ¬rl.Covers x := by simpa using find?_eq_none.mp found rl member
    rw [Rl.Covers] at this
    omega
  | some rl =>
    have covers : rl.Covers x := by simpa using find?_some found
    have member := mem_of_find?_eq_some found
    change rl.rCnt = cntAt tree x
    exact (entries.ordered.weightAt_eq member covers.1 covers.2).symm

/-- Locks that overlap are readers; the entries of the tree are disjoint, count the locks over them
and tile the ranges of readers. -/
theorem zfs_range_locks (state : RangeState)
    (reachable : (rangeLockSystem ProperRange FewLocks).Reachable state) :
    (state.held.Pairwise fun first second => first.Overlaps second →
        first.rType = .reader ∧ second.rType = .reader) ∧
      (state.tree.Pairwise fun first second => ¬first.Overlaps second) ∧
      (∀ x, rCntAt state.tree x = heldAt state.held x) ∧
      (∀ lock ∈ state.held, lock.rType = .reader → ∃ before tiles after,
        state.tree = before ++ tiles ++ after ∧
        Tiles Rl.rOff Rl.rEnd lock.rOff tiles lock.rEnd) ∧
      (state.held = [] → state.tree = []) := by
  have invariant := rangeLock_invariant reachable
  have reader_of_overlap {first second : Rl} (member : first ∈ state.held)
      (member' : second ∈ state.held) (different : second ≠ first)
      (overlap : first.Overlaps second) : first.rType = .reader := by
    obtain ⟨x, covers, covers'⟩ := overlap
    rcases invariant.single first member with single | ⟨_, reader⟩
    · exact absurd (invariant.alone member single member' covers covers') different
    · exact reader
  refine ⟨?_, ?_, fun x => ?_, fun lock member _ => ?_, fun none_held => ?_⟩
  · have nodup : state.held.Nodup := .of_map _ invariant.distinct
    refine Pairwise.imp_of_mem (fun {first second} member member' different overlap => ?_) nodup
    refine ⟨reader_of_overlap member member' different.symm overlap,
      reader_of_overlap member' member different ?_⟩
    obtain ⟨x, covers, covers'⟩ := overlap
    exact ⟨x, covers', covers⟩
  · refine invariant.entries.ordered.imp fun {first second} apart overlap => ?_
    obtain ⟨x, covers, covers'⟩ := overlap
    simp only [Rl.Covers] at covers covers'
    omega
  · rw [invariant.entries.rCntAt_eq, invariant.counts]
  · obtain ⟨tiles, after, later_eq, tiled⟩ := invariant.tiles member
    refine ⟨state.tree.filter fun rl => rl.rOff < lock.rOff, tiles, after, ?_, tiled⟩
    rw [append_assoc, ← later_eq]
    exact (invariant.entries.ordered.filter_append_filter invariant.entries.positive _).symm
  · cases tree_eq : state.tree with
    | nil => rfl
    | cons rl tree =>
      have member : rl ∈ state.tree := by simp [tree_eq]
      have counted := (invariant.entries.entry rl member).counted
      rw [invariant.rCnt_eq member ⟨le_rfl, invariant.entries.positive rl member⟩, none_held]
        at counted
      cases counted

/-- A reader of ten bytes, and one that starts in the middle of them. -/
def sharedReaders : RangeState :=
  ((⟨[], []⟩ : RangeState).apply (.lockReader 1 0 10)).apply (.lockReader 2 5 10)

theorem sharedReaders_reachable :
    (rangeLockSystem ProperRange FewLocks).Reachable sharedReaders := by
  have first : (rangeLockSystem ProperRange FewLocks).Reachable
      ((⟨[], []⟩ : RangeState).apply (.lockReader 1 0 10)) :=
    (Reachable.start rfl).take (.lockReader 1 0 10)
      ⟨⟨nofun, ⟨by decide, by decide⟩, by unfold FewLocks; decide⟩, rfl⟩
  exact first.take (.lockReader 2 5 10)
    ⟨⟨by decide, ⟨by decide, by decide⟩, by unfold FewLocks; decide⟩, rfl⟩

theorem zfs_range_locks_sharedReaders :
    rCntAt sharedReaders.tree 7 = 2 ∧
    rCntAt sharedReaders.tree 7 = heldAt sharedReaders.held 7 :=
  ⟨by decide, (zfs_range_locks sharedReaders sharedReaders_reachable).2.2.1 7⟩

/-- A writer is counted in its entry; a range that ends behind the last offset keeps no other writer
out. -/
theorem zfs_range_locks_writers :
    (∃ state, (rangeLockSystem ProperRange FewLocks).Reachable state ∧ rCntAt state.tree 0 = 1 ∧
      state.held.countP (fun lock => lock.rType = .reader ∧ lock.Covers 0) = 0) ∧
    ∃ state, (rangeLockSystem (fun _ _ => True) FewLocks).Reachable state ∧
    ∃ first second, state.held = [second, first] ∧ first.rType = .writer ∧
    second.rType = .writer ∧ (first.rOff ≤ 20 ∧ 20 < first.rOff + first.rLen) ∧
    second.rOff ≤ 20 ∧ 20 < second.rOff + second.rLen := by
  constructor
  · refine ⟨_, (Reachable.start rfl).take (.lockWriter ⟨false, 0, 0, 0⟩ 1 .writer 0 1)
      ⟨⟨nofun, by decide, ⟨by decide, by decide⟩, by unfold FewLocks; decide⟩, rfl⟩, ?_, ?_⟩
    · decide
    · decide
  · have first : (rangeLockSystem (fun _ _ => True) FewLocks).Reachable _ :=
      (Reachable.start rfl).take (.lockWriter ⟨false, 0, 0, 0⟩ 1 .writer 10 (2 ^ 64 - 1))
        ⟨⟨nofun, by decide, trivial, by unfold FewLocks; decide⟩, rfl⟩
    refine ⟨_, first.take (.lockWriter ⟨false, 0, 0, 0⟩ 2 .writer 20 5)
      ⟨⟨by decide, by decide, trivial, by unfold FewLocks; decide⟩, rfl⟩,
      ⟨some 1, 10, 2 ^ 64 - 1, 1, .writer, false, false⟩,
      ⟨some 2, 20, 5, 1, .writer, false, false⟩, ?_⟩
    decide

end Zfs
