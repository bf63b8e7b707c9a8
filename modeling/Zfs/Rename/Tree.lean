import Zfs.Rename.Locks

/-!
# The tree of directories under renames

When `zfs_rename_lock` returns zero, the source is not above the target directory, and it stays so
until the source is linked to its new place, because the way up is under locks.  The directories are
a tree at every moment.
-/

namespace Zfs.Rename

open ParentTree Function

variable {Tid Name : Type} {state : State Tid Name} {tid : Tid} {dzp zp : ℕ} {name : Name}

namespace State

section

variable [LinearOrder Name] (good : state.Good)

include good

theorem Good.mem_dirlocks (at_ : (state.thread tid).pc = .linkDestroy) :
    ((state.thread tid).sdzp, (state.thread tid).snm) ∈ (state.thread tid).dirlocks := by
  have holds := good.threads tid
  simp only [Thread.Holds, at_] at holds
  exact holds.2.1.1

section

variable (locked : (dzp, name) ∈ (state.thread tid).dirlocks)
  (busy : (state.thread tid).pc ≠ .linkDestroy)

include locked busy

theorem Good.not_stale : ¬ state.Stale dzp name := by
  rintro ⟨other, at_, rfl, rfl⟩
  obtain rfl := good.exclusive.dirlock _ _ _ locked (good.mem_dirlocks at_)
  exact busy at_

theorem Good.parent_of_locked (at_ : state.entry dzp name = some zp) : state.up zp = some dzp := by
  have parent := good.entered.parent dzp name zp at_ (good.not_stale locked busy)
  rw [up, if_neg (good.entered.linked dzp name zp at_).2.2, parent]

/-- An object whose entry is locked has no other entry. -/
theorem Good.eq_of_locked {other : ℕ} {label : Name} (at_ : state.entry dzp name = some zp)
    (also : state.entry other label = some zp) : other = dzp ∧ label = name := by
  have fresh := good.not_stale locked busy
  by_cases stale : state.Stale other label
  · -- A thread that has just moved the object also holds its new entry.
    obtain ⟨mover, at_mover, rfl, rfl⟩ := stale
    have holds := good.threads mover
    simp only [Thread.Holds, at_mover] at holds
    obtain ⟨apart, sourced, targeted⟩ := holds
    obtain rfl : (state.thread mover).szp = zp := Option.some.inj (sourced.2.symm.trans also)
    have new_fresh : ¬ state.Stale (state.thread mover).tdzp (state.thread mover).tnm := by
      rintro ⟨again, at_again, same_dir, same_name⟩
      have held := good.mem_dirlocks at_again
      rw [same_dir, same_name] at held
      obtain rfl := good.exclusive.dirlock _ _ _ targeted.1 held
      exact apart ⟨same_dir, same_name⟩
    have new_parent := good.entered.parent _ _ _ targeted.2 new_fresh
    have parent := good.entered.parent _ _ _ at_ fresh
    obtain rfl : (state.thread mover).tdzp = dzp := new_parent.symm.trans parent
    obtain rfl := good.entered.unique _ _ _ _ targeted.2 at_ new_fresh fresh
    obtain rfl := good.exclusive.dirlock _ _ _ locked targeted.1
    exact absurd at_mover busy
  · obtain rfl : dzp = other := (good.entered.parent _ _ _ at_ fresh).symm.trans
      (good.entered.parent _ _ _ also stale)
    exact ⟨rfl, good.entered.unique _ _ _ _ also at_ stale fresh⟩

end

/-- The source is not on the way up from the target directory. -/
theorem Good.not_mem_path (busy : (state.thread tid).pc ≠ .linkDestroy)
    (sourced : (state.thread tid).Sourced state) (safe : (state.thread tid).Safe state)
    {path : List ℕ} (found : Path state.up (state.thread tid).tdzp path) :
    (state.thread tid).szp ∉ path := by
  obtain ⟨passed, top, walk, other, reached⟩ := safe
  have parent := good.parent_of_locked sourced.1 busy sourced.2
  obtain ⟨dir_linked, -, -⟩ := good.entered.linked _ _ _ sourced.2
  rcases reached with rfl | rfl
  · have top_path : Path state.up state.zRoot [state.zRoot] := .root (by rw [up, if_pos rfl])
    exact walk.part.not_mem found top_path walk.outside (by simpa using other.symm)
  · obtain ⟨above, goes, -⟩ := good.rooted.path _ dir_linked
    have own : Path state.up (state.thread tid).szp ((state.thread tid).szp :: above) :=
      .step parent goes
    exact walk.part.not_mem found goes walk.outside (List.nodup_cons.mp own.nodup).1

end

variable {next : State Tid Name} {thread : Thread Name}

/-- A thread changes an entry and parents that it has locked. -/
structure Changes (state : State Tid Name) (tid : Tid) (thread : Thread Name)
    (next : State Tid Name) : Prop where
  zRoot : next.zRoot = state.zRoot
  self : next.thread tid = thread
  other : ∀ other ≠ tid, next.thread other = state.thread other
  entry : ∀ dzp name, next.entry dzp name ≠ state.entry dzp name →
    (dzp, name) ∈ (state.thread tid).dirlocks
  parent : ∀ zp, next.zpParent zp ≠ state.zpParent zp → (zp, Krw.writer) ∈ (state.thread tid).zl
  zl : thread.zl = (state.thread tid).zl
  dirlocks : thread.dirlocks = (state.thread tid).dirlocks

section

variable (changes : state.Changes tid thread next)

include changes

theorem Changes.locks (other : Tid) :
    (next.thread other).zl = (state.thread other).zl ∧
    (next.thread other).dirlocks = (state.thread other).dirlocks := by
  rcases eq_or_ne other tid with rfl | apart
  · rw [changes.self]
    exact ⟨changes.zl, changes.dirlocks⟩
  · rw [changes.other other apart]
    exact ⟨rfl, rfl⟩

/-- What holds between steps stays, as far as the locks go. -/
theorem Changes.good [LinearOrder Name] (good : state.Good) (rooted : next.Rooted)
    (entered : next.Entered)
    (locked : ∀ other, ∀ lock ∈ (state.thread other).dirlocks, next.linked lock.1 = true)
    (holds : thread.Holds next) : next.Good where
  rooted := rooted
  entered := entered
  exclusive.dirlock := by
    intro first second lock in_first in_second
    rw [(changes.locks _).2] at in_first in_second
    exact good.exclusive.dirlock first second lock in_first in_second
  exclusive.zl := by
    intro first second zp rw_ in_first in_second
    rw [(changes.locks _).1] at in_first in_second
    exact good.exclusive.zl first second zp rw_ in_first in_second
  locked other lock mem := locked other lock ((changes.locks other).2 ▸ mem)
  threads := by
    intro other
    rcases eq_or_ne other tid with rfl | apart
    · rwa [changes.self]
    · rw [changes.other other apart]
      refine (good.threads other).frame (fun dzp name locked => ?_) (fun zp locked => ?_)
        changes.zRoot
      · by_contra changed
        exact apart (good.exclusive.dirlock _ _ _ locked (changes.entry dzp name changed))
      · by_contra changed
        exact apart (good.exclusive.zl _ _ _ _ (changes.parent zp changed) locked).symm

end

theorem changes_setEntry [DecidableEq Tid] [LinearOrder Name] {linked : ℕ → Bool}
    {zpParent : ℕ → ℕ} {object : Option ℕ} {pc : Pc}
    (locked : (dzp, name) ∈ (state.thread tid).dirlocks)
    (parent : ∀ zp, zpParent zp ≠ state.zpParent zp → (zp, Krw.writer) ∈ (state.thread tid).zl) :
    state.Changes tid ((state.thread tid).goto pc)
      ((setEntry { state with linked, zpParent } dzp name object).become tid
        ((state.thread tid).goto pc)) where
  zRoot := rfl
  self := thread_become_self
  other := fun other apart => thread_become_of_ne apart
  entry := by
    intro other label changed
    by_cases same : other = dzp ∧ label = name
    · rwa [same.1, same.2]
    · exact absurd (if_neg same) changed
  parent := parent
  zl := rfl
  dirlocks := rfl

/-- The entries without one that no object needs for its link. -/
theorem Entered.remove [LinearOrder Name] (entered : state.Entered)
    (zRoot : next.zRoot = state.zRoot) (parents : next.zpParent = state.zpParent)
    (entry : ∀ other label, next.entry other label =
      if other = dzp ∧ label = name then none else state.entry other label)
    (stale : ∀ other label, ¬(other = dzp ∧ label = name) →
      (next.Stale other label ↔ state.Stale other label))
    (was : ∀ zp, next.linked zp = true → state.linked zp = true ∧
      (state.entry dzp name = some zp → state.Stale dzp name))
    (kept : ∀ other label zp, ¬(other = dzp ∧ label = name) → state.entry other label = some zp →
      next.linked other = true ∧ next.linked zp = true) : next.Entered := by
  have left {other : ℕ} {label : Name} {zp : ℕ} (at_ : next.entry other label = some zp) :
      ¬(other = dzp ∧ label = name) ∧ state.entry other label = some zp := by
    rw [entry] at at_
    split at at_
    · cases at_
    · rename_i apart
      exact ⟨apart, at_⟩
  have fresh_of {other : ℕ} {label : Name} {zp : ℕ} (at_ : next.entry other label = some zp)
      (fresh : ¬ next.Stale other label) : ¬ state.Stale other label :=
    fun gone => fresh ((stale _ _ (left at_).1).mpr gone)
  refine ⟨?_, ?_, ?_, ?_⟩
  · intro other label zp at_
    obtain ⟨apart, at_⟩ := left at_
    obtain ⟨dir_linked, linked⟩ := kept other label zp apart at_
    exact ⟨dir_linked, linked, zRoot ▸ (entered.linked other label zp at_).2.2⟩
  · intro other label zp at_ fresh
    rw [parents]
    exact entered.parent other label zp (left at_).2 (fresh_of at_ fresh)
  · intro zp linked below
    obtain ⟨linked, own⟩ := was zp linked
    rw [zRoot] at below
    obtain ⟨label, at_, fresh⟩ := entered.named zp linked below
    have apart : ¬(state.zpParent zp = dzp ∧ label = name) := by
      rintro ⟨same_dir, rfl⟩
      rw [same_dir] at at_ fresh
      exact fresh (own at_)
    rw [parents]
    exact ⟨label, by rw [entry, if_neg apart, at_], fun gone => fresh ((stale _ _ apart).mp gone)⟩
  · intro other first second zp at_first at_second fresh fresh'
    exact entered.unique other first second zp (left at_first).2 (left at_second).2
      (fresh_of at_first fresh) (fresh_of at_second fresh')

theorem up_setParent (below : zp ≠ state.zRoot) :
    (state.setParent zp dzp).up = update state.up zp (some dzp) := by
  funext other
  rcases eq_or_ne other zp with rfl | apart
  · simp [up, State.setParent, below]
  · simp [up, State.setParent, apart]

/-- A directory moves below one that it is not above. -/
theorem Rooted.setParent (rooted : state.Rooted) (below : zp ≠ state.zRoot)
    (linked : state.linked dzp = true) (legal : ∀ path, Path state.up dzp path → zp ∉ path) :
    (state.setParent zp dzp).Rooted where
  root := rooted.root
  path := by
    intro low low_linked
    obtain ⟨path, found, all_linked⟩ := rooted.path low low_linked
    obtain ⟨above, goal, above_linked⟩ := rooted.path dzp linked
    obtain ⟨path', goes, inside⟩ := found.exists_update goal (legal above goal)
    exact ⟨path', up_setParent below ▸ goes, fun up met => (inside up met).elim (all_linked up)
      (above_linked up)⟩

section

variable [LinearOrder Name] (good : state.Good)

include good

/-- The root and the paths without a directory that has no entries. -/
theorem Good.rooted_unlink (below : zp ≠ state.zRoot) (empty : state.Dirempty zp) :
    (state.unlink zp).Rooted where
  root := (update_of_ne below.symm _ _).trans good.rooted.root
  path := by
    intro low low_linked
    have low_apart : low ≠ zp := by
      rintro rfl
      exact Bool.false_ne_true ((update_self _ _ _).symm.trans low_linked)
    have was_linked : state.linked low = true :=
      (update_of_ne low_apart _ _).symm.trans low_linked
    obtain ⟨path, found, linked⟩ := good.rooted.path low was_linked
    refine ⟨path, found, fun above member => ?_⟩
    have apart : above ≠ zp := by
      rintro rfl
      -- A directory below it would have an entry in it.
      obtain ⟨child, inside, rises⟩ := found.exists_below member low_apart.symm
      rw [up] at rises
      split at rises
      · cases rises
      · rename_i child_below
        obtain ⟨label, at_child, -⟩ := good.entered.named child (linked child inside) child_below
        rw [Option.some.inj rises, empty.1] at at_child
        cases at_child
    exact (update_of_ne apart _ _).trans (linked above member)

/-- A locked entry goes with its link, and nothing else. -/
theorem Good.unlink [DecidableEq Tid] (locked : (dzp, name) ∈ (state.thread tid).dirlocks)
    (busy : (state.thread tid).pc ≠ .linkDestroy) (at_ : state.entry dzp name = some zp)
    (empty : state.Dirempty zp) {pc : Pc} (after : pc ≠ .linkDestroy)
    (holds : ((state.thread tid).goto pc).Holds ((state.unlink zp).setEntry dzp name none)) :
    (((state.unlink zp).setEntry dzp name none).become tid
      ((state.thread tid).goto pc)).Good := by
  obtain ⟨-, -, below⟩ := good.entered.linked dzp name zp at_
  have kept (other : ℕ) (apart : other ≠ zp) (linked : state.linked other = true) :
      (state.unlink zp).linked other = true := (update_of_ne apart _ _).trans linked
  have rooted := good.rooted_unlink below empty
  refine (changes_setEntry locked fun zp changed => absurd rfl changed).good good
    ⟨rooted.root, rooted.path⟩ (good.entered.remove rfl rfl (fun _ _ => rfl)
      (fun other label _ => stale_become (absurd · busy) after) ?_ ?_) ?_
    (holds.frame (fun _ _ _ => rfl) (fun _ _ => rfl) rfl)
  · intro other linked
    have apart : other ≠ zp := by
      rintro rfl
      exact Bool.false_ne_true ((update_self _ _ _).symm.trans linked)
    exact ⟨(update_of_ne apart _ _).symm.trans linked,
      fun own => absurd (Option.some.inj (own.symm.trans at_)) apart⟩
  · intro other label object apart at_before
    obtain ⟨dir_linked, linked, -⟩ := good.entered.linked other label object at_before
    refine ⟨kept other ?_ dir_linked, kept object ?_ linked⟩
    · rintro rfl
      rw [empty.1] at at_before
      cases at_before
    · rintro rfl
      exact apart (good.eq_of_locked locked busy at_ at_before)
  · intro other lock mem
    refine kept lock.1 ?_ (good.locked other lock mem)
    rintro rfl
    exact empty.2 other lock.2 mem

/-- The source is linked to its new place, and its old entry is there. -/
theorem Good.entered_linkCreate (busy : (state.thread tid).pc ≠ .linkDestroy)
    (apart : (state.thread tid).Apart) (sourced : (state.thread tid).Sourced state)
    (targeted : (state.thread tid).Targeted state none) (zRoot : next.zRoot = state.zRoot)
    (linked : next.linked = state.linked) (entry : ∀ dzp name, next.entry dzp name =
      if dzp = (state.thread tid).tdzp ∧ name = (state.thread tid).tnm then
        some (state.thread tid).szp
      else state.entry dzp name) (parent : ∀ zp, next.zpParent zp =
      if zp = (state.thread tid).szp then (state.thread tid).tdzp else state.zpParent zp)
    (stale : ∀ dzp name, next.Stale dzp name ↔ state.Stale dzp name ∨
      dzp = (state.thread tid).sdzp ∧ name = (state.thread tid).snm) : next.Entered := by
  obtain ⟨-, szp_linked, below⟩ := good.entered.linked _ _ _ sourced.2
  have tdzp_linked : state.linked (state.thread tid).tdzp = true := good.locked tid _ targeted.1
  -- Another entry of the source is its old one, which is stale now.
  have other_entry {dzp : ℕ} {name : Name}
      (at_ : state.entry dzp name = some (state.thread tid).szp) :
      next.Stale dzp name :=
    (stale dzp name).mpr (.inr (good.eq_of_locked sourced.1 busy sourced.2 at_))
  have fresh_of {dzp : ℕ} {name : Name} (fresh : ¬ next.Stale dzp name) : ¬ state.Stale dzp name :=
    fun gone => fresh ((stale dzp name).mpr (.inl gone))
  refine ⟨?_, ?_, ?_, ?_⟩
  · intro dzp name zp at_
    rw [entry] at at_
    rw [linked, zRoot]
    split at at_
    · rename_i same
      cases at_
      exact ⟨same.1 ▸ tdzp_linked, szp_linked, below⟩
    · exact good.entered.linked dzp name zp at_
  · intro dzp name zp at_ fresh
    rw [entry] at at_
    rw [parent]
    split at at_
    · rename_i same
      cases at_
      rw [if_pos rfl, same.1]
    · split
      · rename_i is_source
        exact absurd (other_entry (is_source ▸ at_)) fresh
      · exact good.entered.parent dzp name zp at_ (fresh_of fresh)
  · intro zp is_linked zp_below
    rw [linked] at is_linked
    rw [zRoot] at zp_below
    rw [parent]
    split
    · rename_i is_source
      refine ⟨(state.thread tid).tnm, by rw [entry, if_pos ⟨rfl, rfl⟩, is_source], fun gone => ?_⟩
      rcases (stale _ _).mp gone with gone | same
      · exact good.not_stale targeted.1 busy gone
      · exact apart ⟨same.1.symm, same.2.symm⟩
    · rename_i not_source
      obtain ⟨name, at_, fresh⟩ := good.entered.named zp is_linked zp_below
      refine ⟨name, ?_, fun gone => ?_⟩
      · rw [entry, if_neg, at_]
        rintro ⟨same_dir, rfl⟩
        rw [same_dir, targeted.2] at at_
        cases at_
      · rcases (stale _ _).mp gone with gone | ⟨same_dir, rfl⟩
        · exact fresh gone
        · rw [same_dir, sourced.2] at at_
          exact not_source (Option.some.inj at_).symm
  · intro dzp first second zp at_first at_second fresh fresh'
    rw [entry] at at_first at_second
    split at at_first
    · rename_i same
      cases at_first
      split at at_second
      · rename_i same'
        exact same.2.trans same'.2.symm
      · exact absurd (other_entry at_second) fresh'
    · split at at_second
      · cases at_second
        exact absurd (other_entry at_first) fresh
      · exact good.entered.unique dzp first second zp at_first at_second (fresh_of fresh)
          (fresh_of fresh')

variable [DecidableEq Tid]

theorem Good.linkCreate (at_ : (state.thread tid).pc = .linkCreate) :
    (((state.setParent (state.thread tid).szp (state.thread tid).tdzp).setEntry
      (state.thread tid).tdzp (state.thread tid).tnm (some (state.thread tid).szp)).become tid
        ((state.thread tid).goto .linkDestroy)).Good := by
  have busy : (state.thread tid).pc ≠ .linkDestroy := by rw [at_]; decide
  have holds := good.threads tid
  simp only [Thread.Holds, at_] at holds
  obtain ⟨apart, sourced, targeted, safe⟩ := holds
  obtain ⟨-, -, below⟩ := good.entered.linked _ _ _ sourced.2
  have rooted := good.rooted.setParent below (good.locked tid _ targeted.1) fun path found =>
    good.not_mem_path busy sourced safe found
  obtain ⟨passed, top, walk, -, -⟩ := safe
  have parents (zp : ℕ) :
      (state.setParent (state.thread tid).szp (state.thread tid).tdzp).zpParent zp =
        if zp = (state.thread tid).szp then (state.thread tid).tdzp else state.zpParent zp :=
    update_apply _ _ _ _
  refine (changes_setEntry targeted.1 fun zp changed => ?_).good good ⟨rooted.root, rooted.path⟩
    (good.entered_linkCreate busy apart sourced targeted rfl rfl (fun _ _ => rfl) parents
      fun dzp name => ?_) good.locked ?_
  · by_cases same : zp = (state.thread tid).szp
    · rw [same, walk.zl]
      exact List.mem_append_right _ List.mem_cons_self
    · exact absurd ((parents zp).trans (if_neg same)) changed
  · constructor
    · rintro ⟨other, moving, rfl, rfl⟩
      rcases eq_or_ne other tid with rfl | other_apart
      · rw [thread_become_self]
        exact .inr ⟨rfl, rfl⟩
      · rw [thread_become_of_ne other_apart] at moving ⊢
        exact .inl ⟨other, moving, rfl, rfl⟩
    · rintro (⟨other, moving, rfl, rfl⟩ | ⟨rfl, rfl⟩)
      · have other_apart : other ≠ tid := by
          rintro rfl
          exact busy moving
        refine ⟨other, ?_⟩
        rw [thread_become_of_ne other_apart]
        exact ⟨moving, rfl, rfl⟩
      · refine ⟨tid, ?_⟩
        rw [thread_become_self]
        exact ⟨rfl, rfl, rfl⟩
  · refine ⟨apart, ⟨sourced.1, (if_neg fun same => apart same).trans sourced.2⟩, targeted.1,
      if_pos ⟨rfl, rfl⟩⟩

theorem Good.linkDestroy (at_ : (state.thread tid).pc = .linkDestroy) :
    ((state.setEntry (state.thread tid).sdzp (state.thread tid).snm none).become tid
      ((state.thread tid).goto .out)).Good := by
  have holds := good.threads tid
  simp only [Thread.Holds, at_] at holds
  obtain ⟨apart, sourced, targeted⟩ := holds
  refine (changes_setEntry sourced.1 fun zp changed => absurd rfl changed).good good
    ⟨good.rooted.root, good.rooted.path⟩ (good.entered.remove rfl rfl (fun _ _ => rfl) ?_ ?_ ?_)
    good.locked trivial
  · exact fun dzp name other => stale_become (fun _ => other) Pc.noConfusion
  · exact fun zp linked => ⟨linked, fun _ => ⟨tid, at_, rfl, rfl⟩⟩
  · intro dzp name zp _ at_entry
    obtain ⟨dir_linked, linked, -⟩ := good.entered.linked dzp name zp at_entry
    exact ⟨dir_linked, linked⟩

end

end State

end Zfs.Rename
