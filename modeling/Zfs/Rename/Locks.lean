import Zfs.Rename.Code

/-!
# What the locks of renames protect

An entry changes only in the hands of the thread that has locked it, and a parent only in the hands
of the thread that has its parent lock as a writer.  What a thread has read under its locks
therefore stays as it was while the other threads run.
-/

namespace Zfs.Rename

open ParentTree

variable {Tid Name : Type}

/-- The parent of a directory; the root has none. -/
def State.up (state : State Tid Name) (zp : ℕ) : Option ℕ :=
  if zp = state.zRoot then none else some (state.zpParent zp)

namespace Thread

variable (thread : Thread Name) (state : State Tid Name)

/-- The source entry is locked and names the source. -/
def Sourced : Prop :=
  (thread.sdzp, thread.snm) ∈ thread.dirlocks ∧
    state.entry thread.sdzp thread.snm = some thread.szp

/-- The target entry is locked and names an object. -/
def Targeted (object : Option ℕ) : Prop :=
  (thread.tdzp, thread.tnm) ∈ thread.dirlocks ∧ state.entry thread.tdzp thread.tnm = object

/-- The source and the target entry are not the same. -/
def Apart : Prop := ¬(thread.sdzp = thread.tdzp ∧ thread.snm = thread.tnm)

/-- The locks of `zfs_rename_lock` up to a directory, none the source's. -/
structure Walk (passed : List ℕ) (top : ℕ) : Prop where
  /-- The locks are those of the walk. -/
  zl : thread.zl = passed.map (·, Krw.reader) ++ [(thread.szp, Krw.writer)]
  /-- The walk goes up from the target. -/
  part : Part state.up thread.tdzp passed top
  /-- It does not pass the source. -/
  outside : thread.szp ∉ passed

/-- `zfs_rename_lock` can return zero. -/
def Safe : Prop :=
  ∃ passed top, thread.Walk state passed top ∧ top ≠ thread.szp ∧
    (top = state.zRoot ∨ top = thread.sdzp)

/-- What holds for a thread at each place. -/
def Holds [LinearOrder Name] : Prop :=
  match thread.pc with
  | .idle | .rmdirDirentLock => thread.zl = [] ∧ thread.dirlocks = []
  | .direntLockFirst => thread.Apart ∧ thread.zl = [] ∧ thread.dirlocks = []
  | .direntLockSecond => thread.Apart ∧ thread.zl = [] ∧
    if thread.sourceFirst then thread.Sourced state else thread.Targeted state thread.tzp
  | .tryenter => thread.Apart ∧ thread.Sourced state ∧ thread.Targeted state thread.tzp ∧
    (thread.rw = .writer ∧ thread.zl = [] ∧ thread.zp = thread.tdzp ∨
      thread.rw = .reader ∧ thread.tdzp ≠ thread.sdzp ∧ thread.zp ≠ state.zRoot ∧
      thread.zp ≠ thread.szp ∧ ∃ passed, thread.Walk state passed thread.zp)
  | .compare => thread.Apart ∧ thread.Sourced state ∧ thread.Targeted state thread.tzp ∧
    (thread.rw = .writer ∧ thread.zp = thread.tdzp ∧ thread.Walk state [] thread.zp ∨
      thread.rw = .reader ∧ thread.tdzp ≠ thread.sdzp ∧
      ∃ passed, thread.Walk state (thread.zp :: passed) (state.zpParent thread.zp))
  | .restart => thread.Apart ∧ thread.Sourced state ∧ thread.Targeted state thread.tzp ∧
    thread.tdzp ≠ thread.sdzp
  | .renameLocked => thread.Apart ∧ thread.Sourced state ∧ thread.Targeted state thread.tzp ∧
    thread.Safe state
  | .linkCreate => thread.Apart ∧ thread.Sourced state ∧ thread.Targeted state none ∧
    thread.Safe state
  | .linkDestroy => thread.Apart ∧ thread.Sourced state ∧
    thread.Targeted state (some thread.szp)
  | .rmdirParentLock | .rmdirLinkDestroy => thread.Sourced state
  | .out => True

variable {thread state}

section Frame

variable {next : State Tid Name}
  (entries : ∀ dzp name, (dzp, name) ∈ thread.dirlocks →
    next.entry dzp name = state.entry dzp name)
  (parents : ∀ zp, (zp, Krw.reader) ∈ thread.zl → next.zpParent zp = state.zpParent zp)
  (root : next.zRoot = state.zRoot)

include entries in
theorem Sourced.frame (sourced : thread.Sourced state) : thread.Sourced next :=
  ⟨sourced.1, (entries _ _ sourced.1).trans sourced.2⟩

include entries in
theorem Targeted.frame {object : Option ℕ} (targeted : thread.Targeted state object) :
    thread.Targeted next object :=
  ⟨targeted.1, (entries _ _ targeted.1).trans targeted.2⟩

include parents root in
theorem Walk.frame {passed : List ℕ} {top : ℕ} (walk : thread.Walk state passed top) :
    thread.Walk next passed top where
  zl := walk.zl
  part := by
    refine walk.part.congr fun low member => ?_
    have held : (low, Krw.reader) ∈ thread.zl := by
      rw [walk.zl]
      exact List.mem_append_left _ (List.mem_map_of_mem member)
    rw [State.up, State.up, root, parents low held]
  outside := walk.outside

/-- What holds for a thread stays while what it has locked stays. -/
theorem Holds.frame [LinearOrder Name] (holds : thread.Holds state)
    (entries : ∀ dzp name, (dzp, name) ∈ thread.dirlocks →
      next.entry dzp name = state.entry dzp name)
    (parents : ∀ zp, (zp, Krw.reader) ∈ thread.zl → next.zpParent zp = state.zpParent zp)
    (root : next.zRoot = state.zRoot) : thread.Holds next := by
  have sourced : thread.Sourced state → thread.Sourced next := Sourced.frame entries
  have targeted (object : Option ℕ) : thread.Targeted state object → thread.Targeted next object :=
    Targeted.frame entries
  have safe : thread.Safe state → thread.Safe next := by
    rintro ⟨passed, top, walk, other, reached⟩
    exact ⟨passed, top, walk.frame parents root, other, by rwa [root]⟩
  unfold Holds at holds ⊢
  split at holds
  · exact holds
  · exact holds
  · exact holds
  · obtain ⟨apart, no_locks, locked⟩ := holds
    refine ⟨apart, no_locks, ?_⟩
    split at locked
    · rename_i first
      rw [if_pos first]
      exact sourced locked
    · rename_i first
      rw [if_neg first]
      exact targeted _ locked
  · obtain ⟨apart, source, target, walking⟩ := holds
    refine ⟨apart, sourced source, targeted _ target, walking.imp_right ?_⟩
    rintro ⟨reads, other, below, outside, passed, walk⟩
    exact ⟨reads, other, root.symm ▸ below, outside, passed, walk.frame parents root⟩
  · obtain ⟨apart, source, target, walking⟩ := holds
    refine ⟨apart, sourced source, targeted _ target, walking.imp ?_ ?_⟩
    · rintro ⟨writes, at_target, walk⟩
      exact ⟨writes, at_target, walk.frame parents root⟩
    · rintro ⟨reads, other, passed, walk⟩
      refine ⟨reads, other, passed, ?_⟩
      rw [parents thread.zp (by simp [walk.zl])]
      exact walk.frame parents root
  · exact ⟨holds.1, sourced holds.2.1, targeted _ holds.2.2.1, holds.2.2.2⟩
  · exact ⟨holds.1, sourced holds.2.1, targeted _ holds.2.2.1, safe holds.2.2.2⟩
  · exact ⟨holds.1, sourced holds.2.1, targeted _ holds.2.2.1, safe holds.2.2.2⟩
  · exact ⟨holds.1, sourced holds.2.1, targeted _ holds.2.2⟩
  · exact sourced holds
  · exact sourced holds
  · trivial

end Frame

end Thread

namespace State

variable (state : State Tid Name)

/-- A source entry whose object has moved on. -/
def Stale (dzp : ℕ) (name : Name) : Prop :=
  ∃ tid, (state.thread tid).pc = .linkDestroy ∧ (state.thread tid).sdzp = dzp ∧
    (state.thread tid).snm = name

/-- The directories that have links form a tree below the root. -/
structure Rooted : Prop where
  /-- The root has links. -/
  root : state.linked state.zRoot = true
  /-- Every directory has a path to the root. -/
  path : ∀ zp, state.linked zp = true →
    ∃ path, Path state.up zp path ∧ ∀ above ∈ path, state.linked above = true

/-- The entries agree with the parents. -/
structure Entered : Prop where
  /-- Entries are between directories that have links. -/
  linked : ∀ dzp name zp, state.entry dzp name = some zp →
    state.linked dzp = true ∧ state.linked zp = true ∧ zp ≠ state.zRoot
  /-- The parent of an object has its entry. -/
  parent : ∀ dzp name zp, state.entry dzp name = some zp → ¬ state.Stale dzp name →
    state.zpParent zp = dzp
  /-- Every directory below the root has an entry. -/
  named : ∀ zp, state.linked zp = true → zp ≠ state.zRoot →
    ∃ name, state.entry (state.zpParent zp) name = some zp ∧ ¬ state.Stale (state.zpParent zp) name
  /-- It has one in a directory. -/
  unique : ∀ dzp first second zp, state.entry dzp first = some zp →
    state.entry dzp second = some zp → ¬ state.Stale dzp first → ¬ state.Stale dzp second →
      first = second

/-- Locks exclude each other. -/
structure Exclusive : Prop where
  /-- An entry is locked by one thread. -/
  dirlock : ∀ first second lock, lock ∈ (state.thread first).dirlocks →
    lock ∈ (state.thread second).dirlocks → first = second
  /-- A writer holds a lock alone. -/
  zl : ∀ first second zp rw, (zp, Krw.writer) ∈ (state.thread first).zl →
    (zp, rw) ∈ (state.thread second).zl → first = second

/-- What holds between any two steps. -/
structure Good [LinearOrder Name] : Prop where
  /-- The directories form a tree. -/
  rooted : state.Rooted
  /-- The entries agree with it. -/
  entered : state.Entered
  /-- Locks exclude each other. -/
  exclusive : state.Exclusive
  /-- A directory with a locked entry has links. -/
  locked : ∀ tid lock, lock ∈ (state.thread tid).dirlocks → state.linked lock.1 = true
  /-- Every thread is at a place that it may be at. -/
  threads : ∀ tid, (state.thread tid).Holds state

variable {state} [DecidableEq Tid] {tid : Tid} {thread : Thread Name}

theorem thread_become_of_ne {other : Tid} (apart : other ≠ tid) :
    (state.become tid thread).thread other = state.thread other :=
  Function.update_of_ne apart _ _

theorem thread_become_self : (state.become tid thread).thread tid = thread :=
  Function.update_self _ _ _

/-- A step that takes no lock without asking for it. -/
theorem Exclusive.become (exclusive : state.Exclusive)
    (dirlocks : ∀ lock ∈ thread.dirlocks,
      lock ∈ (state.thread tid).dirlocks ∨ state.DirlockFree lock.1 lock.2)
    (zl : ∀ lock ∈ thread.zl, lock ∈ (state.thread tid).zl ∨ state.CanEnter lock.1 lock.2) :
    (state.become tid thread).Exclusive where
  dirlock := by
    intro first second lock in_first in_second
    by_contra apart
    rcases eq_or_ne first tid with rfl | first_other
    · rw [thread_become_self] at in_first
      rw [thread_become_of_ne (Ne.symm apart)] at in_second
      rcases dirlocks lock in_first with held | free
      · exact apart (exclusive.dirlock _ _ _ held in_second)
      · exact free second in_second
    · rw [thread_become_of_ne first_other] at in_first
      rcases eq_or_ne second tid with rfl | second_other
      · rw [thread_become_self] at in_second
        rcases dirlocks lock in_second with held | free
        · exact apart (exclusive.dirlock _ _ _ in_first held)
        · exact free first in_first
      · rw [thread_become_of_ne second_other] at in_second
        exact apart (exclusive.dirlock _ _ _ in_first in_second)
  zl := by
    intro first second zp rw_ in_first in_second
    by_contra apart
    rcases eq_or_ne first tid with rfl | first_other
    · rw [thread_become_self] at in_first
      rw [thread_become_of_ne (Ne.symm apart)] at in_second
      rcases zl _ in_first with held | free
      · exact apart (exclusive.zl _ _ _ _ held in_second)
      · exact free second rw_ in_second
    · rw [thread_become_of_ne first_other] at in_first
      rcases eq_or_ne second tid with rfl | second_other
      · rw [thread_become_self] at in_second
        rcases zl _ in_second with held | free
        · exact apart (exclusive.zl _ _ _ _ in_first held)
        · cases rw_ with
          | writer => exact free first .writer in_first
          | reader => exact free first in_first
      · rw [thread_become_of_ne second_other] at in_second
        exact apart (exclusive.zl _ _ _ _ in_first in_second)

/-- A step that changes a thread's locals keeps the stale entries. -/
theorem stale_become {dzp : ℕ} {name : Name}
    (before : (state.thread tid).pc = .linkDestroy →
      ¬(dzp = (state.thread tid).sdzp ∧ name = (state.thread tid).snm))
    (after : thread.pc ≠ .linkDestroy) :
    (state.become tid thread).Stale dzp name ↔ state.Stale dzp name := by
  refine exists_congr fun other => ?_
  rcases eq_or_ne other tid with rfl | apart
  · rw [thread_become_self]
    exact ⟨fun stale => absurd stale.1 after,
      fun stale => absurd ⟨stale.2.1.symm, stale.2.2.symm⟩ (before stale.1)⟩
  · rw [thread_become_of_ne apart]

/-- A step that changes nothing but the locals of a thread. -/
theorem Good.become [LinearOrder Name] (good : state.Good)
    (before : (state.thread tid).pc ≠ .linkDestroy) (after : thread.pc ≠ .linkDestroy)
    (dirlocks : ∀ lock ∈ thread.dirlocks, lock ∈ (state.thread tid).dirlocks ∨
      state.DirlockFree lock.1 lock.2 ∧ state.linked lock.1 = true)
    (zl : ∀ lock ∈ thread.zl, lock ∈ (state.thread tid).zl ∨ state.CanEnter lock.1 lock.2)
    (holds : thread.Holds state) : (state.become tid thread).Good where
  rooted := ⟨good.rooted.root, good.rooted.path⟩
  entered := by
    have stale (dzp : ℕ) (name : Name) :
        (state.become tid thread).Stale dzp name ↔ state.Stale dzp name :=
      stale_become (absurd · before) after
    obtain ⟨linked, parent, named, unique⟩ := good.entered
    refine ⟨linked, fun dzp name zp at_ fresh => parent dzp name zp at_ ?_,
      fun zp is_linked below => ?_, fun dzp first second zp at_first at_second fresh fresh' => ?_⟩
    · rwa [stale] at fresh
    · obtain ⟨name, at_, fresh⟩ := named zp is_linked below
      exact ⟨name, at_, fun gone => fresh ((stale _ _).mp gone)⟩
    · rw [stale] at fresh fresh'
      exact unique dzp first second zp at_first at_second fresh fresh'
  exclusive := good.exclusive.become
    (fun lock mem => (dirlocks lock mem).imp_right And.left) zl
  locked := by
    intro other lock mem
    rcases eq_or_ne other tid with rfl | apart
    · rw [thread_become_self] at mem
      rcases dirlocks lock mem with held | ⟨-, linked⟩
      · exact good.locked other lock held
      · exact linked
    · rw [thread_become_of_ne apart] at mem
      exact good.locked other lock mem
  threads := by
    intro other
    rcases eq_or_ne other tid with rfl | apart
    · rw [thread_become_self]
      exact holds.frame (fun _ _ _ => rfl) (fun _ _ => rfl) rfl
    · rw [thread_become_of_ne apart]
      exact (good.threads other).frame (fun _ _ _ => rfl) (fun _ _ => rfl) rfl

end State

end Zfs.Rename
