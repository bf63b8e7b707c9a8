import Zfs.Rename.Tree

/-!
# Runs of renames

Every step of every thread keeps what holds between steps, so that in every run a successful
`zfs_rename_lock` means what its caller needs, and the directories stay a tree.
-/

namespace Zfs.Rename

open ParentTree State List

namespace Thread

variable {Tid Name : Type} {state : State Tid Name} {thread : Thread Name} {szp : ℕ}
  {tzp : Option ℕ}

theorem Safe.goto (safe : thread.Safe state) (pc : Pc) : (thread.goto pc).Safe state := by
  obtain ⟨passed, top, walk, not_source, reached⟩ := safe
  exact ⟨passed, top, ⟨walk.zl, walk.part, walk.outside⟩, not_source, reached⟩

theorem afterDirentLock_ne : thread.afterDirentLock ≠ .linkDestroy := by
  rw [afterDirentLock]
  split <;> decide

theorem compare_locks (thread : Thread Name) (zRoot : ℕ) (zpParent : ℕ → ℕ) :
    (thread.compare zRoot zpParent).dirlocks = thread.dirlocks ∧
    (thread.compare zRoot zpParent).zl = thread.zl ∧
    (thread.compare zRoot zpParent).pc ≠ .linkDestroy := by
  rw [Thread.compare]
  split
  · exact ⟨rfl, rfl, Pc.noConfusion⟩
  split
  · exact ⟨rfl, rfl, Pc.noConfusion⟩
  refine ⟨rfl, rfl, ?_⟩
  simp only [continueWith]
  split <;> exact Pc.noConfusion

section

variable [LinearOrder Name] (holds : thread.Holds state)

include holds

theorem Holds.lockSource
    (at_ : thread.pc = if thread.sourceFirst then .direntLockFirst else .direntLockSecond)
    (found : state.entry thread.sdzp thread.snm = some szp) :
    (thread.lockSource szp).Holds state := by
  cases first : thread.sourceFirst with
  | true =>
    have again : (thread.lockSource szp).sourceFirst = true := first
    rw [first, if_pos rfl] at at_
    simp only [Holds, at_] at holds
    have next_pc : (thread.lockSource szp).pc = .direntLockSecond := by
      simp [Thread.lockSource, afterDirentLock, at_]
    simp only [Holds, next_pc, again, if_true]
    exact ⟨holds.1, holds.2.1, mem_cons_self, found⟩
  | false =>
    rw [first, if_neg Bool.false_ne_true] at at_
    simp only [Holds, at_, first, Bool.false_eq_true, if_false] at holds
    obtain ⟨apart, no_locks, targeted⟩ := holds
    have next_pc : (thread.lockSource szp).pc = .tryenter := by
      simp [Thread.lockSource, afterDirentLock, at_]
    simp only [Holds, next_pc]
    exact ⟨apart, ⟨mem_cons_self, found⟩,
      ⟨mem_cons_of_mem _ targeted.1, targeted.2⟩, .inl ⟨rfl, no_locks, rfl⟩⟩

theorem Holds.lockTarget
    (at_ : thread.pc = if thread.sourceFirst then .direntLockSecond else .direntLockFirst)
    (found : state.entry thread.tdzp thread.tnm = tzp) : (thread.lockTarget tzp).Holds state := by
  cases first : thread.sourceFirst with
  | true =>
    rw [first, if_pos rfl] at at_
    simp only [Holds, at_, first, if_true] at holds
    obtain ⟨apart, no_locks, sourced⟩ := holds
    have next_pc : (thread.lockTarget tzp).pc = .tryenter := by
      simp [Thread.lockTarget, afterDirentLock, at_]
    simp only [Holds, next_pc]
    exact ⟨apart, ⟨mem_cons_of_mem _ sourced.1, sourced.2⟩,
      ⟨mem_cons_self, found⟩, .inl ⟨rfl, no_locks, rfl⟩⟩
  | false =>
    have again : (thread.lockTarget tzp).sourceFirst = false := first
    rw [first, if_neg Bool.false_ne_true] at at_
    simp only [Holds, at_] at holds
    have next_pc : (thread.lockTarget tzp).pc = .direntLockSecond := by
      simp [Thread.lockTarget, afterDirentLock, at_]
    simp only [Holds, next_pc, again, Bool.false_eq_true, if_false]
    exact ⟨holds.1, holds.2.1, mem_cons_self, found⟩

theorem Holds.enter (at_ : thread.pc = .tryenter) :
    Holds { thread with pc := .compare, zl := (thread.rwlp, thread.rw) :: thread.zl } state := by
  simp only [Holds, at_] at holds
  obtain ⟨apart, sourced, targeted, ⟨writes, no_locks, at_target⟩ | walking⟩ := holds
  · refine ⟨apart, sourced, targeted, .inl ⟨writes, at_target, ?_, at_target ▸ .nil, ?_⟩⟩
    · simp [rwlp, writes, no_locks]
    · exact not_mem_nil
  · obtain ⟨reads, other, below, outside, passed, walk⟩ := walking
    refine ⟨apart, sourced, targeted, .inr ⟨reads, other, passed, ?_, ?_, ?_⟩⟩
    · simp [rwlp, reads, walk.zl]
    · exact .cons walk.part (by rw [State.up, if_neg below])
    · exact fun member => (mem_cons.mp member).elim (fun same => outside same.symm)
        walk.outside

theorem Holds.compare (at_ : thread.pc = .compare) :
    (thread.compare state.zRoot state.zpParent).Holds state := by
  simp only [Holds, at_] at holds
  obtain ⟨apart, sourced, targeted, walking⟩ := holds
  obtain ⟨passed, walk, other⟩ : ∃ passed, thread.Walk state passed (thread.oid state.zpParent) ∧
      (thread.oid state.zpParent = thread.tdzp ∨ thread.tdzp ≠ thread.sdzp) := by
    rcases walking with ⟨writes, at_target, walk⟩ | ⟨reads, other, passed, walk⟩
    · exact ⟨[], by simpa [oid, writes] using walk, .inl (by simp [oid, writes, at_target])⟩
    · exact ⟨_, by simpa [oid, reads] using walk, .inr other⟩
  rw [Thread.compare]
  split
  · trivial
  rename_i not_source
  split
  · rename_i is_root
    exact ⟨apart, sourced, targeted, passed, _, ⟨walk.zl, walk.part, walk.outside⟩, not_source,
      .inl is_root⟩
  rename_i not_root
  by_cases at_source : thread.oid state.zpParent = thread.sdzp
  · have next_pc : (thread.continueWith (thread.oid state.zpParent) .reader).pc =
        .renameLocked := by
      simp [continueWith, at_source]
    simp only [Holds, next_pc]
    exact ⟨apart, sourced, targeted, passed, _, ⟨walk.zl, walk.part, walk.outside⟩, not_source,
      .inr at_source⟩
  · have next_pc : (thread.continueWith (thread.oid state.zpParent) .reader).pc = .tryenter := by
      simp [continueWith, at_source]
    simp only [Holds, next_pc]
    refine ⟨apart, sourced, targeted, .inr ⟨rfl, ?_, not_root, not_source, passed,
      ⟨walk.zl, walk.part, walk.outside⟩⟩⟩
    exact other.elim (fun same => same ▸ at_source) id

end

end Thread

variable {Tid Name : Type} [DecidableEq Tid] [LinearOrder Name] {state next : State Tid Name}
  {tid : Tid}

/-- A step that keeps the locks of a thread, or drops some. -/
theorem State.Good.keep (good : state.Good) {thread : Thread Name}
    (before : (state.thread tid).pc ≠ .linkDestroy) (after : thread.pc ≠ .linkDestroy)
    (dirlocks : ∀ lock ∈ thread.dirlocks, lock ∈ (state.thread tid).dirlocks)
    (zl : ∀ lock ∈ thread.zl, lock ∈ (state.thread tid).zl) (holds : thread.Holds state) :
    (state.become tid thread).Good :=
  good.become before after (fun lock mem => .inl (dirlocks lock mem))
    (fun lock mem => .inl (zl lock mem)) holds

theorem State.Good.step (good : state.Good) (step : Step state tid next) : next.Good := by
  have holds := good.threads tid
  cases step with
  | rename sdzp snm tdzp tnm at_ apart =>
    simp only [Thread.Holds, at_] at holds
    exact good.keep (by rw [at_]; decide) Pc.noConfusion (fun _ => id) (fun _ => id)
      ⟨apart, holds⟩
  | direntLockSource szp at_ locks =>
    obtain ⟨free, linked, found⟩ := locks
    refine good.become ?_ Thread.afterDirentLock_ne
      (forall_mem_cons.mpr ⟨.inr ⟨free, linked⟩, fun _ => .inl⟩) (fun _ => .inl)
      (holds.lockSource at_ found)
    rw [at_]
    split <;> decide
  | direntLockTarget tzp at_ locks =>
    obtain ⟨free, linked, found⟩ := locks
    refine good.become ?_ Thread.afterDirentLock_ne
      (forall_mem_cons.mpr ⟨.inr ⟨free, linked⟩, fun _ => .inl⟩) (fun _ => .inl)
      (holds.lockTarget at_ found)
    rw [at_]
    split <;> decide
  | enter at_ free =>
    exact good.become (by rw [at_]; decide) Pc.noConfusion (fun _ => .inl)
      (forall_mem_cons.mpr ⟨.inr free, fun _ => .inl⟩) (holds.enter at_)
  | contend at_ reads above =>
    simp only [Thread.Holds, at_] at holds
    obtain ⟨apart, sourced, targeted, ⟨writes, -⟩ | ⟨-, other, -⟩⟩ := holds
    · rw [reads] at writes
      cases writes
    · exact good.keep (by rw [at_]; decide) Pc.noConfusion (fun _ => id) (fun _ => id)
        ⟨apart, sourced, targeted, other⟩
  | drop lock rest at_ held =>
    simp only [Thread.Holds, at_] at holds
    refine good.keep (by rw [at_]; decide) ?_ (fun _ => id) (fun other mem => ?_) ?_
    · exact fun moving => Pc.noConfusion (at_.symm.trans moving)
    · rw [held]
      exact mem_cons_of_mem _ mem
    · simp only [Thread.Holds, at_]
      exact holds
  | again at_ none =>
    simp only [Thread.Holds, at_] at holds
    obtain ⟨apart, sourced, targeted, other⟩ := holds
    -- The source directory is not the target directory, so that the loop goes on.
    have next_pc : ((state.thread tid).continueWith (state.thread tid).tdzp .writer).pc =
        .tryenter := by
      simp [Thread.continueWith, other]
    refine good.keep (by rw [at_]; decide) (by rw [next_pc]; decide) (fun _ => id)
      (fun _ => id) ?_
    simp only [Thread.Holds, next_pc]
    exact ⟨apart, sourced, targeted, .inl ⟨rfl, none, rfl⟩⟩
  | compare at_ =>
    have locks := Thread.compare_locks (state.thread tid) state.zRoot state.zpParent
    refine good.keep (by rw [at_]; decide) locks.2.2 (fun lock mem => ?_) (fun lock mem => ?_)
      (holds.compare at_)
    · rwa [locks.1] at mem
    · rwa [locks.2.1] at mem
  | noTarget at_ none =>
    simp only [Thread.Holds, at_] at holds
    obtain ⟨apart, sourced, targeted, safe⟩ := holds
    exact good.keep (by rw [at_]; decide) Pc.noConfusion (fun _ => id) (fun _ => id)
      ⟨apart, sourced, none ▸ targeted, safe.goto _⟩
  | destroyTarget tzp at_ found other empty =>
    simp only [Thread.Holds, at_] at holds
    obtain ⟨apart, sourced, targeted, safe⟩ := holds
    rw [found] at targeted
    refine good.unlink targeted.1 (by rw [at_]; decide) targeted.2 empty Pc.noConfusion ?_
    refine ⟨apart, ⟨sourced.1, (if_neg fun same => apart same).trans sourced.2⟩,
      ⟨targeted.1, if_pos ⟨rfl, rfl⟩⟩, ?_⟩
    obtain ⟨passed, top, walk, not_source, reached⟩ := safe
    exact ⟨passed, top, ⟨walk.zl, walk.part, walk.outside⟩, not_source, reached⟩
  | linkCreate at_ => exact good.linkCreate at_
  | linkDestroy at_ => exact good.linkDestroy at_
  | rmdir dzp name at_ =>
    simp only [Thread.Holds, at_] at holds
    exact good.keep (by rw [at_]; decide) Pc.noConfusion (fun _ => id) (fun _ => id) holds
  | rmdirDirentLock zp at_ locks =>
    obtain ⟨free, linked, found⟩ := locks
    exact good.become (by rw [at_]; decide) Pc.noConfusion
      (forall_mem_cons.mpr ⟨.inr ⟨free, linked⟩, fun _ => .inl⟩) (fun _ => .inl)
      ⟨mem_cons_self, found⟩
  | rmdirParentLock at_ free =>
    simp only [Thread.Holds, at_] at holds
    exact good.become (by rw [at_]; decide) Pc.noConfusion (fun _ => .inl)
      (forall_mem_cons.mpr ⟨.inr free, fun _ => .inl⟩) holds
  | rmdirLinkDestroy at_ empty =>
    simp only [Thread.Holds, at_] at holds
    exact good.unlink holds.1 (by rw [at_]; decide) holds.2 empty Pc.noConfusion trivial
  | fail may =>
    refine good.keep (fun moving => ?_) Pc.noConfusion (fun _ => id) (fun _ => id) trivial
    simp [Thread.MayFail, moving] at may
  | exit lock rest at_ held =>
    refine good.keep (by rw [at_]; decide) ?_ (fun _ => id) (fun other mem => ?_) ?_
    · exact fun moving => Pc.noConfusion (at_.symm.trans moving)
    · rw [held]
      exact mem_cons_of_mem _ mem
    · simp only [Thread.Holds, at_]
  | direntUnlock lock rest at_ none held =>
    refine good.keep (by rw [at_]; decide) ?_ (fun other mem => ?_) (fun _ => id) ?_
    · exact fun moving => Pc.noConfusion (at_.symm.trans moving)
    · rw [held]
      exact mem_cons_of_mem _ mem
    · simp only [Thread.Holds, at_]
  | return_ at_ no_locks none =>
    exact good.keep (by rw [at_]; decide) Pc.noConfusion (fun _ => id) (fun _ => id)
      ⟨no_locks, none⟩

/-- The interleavings of the steps of all threads, from any tree. -/
def system (Tid Name : Type) [DecidableEq Tid] [LinearOrder Name] :
    TransitionSystem (State Tid Name) Tid where
  Start state := state.Rooted ∧ state.Entered ∧ ∀ tid, (state.thread tid).pc = .idle ∧
    (state.thread tid).zl = [] ∧ (state.thread tid).dirlocks = []
  Step := Step

theorem good_of_start (start : (system Tid Name).Start state) : state.Good := by
  obtain ⟨rooted, entered, idle⟩ := start
  refine ⟨rooted, entered, ⟨?_, ?_⟩, ?_, fun tid => ?_⟩
  · intro first second lock in_first
    rw [(idle first).2.2] at in_first
    exact absurd in_first not_mem_nil
  · intro first second zp rw_ in_first
    rw [(idle first).2.1] at in_first
    exact absurd in_first not_mem_nil
  · intro tid lock mem
    rw [(idle tid).2.2] at mem
    exact absurd mem not_mem_nil
  · simp only [Thread.Holds, (idle tid).1]
    exact (idle tid).2

/-- While a rename holds its locks, the source is not above the target directory, and the linked
directories are a tree. -/
theorem rename_lock_of_reachable (reachable : (system Tid Name).Reachable state) :
    (∀ tid, (state.thread tid).pc = .renameLocked ∨ (state.thread tid).pc = .linkCreate →
      ∃ path, Path state.up (state.thread tid).tdzp path ∧ (state.thread tid).szp ∉ path) ∧
    ∀ zp, state.linked zp = true → ∃ path, Path state.up zp path ∧ state.zRoot ∈ path ∧
    ∀ above ∈ path, state.linked above = true := by
  have good : state.Good := reachable.invariant (fun _ => good_of_start)
    fun _ _ _ good step => good.step step
  constructor
  · intro tid at_
    have holds := good.threads tid
    obtain ⟨sourced, targeted, safe⟩ : (state.thread tid).Sourced state ∧
        ((state.thread tid).tdzp, (state.thread tid).tnm) ∈ (state.thread tid).dirlocks ∧
        (state.thread tid).Safe state := by
      rcases at_ with at_ | at_ <;> simp only [Thread.Holds, at_] at holds <;>
        exact ⟨holds.2.1, holds.2.2.1.1, holds.2.2.2⟩
    have busy : (state.thread tid).pc ≠ .linkDestroy := by
      rcases at_ with at_ | at_ <;> rw [at_] <;> decide
    obtain ⟨path, found, -⟩ := good.rooted.path _ (good.locked tid _ targeted)
    exact ⟨path, found, good.not_mem_path busy sourced safe found⟩
  · intro zp linked
    obtain ⟨path, found, all_linked⟩ := good.rooted.path zp linked
    obtain ⟨top, member, is_top⟩ := found.exists_root
    rw [State.up] at is_top
    split at is_top
    · rename_i is_root
      exact ⟨path, found, is_root ▸ member, all_linked⟩
    · cases is_top

/-- A root with two directories, and one thread. -/
def twoDirectories : State Unit ℕ where
  zRoot := 1
  zpParent := fun _ => 1
  linked := fun zp => decide (zp = 1 ∨ zp = 2 ∨ zp = 3)
  entry := fun dzp name => if dzp = 1 ∧ name < 2 then some (name + 2) else none
  thread := fun _ => ⟨.idle, 0, 0, 0, 0, 0, none, 0, .writer, [], []⟩

theorem start_twoDirectories : (system Unit ℕ).Start twoDirectories := by
  have fresh (dzp name : ℕ) : ¬ twoDirectories.Stale dzp name := by
    rintro ⟨_, moving, -⟩
    cases moving
  have root : Path twoDirectories.up 1 [1] := .root rfl
  refine ⟨⟨rfl, fun zp linked => ?_⟩, ⟨?_, ?_, ?_, ?_⟩, fun _ => ⟨rfl, rfl, rfl⟩⟩
  · rcases of_decide_eq_true linked with rfl | rfl | rfl
    · exact ⟨[1], root, by decide⟩
    · exact ⟨[2, 1], .step rfl root, by decide⟩
    · exact ⟨[3, 1], .step rfl root, by decide⟩
  · intro dzp name zp at_
    simp only [twoDirectories, Option.ite_none_right_eq_some, Option.some.injEq] at at_ ⊢
    simp only [decide_eq_true_eq]
    omega
  · intro dzp name zp at_ _
    simp only [twoDirectories, Option.ite_none_right_eq_some] at at_ ⊢
    exact at_.1.1.symm
  · intro zp linked below
    rcases of_decide_eq_true linked with rfl | rfl | rfl
    · exact absurd rfl below
    · exact ⟨0, rfl, fresh 1 0⟩
    · exact ⟨1, rfl, fresh 1 1⟩
  · intro dzp first second zp at_first at_second _ _
    simp only [twoDirectories, Option.ite_none_right_eq_some, Option.some.injEq]
      at at_first at_second
    omega

/-- The first directory is about to move into the second one. -/
theorem rename_lock_of_twoDirectories : ∃ state : State Unit ℕ, (system Unit ℕ).Reachable state ∧
    (state.thread ()).pc = .renameLocked ∧ (state.thread ()).szp = 2 ∧
    ∃ path, Path state.up 3 path ∧ 2 ∉ path := by
  have start : (system Unit ℕ).Reachable twoDirectories := .start start_twoDirectories
  have called := start.take () (.rename 1 0 3 5 rfl (by decide))
  have source := called.take () (.direntLockSource 2 rfl ⟨nofun, rfl, rfl⟩)
  have target := source.take () (.direntLockTarget none rfl ⟨by rintro ⟨⟩; decide, rfl, rfl⟩)
  have wrote := target.take () (.enter rfl nofun)
  have first := wrote.take () (.compare rfl)
  have read := first.take () (.enter rfl (by rintro ⟨⟩; decide))
  have second := read.take () (.compare rfl)
  exact ⟨_, second, rfl, rfl, (rename_lock_of_reachable second).1 () (.inl rfl)⟩

end Zfs.Rename
