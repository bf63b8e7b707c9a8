import Zfs.Library.ParentTree
import Zfs.Library.TransitionSystem
import Zfs.Machine

/-!
# Renames of directories

The calls of `zfs_rename` that move directories, with `zfs_rename_lock`, and those of `zfs_rmdir`,
with the steps of all threads interleaved.  Only the entries that name directories are followed; a
call may also fail for other entries, permissions or space.  `z_name_lock` only makes calls wait.
-/

namespace Zfs.Rename

inductive Krw where
  | writer
  | reader
  deriving DecidableEq

/-- Where a thread is. -/
inductive Pc where
  | idle
  /-- `zfs_rename` locks the first of its two entries. -/
  | direntLockFirst
  | direntLockSecond
  /-- `zfs_rename_lock` is about to take a lock. -/
  | tryenter
  /-- `zfs_rename_lock` has taken a lock. -/
  | compare
  /-- `zfs_rename_lock` drops its locks and starts again. -/
  | restart
  /-- `zfs_rename_lock` has returned zero. -/
  | renameLocked
  /-- `zfs_rename` links the source to the target directory. -/
  | linkCreate
  /-- `zfs_rename` removes the source entry. -/
  | linkDestroy
  | rmdirDirentLock
  | rmdirParentLock
  | rmdirLinkDestroy
  /-- The call drops its locks and returns. -/
  | out
  deriving DecidableEq

/-- The local variables of a thread. -/
structure Thread (Name : Type) where
  /-- The place in the code. -/
  pc : Pc
  /-- The source directory. -/
  sdzp : ℕ
  /-- The source name. -/
  snm : Name
  /-- The target directory. -/
  tdzp : ℕ
  /-- The target name. -/
  tnm : Name
  /-- The object of the source entry; in `zfs_rmdir` that of the entry. -/
  szp : ℕ
  /-- The object of the target entry, if any. -/
  tzp : Option ℕ
  /-- The directory that the walk has come to. -/
  zp : ℕ
  /-- The lock that the walk takes next. -/
  rw : Krw
  /-- The parent locks that are held, the last one first. -/
  zl : List (ℕ × Krw)
  /-- The entries that are locked. -/
  dirlocks : List (ℕ × Name)

/-- The directories and the threads. -/
structure State (Tid Name : Type) where
  zRoot : ℕ
  /-- The parent that an object stores. -/
  zpParent : ℕ → ℕ
  /-- The directories that have links. -/
  linked : ℕ → Bool
  /-- The entries that name directories. -/
  entry : ℕ → Name → Option ℕ
  thread : Tid → Thread Name

namespace State

variable {Tid Name : Type} [DecidableEq Tid] [LinearOrder Name] (state : State Tid Name)

/-- The locals of a thread are changed. -/
def become (tid : Tid) (thread : Thread Name) : State Tid Name :=
  { state with thread := Function.update state.thread tid thread }

/-- An entry is written. -/
def setEntry (dzp : ℕ) (name : Name) (object : Option ℕ) : State Tid Name :=
  { state with
    entry := fun other label =>
      if other = dzp ∧ label = name then object else state.entry other label }

/-- An object loses its last link. -/
def unlink (zp : ℕ) : State Tid Name :=
  { state with linked := Function.update state.linked zp false }

/-- A directory gets another parent. -/
def setParent (zp dzp : ℕ) : State Tid Name :=
  { state with zpParent := Function.update state.zpParent zp dzp }

/-- No thread has locked an entry. -/
def DirlockFree (dzp : ℕ) (name : Name) : Prop :=
  ∀ tid, (dzp, name) ∉ (state.thread tid).dirlocks

/-- The parent lock of a directory can be taken. -/
def CanEnter (zp : ℕ) : Krw → Prop
  | .writer => ∀ tid rw, (zp, rw) ∉ (state.thread tid).zl
  | .reader => ∀ tid, (zp, Krw.writer) ∉ (state.thread tid).zl

/-- What `zfs_dirempty` needs: no entries, and none that is locked. -/
def Dirempty (zp : ℕ) : Prop :=
  (∀ name, state.entry zp name = none) ∧ ∀ tid name, (zp, name) ∉ (state.thread tid).dirlocks

/-- `zfs_dirent_lock` returns the object of an entry. -/
def DirentLock (dzp : ℕ) (name : Name) (object : Option ℕ) : Prop :=
  state.DirlockFree dzp name ∧ state.linked dzp = true ∧ state.entry dzp name = object

end State

namespace Thread

variable {Name : Type} [LinearOrder Name] (thread : Thread Name)

/-- The thread goes on at another place. -/
def goto (pc : Pc) : Thread Name := { thread with pc }

/-- The source entry is locked before the target entry. -/
def sourceFirst : Bool :=
  decide (thread.sdzp < thread.tdzp ∨ thread.sdzp = thread.tdzp ∧ thread.snm < thread.tnm)

/-- The next step of `zfs_rename` after an entry is locked. -/
def afterDirentLock : Pc := if thread.pc = .direntLockFirst then .direntLockSecond else .tryenter

/-- `zfs_rename` has locked the source entry. -/
def lockSource (szp : ℕ) : Thread Name :=
  { thread with
    pc := thread.afterDirentLock, szp, zp := thread.tdzp, rw := .writer
    dirlocks := (thread.sdzp, thread.snm) :: thread.dirlocks }

/-- `zfs_rename` has locked the target entry. -/
def lockTarget (tzp : Option ℕ) : Thread Name :=
  { thread with
    pc := thread.afterDirentLock, tzp, zp := thread.tdzp, rw := .writer
    dirlocks := (thread.tdzp, thread.tnm) :: thread.dirlocks }

/-- Whose parent lock `zfs_rename_lock` takes next: `rwlp`. -/
def rwlp : ℕ := if thread.rw = .writer then thread.szp else thread.zp

/-- The object number that `zfs_rename_lock` compares: `*oidp`. -/
def oid (zpParent : ℕ → ℕ) : ℕ :=
  if thread.rw = .writer then thread.zp else zpParent thread.zp

/-- The condition at the end of the loop of `zfs_rename_lock`. -/
def continueWith (zp : ℕ) (rw : Krw) : Thread Name :=
  { thread with pc := if zp ≠ thread.sdzp then .tryenter else .renameLocked, zp, rw }

/-- `zfs_rename_lock` after it has taken a lock. -/
def compare (zRoot : ℕ) (zpParent : ℕ → ℕ) : Thread Name :=
  if thread.oid zpParent = thread.szp then thread.goto .out
  else if thread.oid zpParent = zRoot then thread.goto .renameLocked
  else thread.continueWith (thread.oid zpParent) .reader

/-- A call that is waiting for nothing but its own next step may fail. -/
def MayFail : Prop :=
  thread.pc = .direntLockFirst ∨ thread.pc = .direntLockSecond ∨ thread.pc = .compare ∨
    thread.pc = .renameLocked ∨ thread.pc = .rmdirDirentLock ∨ thread.pc = .rmdirLinkDestroy

end Thread

variable {Tid Name : Type} [DecidableEq Tid] [LinearOrder Name]

/-- A step of a thread. -/
inductive Step (state : State Tid Name) (tid : Tid) : State Tid Name → Prop where
  | rename (sdzp : ℕ) (snm : Name) (tdzp : ℕ) (tnm : Name)
    (at_ : (state.thread tid).pc = .idle) (apart : ¬(sdzp = tdzp ∧ snm = tnm)) :
    Step state tid (state.become tid { state.thread tid with
      pc := .direntLockFirst, sdzp, snm, tdzp, tnm })
  | direntLockSource (szp : ℕ)
    (at_ : (state.thread tid).pc =
      if (state.thread tid).sourceFirst then .direntLockFirst else .direntLockSecond)
    (locks : state.DirentLock (state.thread tid).sdzp (state.thread tid).snm (some szp)) :
    Step state tid (state.become tid ((state.thread tid).lockSource szp))
  | direntLockTarget (tzp : Option ℕ)
    (at_ : (state.thread tid).pc =
      if (state.thread tid).sourceFirst then .direntLockSecond else .direntLockFirst)
    (locks : state.DirentLock (state.thread tid).tdzp (state.thread tid).tnm tzp) :
    Step state tid (state.become tid ((state.thread tid).lockTarget tzp))
  | enter (at_ : (state.thread tid).pc = .tryenter)
    (free : state.CanEnter (state.thread tid).rwlp (state.thread tid).rw) :
    Step state tid (state.become tid { state.thread tid with
      pc := .compare
      zl := ((state.thread tid).rwlp, (state.thread tid).rw) :: (state.thread tid).zl })
  -- A failed attempt to read-lock, which a waiting writer also causes.
  | contend (at_ : (state.thread tid).pc = .tryenter) (reads : (state.thread tid).rw = .reader)
    (above : (state.thread tid).szp < (state.thread tid).zp) :
    Step state tid (state.become tid ((state.thread tid).goto .restart))
  | drop (lock : ℕ × Krw) (rest : List (ℕ × Krw)) (at_ : (state.thread tid).pc = .restart)
    (holds : (state.thread tid).zl = lock :: rest) :
    Step state tid (state.become tid { state.thread tid with zl := rest })
  | again (at_ : (state.thread tid).pc = .restart) (none : (state.thread tid).zl = []) :
    Step state tid (state.become tid
      ((state.thread tid).continueWith (state.thread tid).tdzp .writer))
  | compare (at_ : (state.thread tid).pc = .compare) :
    Step state tid (state.become tid ((state.thread tid).compare state.zRoot state.zpParent))
  | noTarget (at_ : (state.thread tid).pc = .renameLocked) (none : (state.thread tid).tzp = none) :
    Step state tid (state.become tid ((state.thread tid).goto .linkCreate))
  | destroyTarget (tzp : ℕ) (at_ : (state.thread tid).pc = .renameLocked)
    (found : (state.thread tid).tzp = some tzp) (other : tzp ≠ (state.thread tid).szp)
    (empty : state.Dirempty tzp) :
    Step state tid (((state.unlink tzp).setEntry (state.thread tid).tdzp (state.thread tid).tnm
      none).become tid ((state.thread tid).goto .linkCreate))
  | linkCreate (at_ : (state.thread tid).pc = .linkCreate) :
    Step state tid (((state.setParent (state.thread tid).szp (state.thread tid).tdzp).setEntry
      (state.thread tid).tdzp (state.thread tid).tnm (some (state.thread tid).szp)).become tid
        ((state.thread tid).goto .linkDestroy))
  | linkDestroy (at_ : (state.thread tid).pc = .linkDestroy) :
    Step state tid ((state.setEntry (state.thread tid).sdzp (state.thread tid).snm none).become
      tid ((state.thread tid).goto .out))
  | rmdir (dzp : ℕ) (name : Name) (at_ : (state.thread tid).pc = .idle) :
    Step state tid (state.become tid { state.thread tid with
      pc := .rmdirDirentLock, sdzp := dzp, snm := name })
  | rmdirDirentLock (zp : ℕ) (at_ : (state.thread tid).pc = .rmdirDirentLock)
    (locks : state.DirentLock (state.thread tid).sdzp (state.thread tid).snm (some zp)) :
    Step state tid (state.become tid { state.thread tid with
      pc := .rmdirParentLock, szp := zp
      dirlocks := ((state.thread tid).sdzp, (state.thread tid).snm) ::
        (state.thread tid).dirlocks })
  | rmdirParentLock (at_ : (state.thread tid).pc = .rmdirParentLock)
    (free : state.CanEnter (state.thread tid).szp .writer) :
    Step state tid (state.become tid { state.thread tid with
      pc := .rmdirLinkDestroy
      zl := ((state.thread tid).szp, .writer) :: (state.thread tid).zl })
  | rmdirLinkDestroy (at_ : (state.thread tid).pc = .rmdirLinkDestroy)
    (empty : state.Dirempty (state.thread tid).szp) :
    Step state tid (((state.unlink (state.thread tid).szp).setEntry (state.thread tid).sdzp
      (state.thread tid).snm none).become tid ((state.thread tid).goto .out))
  | fail (may : (state.thread tid).MayFail) :
    Step state tid (state.become tid ((state.thread tid).goto .out))
  | exit (lock : ℕ × Krw) (rest : List (ℕ × Krw)) (at_ : (state.thread tid).pc = .out)
    (holds : (state.thread tid).zl = lock :: rest) :
    Step state tid (state.become tid { state.thread tid with zl := rest })
  | direntUnlock (lock : ℕ × Name) (rest : List (ℕ × Name)) (at_ : (state.thread tid).pc = .out)
    (none : (state.thread tid).zl = []) (holds : (state.thread tid).dirlocks = lock :: rest) :
    Step state tid (state.become tid { state.thread tid with dirlocks := rest })
  | return_ (at_ : (state.thread tid).pc = .out) (no_locks : (state.thread tid).zl = [])
    (none : (state.thread tid).dirlocks = []) :
    Step state tid (state.become tid ((state.thread tid).goto .idle))

end Zfs.Rename
