import Zfs.Zrt.Tables

/-!
# The top level file system

The operations of `zfs_toplevel_filesystem.c` on descriptors.  The functions of the layer below are
arguments: each gets the inode the operation passes and gives its return value and its effect.  A
null pointer that is read and a failed `assert` end the run.
-/

namespace Zfs.Zrt

def ebadf : ℤ := 9

def enotdir : ℤ := 20

def eisdir : ℤ := 21

def enfile : ℤ := 23

def oRdonly : BitVec 32 := 0

def oWronly : BitVec 32 := 1

def oRdwr : BitVec 32 := 2

def oAccmode : BitVec 32 := 3

def oCreat : BitVec 32 := 0x40

def checkFlag (flags flag : BitVec 32) : Bool := flags &&& flag == flag

/-- An `ssize_t` stored in an `int`. -/
def toInt (value : ℤ) : ℤ := value.bmod (2 ^ 32)

/-- What an operation returns, and what the call below brought about. -/
structure Reply (τ : Type) where
  ret : ℤ
  /-- The error number, if it is set. -/
  errno : Option ℤ
  /-- The tables after the operation. -/
  tables : Tables
  /-- The effect of the call below, if it was made. -/
  below : Option τ

/-- `SET_ERRNO` and `-1`, before the layer below is called. -/
def Reply.fail {τ : Type} (tables : Tables) (errno : ℤ) : Reply τ := ⟨-1, some errno, tables, none⟩

/-- The field of `struct stat` that is read. -/
structure Stat where
  /-- The mode is that of a directory. -/
  isDir : Bool

variable {τ : Type} (tables : Tables) (fd : ℤ)

/-- The body of the four transfers, `toplevel_read` to `toplevel_pwrite`. -/
def transfer (allowed : BitVec 32 → Bool) (position : Option ℤ) (call : ℤ → ℤ → ℤ × τ) :
    Except Halt (Reply τ) :=
  match tables.entry fd, tables.ofd fd with
  | none, _ => .ok (.fail tables ebadf)
  | some _, none => .error .panic
  | some entry, some ofd =>
    if allowed ofd.flags then
      let offset := position.getD ofd.offset
      let (low, below) := call entry.inode offset
      let ret := toInt low
      if 0 ≤ ret then
        -- update resulted offset
        let (ret2, tables) := tables.setOffset entry.openFileDescriptionId (offset + ret)
        if ret2 = 0 then .ok ⟨ret, none, tables, some below⟩ else .error .panic
      else .ok ⟨-1, some (-ret), tables, some below⟩
    else .ok (.fail tables einval)

/-- The test of `toplevel_read` and `toplevel_pread`. -/
def readAllowed (flags : BitVec 32) : Bool := checkFlag flags oRdonly || checkFlag flags oRdwr

/-- The test of `toplevel_write` and `toplevel_pwrite`. -/
def writeAllowed (flags : BitVec 32) : Bool := checkFlag flags oWronly || checkFlag flags oRdwr

def toplevelRead (pread : ℤ → ℤ → ℤ × τ) : Except Halt (Reply τ) :=
  transfer tables fd readAllowed none pread

def toplevelWrite (pwrite : ℤ → ℤ → ℤ × τ) : Except Halt (Reply τ) :=
  transfer tables fd writeAllowed none pwrite

def toplevelPread (offset : ℤ) (pread : ℤ → ℤ → ℤ × τ) : Except Halt (Reply τ) :=
  transfer tables fd readAllowed (some offset) pread

def toplevelPwrite (offset : ℤ) (pwrite : ℤ → ℤ → ℤ × τ) : Except Halt (Reply τ) :=
  transfer tables fd writeAllowed (some offset) pwrite

def toplevelFtruncateSize (length : ℤ) (stat : ℤ → ℤ × Stat) (ftruncateSize : ℤ → ℤ × τ) :
    Except Halt (Reply τ) :=
  match tables.entry fd, tables.ofd fd with
  | none, _ => .ok (.fail tables ebadf)
  | some entry, ofd =>
    -- `is_dir`
    let (ret, st) := stat entry.inode
    if ret ≠ 0 then .error .panic
    else if st.isDir then .ok (.fail tables eisdir)
    else
      match ofd with
      | none => .error .panic
      | some ofd =>
        let flags := ofd.flags &&& oAccmode
        if flags ≠ oWronly ∧ flags ≠ oRdwr then .ok (.fail tables einval)
        else
          let (ret, below) := ftruncateSize entry.inode
          if 0 ≤ ret then
            if length < ofd.offset then
              let (ret, tables) := tables.setOffset entry.openFileDescriptionId (length + 1)
              .ok ⟨ret, none, tables, some below⟩
            else .ok ⟨ret, none, tables, some below⟩
          else .ok ⟨-1, some (-ret), tables, some below⟩

def toplevelClose (close : ℤ → BitVec 32 → ℤ × τ) : Except Halt (Reply τ) :=
  match tables.entry fd, tables.ofd fd with
  | none, _ => .ok (.fail tables ebadf)
  | some _, none => .error .panic
  | some entry, some ofd =>
    let (ret, below) := close entry.inode ofd.flags
    if ret < 0 then .ok ⟨-1, some (-ret), tables, some below⟩
    else
      let (ret, tables) := tables.releaseOfd entry.openFileDescriptionId
      if ret = 0 then
        let (ret, tables) := tables.freeHandle fd
        .ok ⟨ret, none, tables, some below⟩
      else .error .panic

/-- The calls that `toplevel_open` makes for its path. -/
structure OpenCalls (τ : Type) where
  /-- The directory. -/
  parentInodeByPath : Except Halt ℤ
  /-- The name in it. -/
  nameFromPath : Except Halt (Option (List Char))
  /-- The file. -/
  inodeByPath : Except Halt ℤ
  /-- The `open` below, of an inode or of a name in it. -/
  lowlevelOpen : ℤ → Option (List Char) → ℤ × τ
  /-- The inode of a file that was created. -/
  inodeByPathAfter : τ → Except Halt ℤ

namespace OpenCalls

variable (calls : OpenCalls τ)

/-- The `open` below succeeds, and a file that was created is found. -/
def Ends (inode : ℤ) (opened : ℤ × τ) : Prop :=
  0 ≤ opened.1 ∧
    (inode ≤ 0 → ∃ found, calls.inodeByPathAfter opened.2 = .ok found ∧ found ≠ -2)

/-- The calls return what `toplevel_open` needs to ask for a handle. -/
def Succeed (oflag : BitVec 32) : Prop :=
  ∃ parent, calls.parentInodeByPath = .ok parent ∧ parent ≠ -2 ∧
    if checkFlag oflag oCreat then
      ∃ name, calls.nameFromPath = .ok (some name) ∧
        calls.Ends 0 (calls.lowlevelOpen parent (some name))
    else
      ∃ inode, calls.inodeByPath = .ok inode ∧ inode ≠ -2 ∧
        calls.Ends inode (calls.lowlevelOpen inode none)

end OpenCalls

/-- The description and the handle that `toplevel_open` asks for. -/
def openTables (oflag : BitVec 32) (inode : ℤ) : ℤ × Tables :=
  let (id, tables) := tables.getnewOfd oflag
  let (ret, tables) := tables.allocateHandle ⟨inode, id⟩
  if ret < 0 then (-1, (tables.releaseOfd id).2) else (ret, tables)

/-- What `toplevel_open` does when the `open` below has returned. -/
def openDescriptor (oflag : BitVec 32) (calls : OpenCalls τ) (inode ret : ℤ) (below : τ) :
    Except Halt (Reply τ) := do
  if ret < 0 then
    return ⟨ret, some (-ret), tables, some below⟩
  let inode ← if inode ≤ 0 then calls.inodeByPathAfter below else pure inode
  if inode = -2 then
    return ⟨-1, some enoent, tables, some below⟩
  let (ret, tables) := openTables tables oflag inode
  return ⟨ret, if ret < 0 then some enfile else none, tables, some below⟩

def toplevelOpen (oflag : BitVec 32) (calls : OpenCalls τ) : Except Halt (Reply τ) := do
  let parentInode ← calls.parentInodeByPath
  if parentInode = -2 then
    return .fail tables enoent
  if checkFlag oflag oCreat then
    match ← calls.nameFromPath with
    | none => return .fail tables enotdir
    | some name =>
      -- create file by name in directory
      let (ret, below) := calls.lowlevelOpen parentInode (some name)
      openDescriptor tables oflag calls 0 ret below
  else
    -- open file directly by inode
    let inode ← calls.inodeByPath
    if inode = -2 then
      return .fail tables enoent
    let (ret, below) := calls.lowlevelOpen inode none
    openDescriptor tables oflag calls inode ret below

end Zfs.Zrt
