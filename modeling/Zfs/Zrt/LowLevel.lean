import Zfs.Zrt.Code

/-!
# The low level file system

The operations of `zfs_filesystem.c`.  What their calls return is in an `Outcome`; an operation
returns its value with the trace of what it did to the teardown lock and the holds of vnodes, and of
the permissions it asked for.
-/

namespace Zfs.Zrt

def eexist : ℕ := 17

def enametoolong : ℤ := 36

def enotempty : ℕ := 39

def eloop : ℤ := 40

def eoverflow : ℤ := 75

def oLargefile : BitVec 32 := 0x8000

def oDirectory : BitVec 32 := 0x10000

def oNofollow : BitVec 32 := 0x20000

def maxnamelen : ℕ := 256

/-- `MAXOFF32_T`. -/
def maxoff32 : ℕ := 0x7fffffff

def vread : BitVec 32 := 0x100

def vwrite : BitVec 32 := 0x80

def vexec : BitVec 32 := 0x40

/-- `flags & flag`, as a condition. -/
def has (flags flag : BitVec 32) : Bool := flags &&& flag != 0

/-- What an operation does to the file system around its calls. -/
inductive Event where
  /-- `rrw_enter` of the teardown lock, in `ZFS_ENTER`. -/
  | enter
  /-- `ZFS_EXIT`. -/
  | exit
  /-- A call has returned a held vnode. -/
  | hold (vp : ℤ)
  /-- `VN_RELE`. -/
  | rele (vp : ℤ)
  /-- `VOP_ACCESS`. -/
  | access (vp : ℤ) (mode : BitVec 32)
  deriving DecidableEq

/-- What the calls of an operation return; an error is positive. -/
structure Outcome where
  /-- `z_unmounted`. -/
  unmounted : Bool
  /-- `zfs_zget` of the inode, or of the first one. -/
  zget : ℕ
  /-- `zfs_zget` of the second inode. -/
  zget2 : ℕ
  /-- The `VOP_` call that the operation is for. -/
  vop : ℕ
  /-- `VOP_LOOKUP` of a name that has just been made. -/
  lookup : ℕ
  access : ℕ
  getattr : ℕ
  open_ : ℕ
  setattr : ℕ
  /-- The vnode that `zfs_lookup` finds, if any. -/
  found : Option ℤ
  /-- The vnode that is made. -/
  made : ℤ
  /-- The type of the vnode. -/
  vtype : Vtype
  vaSize : ℕ
  /-- The bytes that were moved, and `uio_loffset` after `VOP_READDIR`. -/
  moved : ℤ
  /-- The offset after a directory was read. -/
  loffset : ℤ

/-- Every call succeeds, on a directory. -/
def success : Outcome where
  unmounted := false
  zget := 0
  zget2 := 0
  vop := 0
  lookup := 0
  access := 0
  getattr := 0
  open_ := 0
  setattr := 0
  found := none
  made := 6
  vtype := .vdir
  vaSize := 0
  moved := 0
  loffset := 0

/-- The trace of an operation, its `error`, and its value. -/
structure Done where
  /-- What was done. -/
  trace : List Event
  error : ℤ
  ret : ℤ

/-- Do something first. -/
@[simp] def emit (events : List Event) (done : Done) : Done :=
  { done with trace := events ++ done.trace }

/-- Return `INVERT_SIGN(error)`. -/
@[simp] def inverted (events : List Event) (error : ℤ) : Done := ⟨events, error, -error⟩

variable (o : Outcome)

def zfsEnter (rest : Done) : Done :=
  emit [.enter] (if o.unmounted then ⟨[.exit], eio, eio⟩ else rest)

/-- `zfs_zget`; on an error the operation lets go of what it has. -/
def zfsZget (error : ℕ) (inode : ℤ) (cleanup : List Event) (sign : ℤ) (rest : Done) : Done :=
  if error ≠ 0 then
    let error : ℤ := if error = eexist then enoent else error
    ⟨cleanup, error, sign * error⟩
  else emit [.hold inode] rest

/-- `internal_stat`: the error is inverted already. -/
def internalStat : ℤ := -o.getattr

/-- An operation that has a name checks its length first. -/
def named (name : List Char) (rest : Done) : Done :=
  if maxnamelen ≤ name.length then inverted [] enametoolong else rest

def zfsLookup (parent : ℤ) (name : List Char) : Done :=
  named name <| zfsEnter o <| zfsZget o.zget parent [.exit] 1 <|
    if o.vop ≠ 0 then inverted [.rele parent, .exit] o.vop
    else
      match o.found with
      | none => inverted [.rele parent, .exit] 0
      | some vp => emit [.hold vp] <|
        if internalStat o = 0 then ⟨[], 0, vp⟩
        else inverted [.rele vp, .rele parent, .exit] (internalStat o)

def zfsStat (inode : ℤ) : Done :=
  zfsEnter o <| zfsZget o.zget inode [.exit] (-1) <| inverted [.rele inode, .exit] (internalStat o)

/-- What follows a call that has made a name: the vnodes are released. -/
def madeName (error : ℤ) (held : List Event) : Done :=
  if error ≠ 0 then inverted (held ++ [.exit]) error
  else
    let error := internalStat o
    ⟨[.hold o.made, .rele o.made] ++ held ++ [.exit], error, if error = 0 then o.made else -error⟩

def zfsMkdir (parent : ℤ) (name : List Char) : Done :=
  named name <| zfsEnter o <| zfsZget o.zget parent [.exit] (-1) <| madeName o o.vop [.rele parent]

def zfsRmdir (parent : ℤ) (name : List Char) : Done :=
  named name <| zfsEnter o <| zfsZget o.zget parent [.exit] 1 <|
    inverted [.rele parent, .exit] (if o.vop = eexist then enotempty else o.vop)

/-- `zfs_pread` and `zfs_pwrite`. -/
def zfsTransfer (inode : ℤ) : Done :=
  zfsEnter o <| zfsZget o.zget inode [.exit] (-1) <|
    ⟨[.exit], o.vop, if 0 ≤ o.moved ∧ o.vop = 0 then o.moved else -o.vop⟩

def zfsGetdents (inode : ℤ) : Done :=
  zfsEnter o <| zfsZget o.zget inode [.exit] (-1) <|
    if o.vtype ≠ .vdir then inverted [] enotdir
    else zfsEnter o ⟨[.exit], o.vop, if 0 < o.loffset then o.moved else -o.vop⟩

/-- The end of `zfs_open` and `zfs_opendir`. -/
def openOut (vp error ret : ℤ) : Done :=
  ⟨(if error ≠ 0 then [.rele vp] else []) ++ [.exit], error, ret⟩

def zfsOpendir (inode : ℤ) : Done :=
  zfsEnter o <| zfsZget o.zget inode [.exit] (-1) <|
    if o.vtype ≠ .vdir then openOut inode enotdir (-enotdir)
    else emit [.access inode (vread ||| vexec)] <|
      if o.access ≠ 0 then openOut inode o.access (-o.access)
      else openOut inode o.open_ (-o.open_)

/-- The mode of `get_zfs_flags_from_standard_open_flags_mode`. -/
def zfsMode (fflags : BitVec 32) : BitVec 32 :=
  if has fflags oWronly then vwrite else if has fflags oRdwr then vread ||| vwrite else vread

/-- `zfs_open` from `VOP_OPEN` on. -/
def zfsOpenVnode (vp : ℤ) (fflags : BitVec 32) : Done :=
  let create := has fflags oCreat
  let error : ℤ :=
    if has fflags oNofollow ∧ o.vtype = .vlnk then eloop
    else if o.open_ ≠ 0 then o.open_
    else if create then internalStat o
    else 0
  openOut vp error (if create then vp else -error)

/-- The error for a file that is too large without `O_LARGEFILE`. -/
def sizeError (fflags : BitVec 32) : ℤ :=
  if has fflags oLargefile = false ∧ o.vtype = .vreg then
    if o.getattr ≠ 0 then o.getattr else if maxoff32 < o.vaSize then eoverflow else 0
  else 0

def zfsOpen (parent : ℤ) (name : Option (List Char)) (fflags : BitVec 32) : Done :=
  if has fflags oDirectory then zfsOpendir o parent
  else named (name.getD []) <| zfsEnter o <| zfsZget o.zget parent [.exit] (-1) <|
    if has fflags oCreat then
      if o.vop ≠ 0 then openOut parent o.vop parent
      else emit [.hold o.made, .rele parent] (zfsOpenVnode o o.made fflags)
    else if sizeError o fflags ≠ 0 then openOut parent (sizeError o fflags) (-sizeError o fflags)
    else emit [.access parent (zfsMode fflags)] <|
      if o.access ≠ 0 then openOut parent o.access (-o.access) else zfsOpenVnode o parent fflags

def zfsClose (inode : ℤ) : Done :=
  zfsEnter o <| zfsEnter o <| zfsZget o.zget inode [.exit] (-1) <| inverted [.rele inode, .exit] 0

def zfsReadlink (inode : ℤ) : Done :=
  zfsEnter o <| zfsZget o.zget inode [.exit] (-1) <|
    ⟨[.rele inode, .exit], o.vop, if o.vop = 0 then o.moved else -o.vop⟩

def zfsSymlink (parent : ℤ) (name : List Char) : Done :=
  named name <| zfsEnter o <| zfsZget o.zget parent [.exit] (-1) <|
    madeName o (if o.vop ≠ 0 then o.vop else o.lookup) [.rele parent]

def zfsUnlink (parent : ℤ) (name : List Char) : Done :=
  named name <| zfsEnter o <| zfsZget o.zget parent [.exit] (-1) <|
    inverted [.rele parent, .exit] o.vop

def zfsLink (inode newParent : ℤ) (newname : List Char) : Done :=
  named newname <| zfsEnter o <| zfsZget o.zget inode [.exit] (-1) <|
    zfsZget o.zget2 newParent [.rele inode, .exit] 1 <|
      madeName o (if o.vop ≠ 0 then o.vop else o.lookup) [.rele newParent, .rele inode]

/-- The permission that `zfs_access` asks for. -/
def accessMode (mask : BitVec 32) : BitVec 32 :=
  (if has mask 4 then vread else 0) ||| (if has mask 2 then vwrite else 0) |||
    if has mask 1 then vexec else 0

def zfsAccess (inode : ℤ) (mask : BitVec 32) : Done :=
  zfsEnter o <| zfsZget o.zget inode [.exit] (-1) <|
    inverted [.access inode (accessMode mask), .rele inode, .exit] o.access

def zfsRename (parent : ℤ) (name : List Char) (newParent : ℤ) (newname : List Char) : Done :=
  named name <| named newname <| zfsEnter o <| zfsZget o.zget parent [.exit] (-1) <|
    zfsZget o.zget2 newParent [.rele parent, .exit] (-1) <|
      inverted [.rele parent, .rele newParent, .exit] o.vop

/-- `zfs_ftruncate_size`; `release` is never set. -/
def zfsFtruncateSize (inode : ℤ) : Done :=
  zfsEnter o <| zfsEnter o <| zfsZget o.zget inode [.exit] (-1) <|
    inverted [.exit] <|
      if o.vtype ≠ .vreg then einval
      else if o.vop ≠ 0 then o.vop
      else if o.setattr ≠ 0 then o.setattr
      else internalStat o

/-- An operation with its arguments. -/
inductive LowLevelCall where
  | lookup (parent : ℤ) (name : List Char)
  | stat (inode : ℤ)
  | mkdir (parent : ℤ) (name : List Char)
  | rmdir (parent : ℤ) (name : List Char)
  | pread (inode : ℤ)
  | pwrite (inode : ℤ)
  | getdents (inode : ℤ)
  | open_ (parent : ℤ) (name : Option (List Char)) (fflags : BitVec 32)
  | close (inode : ℤ)
  | readlink (inode : ℤ)
  | symlink (parent : ℤ) (name : List Char)
  | unlink (parent : ℤ) (name : List Char)
  | link (inode newParent : ℤ) (newname : List Char)
  | access (inode : ℤ) (mask : BitVec 32)
  | rename (parent : ℤ) (name : List Char) (newParent : ℤ) (newname : List Char)
  | ftruncateSize (inode : ℤ)

/-- The operation. -/
def LowLevelCall.run : LowLevelCall → Done
  | lookup parent name => zfsLookup o parent name
  | stat inode => zfsStat o inode
  | mkdir parent name => zfsMkdir o parent name
  | rmdir parent name => zfsRmdir o parent name
  | pread inode | pwrite inode => zfsTransfer o inode
  | getdents inode => zfsGetdents o inode
  | open_ parent name fflags => zfsOpen o parent name fflags
  | close inode => zfsClose o inode
  | readlink inode => zfsReadlink o inode
  | symlink parent name => zfsSymlink o parent name
  | unlink parent name => zfsUnlink o parent name
  | link inode newParent newname => zfsLink o inode newParent newname
  | access inode mask => zfsAccess o inode mask
  | rename parent name newParent newname => zfsRename o parent name newParent newname
  | ftruncateSize inode => zfsFtruncateSize o inode

end Zfs.Zrt
