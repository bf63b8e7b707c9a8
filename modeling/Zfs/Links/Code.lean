import Zfs.Machine

/-!
# Links of a file system

Directory entries, link counts and the unlinked set, as the operations of a file system change them
in their transactions.  Checks of permissions, mounts and space, which only make calls fail, are
left out.  Operations on ZAP objects succeed, and names are compared exactly.
-/

namespace Zfs

def eexist : ℕ := 17

def enotdir : ℕ := 20

def eisdir : ℕ := 21

namespace Links

/-- `znode_t`, with the fields of its `znode_phys_t`.  No directory gets 2^64 entries, so that the
counts do not wrap around. -/
structure Znode where
  /-- The type of the vnode. -/
  vType : Vtype
  /-- `ZFS_XATTR` in `zp_flags`. -/
  isXattr : Bool
  /-- Whether the object is to be deleted. -/
  zUnlinked : Bool
  /-- The number of links. -/
  zpLinks : ℕ
  /-- The size of a directory; that of another object is not followed. -/
  zpSize : ℕ
  /-- The directory of the object. -/
  zpParent : ℕ
  /-- The extended attribute directory, or zero. -/
  zpXattr : ℕ

/-- The object is a directory. -/
def Znode.isDir (znode : Znode) : Bool := decide (znode.vType = .vdir)

/-- An entry of a directory. -/
structure Dirent (Name : Type) where
  /-- The directory. -/
  dzp : ℕ
  name : Name
  /-- The object. -/
  zp : ℕ

/-- The entry of a name in a directory. -/
def Dirent.isAt {Name : Type} [DecidableEq Name] (dzp : ℕ) (name : Name) (entry : Dirent Name) :
    Bool := decide (entry.dzp = dzp) && decide (entry.name = name)

/-- The objects of a file system. -/
structure Zfsvfs (Name : Type) where
  /-- The objects. -/
  znode : ℕ → Option Znode
  /-- The entries of all directories. -/
  dirents : List (Dirent Name)
  /-- The objects to be deleted. -/
  zUnlinkedobj : List ℕ
  zRoot : ℕ

namespace Zfsvfs

variable {Name : Type} [DecidableEq Name] (fs : Zfsvfs Name)

/-- Change a znode. -/
def modify (zp : ℕ) (change : Znode → Znode) : Zfsvfs Name :=
  { fs with znode := Function.update fs.znode zp ((fs.znode zp).map change) }

/-- Whether an object is a directory. -/
def isDir (zp : ℕ) : Bool := (fs.znode zp).any (·.isDir)

/-- Whether an object is in attribute space. -/
def isXattr (zp : ℕ) : Bool := (fs.znode zp).any (·.isXattr)

/-- The extended attribute directory of an object, or zero. -/
def zpXattr (zp : ℕ) : ℕ := ((fs.znode zp).map (·.zpXattr)).getD 0

/-- `zap_lookup` in a directory. -/
def zapLookup (dzp : ℕ) (name : Name) : Option ℕ :=
  (fs.dirents.find? (Dirent.isAt dzp name)).map (·.zp)

/-- `zap_add` to a directory. -/
def zapAdd (dzp : ℕ) (name : Name) (zp : ℕ) : Zfsvfs Name :=
  { fs with dirents := ⟨dzp, name, zp⟩ :: fs.dirents }

/-- `zap_remove` from a directory. -/
def zapRemove (dzp : ℕ) (name : Name) : Zfsvfs Name :=
  { fs with dirents := fs.dirents.eraseP (Dirent.isAt dzp name) }

def zfsUnlinkedAdd (zp : ℕ) : Zfsvfs Name := { fs with zUnlinkedobj := zp :: fs.zUnlinkedobj }

/-- `zfs_dirent_lock`: the object of a name, if there is one. -/
def zfsDirentLock (dzp : ℕ) (name : Name) : Except ℕ (Option ℕ) :=
  match fs.znode dzp with
  | none => .error enoent
  | some znode =>
    if znode.isDir = false then .error enotdir
    else if znode.zUnlinked then .error enoent
    else .ok (fs.zapLookup dzp name)

/-- `zfs_dirent_lock` with `ZNEW`. -/
def zfsDirentLockNew (dzp : ℕ) (name : Name) : Except ℕ Unit :=
  match fs.zfsDirentLock dzp name with
  | .error error => .error error
  | .ok (some _) => .error eexist
  | .ok none => .ok ()

/-- `zfs_dirent_lock` with `ZEXISTS`. -/
def zfsDirentLockExists (dzp : ℕ) (name : Name) : Except ℕ ℕ :=
  match fs.zfsDirentLock dzp name with
  | .error error => .error error
  | .ok none => .error enoent
  | .ok (some zp) => .ok zp

/-- The znode that `zfs_mknode` makes. -/
def newZnode (dzp : ℕ) (vaType : Vtype) (isXattr : Bool) : Znode where
  vType := vaType
  isXattr := isXattr
  zUnlinked := false
  zpLinks := if vaType = .vdir then (if isXattr then 2 else 1) else 0
  zpSize := if vaType = .vdir then 2 else 0
  zpParent := dzp
  zpXattr := 0

/-- `zfs_mknode`, with `IS_XATTR` for an attribute directory. -/
def zfsMknode (dzp obj : ℕ) (vaType : Vtype) (flag : Bool) : Zfsvfs Name :=
  { fs with
    znode := Function.update fs.znode obj
      (some (newZnode dzp vaType (fs.isXattr dzp || flag))) }

def zfsLinkCreate (dzp : ℕ) (name : Name) (zp : ℕ) (zrenaming : Bool) :
    Except ℕ (Zfsvfs Name) :=
  if zrenaming = false ∧ (fs.znode zp).any (·.zUnlinked) then .error enoent
  else
    let zpIsDir := (fs.isDir zp).toNat
    let fs := fs.modify zp fun znode => { znode with
      zpLinks := if zrenaming then znode.zpLinks else znode.zpLinks + 1, zpParent := dzp }
    let fs := fs.modify dzp fun znode => { znode with
      zpSize := znode.zpSize + 1, zpLinks := znode.zpLinks + zpIsDir }
    .ok (fs.zapAdd dzp name zp)

/-- A znode loses a name, in `zfs_link_destroy` without `ZRENAMING`. -/
def loseLink (znode : Znode) : Znode :=
  let zpIsDir := znode.isDir.toNat
  -- A count that is too low is reported and raised.
  let zpLinks := if znode.zpLinks ≤ zpIsDir then zpIsDir + 1 else znode.zpLinks
  if zpLinks - 1 = zpIsDir then { znode with zUnlinked := true, zpLinks := 0 }
  else { znode with zpLinks := zpLinks - 1 }

/-- `zfs_link_destroy`, and whether the object is unlinked. -/
def zfsLinkDestroy (dzp : ℕ) (name : Name) (zp : ℕ) (zrenaming : Bool) :
    Except ℕ (Zfsvfs Name × Bool) :=
  if zrenaming = false ∧ (fs.znode zp).any (fun znode => znode.isDir && znode.zpSize != 2) then
    .error eexist
  else
    let zpIsDir := (fs.isDir zp).toNat
    let fs := if zrenaming then fs else fs.modify zp loseLink
    let unlinked := !zrenaming && (fs.znode zp).any (·.zUnlinked)
    let fs := fs.modify dzp fun znode => { znode with
      zpSize := znode.zpSize - 1, zpLinks := znode.zpLinks - zpIsDir }
    .ok (fs.zapRemove dzp name, unlinked)

/-- `zfs_link_destroy` without `unlinkedp`. -/
def zfsLinkDestroyNull (dzp : ℕ) (name : Name) (zp : ℕ) (zrenaming : Bool) :
    Except ℕ (Zfsvfs Name) :=
  match fs.zfsLinkDestroy dzp name zp zrenaming with
  | .error error => .error error
  | .ok (fs, unlinked) => .ok (if unlinked then fs.zfsUnlinkedAdd zp else fs)

/-- The attribute directory of a deleted znode is marked for deletion. -/
def unlinkXattr (xzp : ℕ) : Zfsvfs Name :=
  if xzp = 0 then fs
  else
    (fs.modify xzp fun znode => { znode with zUnlinked := true, zpLinks := 0 }).zfsUnlinkedAdd xzp

/-- `zfs_znode_delete`: the object with its contents. -/
def zfsZnodeDelete (zp : ℕ) : Zfsvfs Name :=
  { fs with
    znode := Function.update fs.znode zp none
    dirents := fs.dirents.filter fun entry => decide (entry.dzp ≠ zp) }

/-- `zfs_create_fs`: the root directory. -/
def zfsCreateFs (root : ℕ) : Zfsvfs Name where
  znode := Function.update (fun _ => none) root (some
    { vType := .vdir, isXattr := false, zUnlinked := false, zpLinks := 2, zpSize := 2
      zpParent := root, zpXattr := 0 })
  dirents := []
  zUnlinkedobj := []
  zRoot := root

/-- `zfs_create`, with the object for a new file. -/
def zfsCreate (dzp : ℕ) (name : Name) (vaType : Vtype) (obj : ℕ) : Except ℕ (Zfsvfs Name) :=
  match fs.zfsDirentLock dzp name with
  | .error error => .error error
  | .ok (some _) => .ok fs
  | .ok none =>
    if fs.isXattr dzp ∧ vaType ≠ .vreg then .error einval
    else (fs.zfsMknode dzp obj vaType false).zfsLinkCreate dzp name obj false

def zfsMkdir (dzp : ℕ) (name : Name) (obj : ℕ) : Except ℕ (Zfsvfs Name) :=
  if fs.isXattr dzp then .error einval
  else do
    fs.zfsDirentLockNew dzp name
    (fs.zfsMknode dzp obj .vdir false).zfsLinkCreate dzp name obj false

def zfsSymlink (dzp : ℕ) (name : Name) (obj : ℕ) : Except ℕ (Zfsvfs Name) := do
  fs.zfsDirentLockNew dzp name
  (fs.zfsMknode dzp obj .vlnk false).zfsLinkCreate dzp name obj false

/-- `zfs_make_xattrdir`, of an object that has no attributes yet. -/
def zfsMakeXattrdir (zp obj : ℕ) : Except ℕ (Zfsvfs Name) :=
  match fs.znode zp with
  | none => .error enoent
  | some znode =>
    if znode.isXattr then .error einval
    else if znode.zpXattr ≠ 0 then .error eexist
    else
      .ok ((fs.zfsMknode zp obj .vdir true).modify zp fun znode => { znode with zpXattr := obj })

/-- `zfs_link`, of an object that its caller holds. -/
def zfsLink (tdzp szp : ℕ) (name : Name) : Except ℕ (Zfsvfs Name) :=
  match fs.znode szp with
  | none => .error enoent
  | some znode =>
    if znode.isXattr ≠ fs.isXattr tdzp then .error einval
    else if znode.isDir then .error eperm
    else do
      fs.zfsDirentLockNew tdzp name
      fs.zfsLinkCreate tdzp name szp false

/-- `zfs_remove`; `mayDeleteNow` is about holds and size. -/
def zfsRemove (dzp : ℕ) (name : Name) (mayDeleteNow : Bool) : Except ℕ (Zfsvfs Name) := do
  let zp ← fs.zfsDirentLockExists dzp name
  if fs.isDir zp then .error eperm
  else do
    let (fs, unlinked) ← fs.zfsLinkDestroy dzp name zp false
    if unlinked && mayDeleteNow then
      let fs := fs.unlinkXattr (fs.zpXattr zp)
      let fs := fs.modify zp fun znode => { znode with zpXattr := 0 }
      return fs.zfsZnodeDelete zp
    else if unlinked then return fs.zfsUnlinkedAdd zp
    else return fs

def zfsRmdir (dzp : ℕ) (name : Name) : Except ℕ (Zfsvfs Name) := do
  let zp ← fs.zfsDirentLockExists dzp name
  if fs.isDir zp = false then .error enotdir
  else fs.zfsLinkDestroyNull dzp name zp false

/-- The transaction of `zfs_rename` after the target has gone. -/
def moveEntry (sdzp : ℕ) (snm : Name) (tdzp : ℕ) (tnm : Name) (szp : ℕ) :
    Except ℕ (Zfsvfs Name) := do
  let fs ← fs.zfsLinkCreate tdzp tnm szp true
  fs.zfsLinkDestroyNull sdzp snm szp true

/-- `zfs_rename`, with what `zfs_rename_lock` returns. -/
def zfsRename (sdzp : ℕ) (snm : Name) (tdzp : ℕ) (tnm : Name) (zfsRenameLock : ℕ) :
    Except ℕ (Zfsvfs Name) :=
  if fs.isXattr tdzp ≠ fs.isXattr sdzp then .error einval
  else if sdzp = tdzp ∧ snm = tnm then .ok fs
  else do
    let szp ← fs.zfsDirentLockExists sdzp snm
    let target ← fs.zfsDirentLock tdzp tnm
    if fs.isDir szp ∧ zfsRenameLock ≠ 0 then .error zfsRenameLock
    else match target with
      | none => fs.moveEntry sdzp snm tdzp tnm szp
      | some tzp =>
        if fs.isDir szp ∧ fs.isDir tzp = false then .error enotdir
        else if fs.isDir szp = false ∧ fs.isDir tzp then .error eisdir
        else if szp = tzp then .ok fs
        else do
          let fs ← fs.zfsLinkDestroyNull tdzp tnm tzp false
          fs.moveEntry sdzp snm tdzp tnm szp

/-- The loop of `zfs_purgedir`, with the number of names skipped. -/
def purgeNames (dzp : ℕ) (assigned : Name → Bool) : List Name → Zfsvfs Name →
    List (Zfsvfs Name) × ℕ
  | [], _ => ([], 0)
  | name :: names, fs =>
    let skip := purgeNames dzp assigned names fs
    match fs.zapLookup dzp name with
    | none => (skip.1, skip.2 + 1)
    | some zp =>
      if assigned name = false then (skip.1, skip.2 + 1)
      else match fs.zfsLinkDestroyNull dzp name zp false with
        | .error _ => (skip.1, skip.2 + 1)
        | .ok fs =>
          let rest := purgeNames dzp assigned names fs
          (fs :: rest.1, rest.2)

def zfsPurgedir (dzp : ℕ) (assigned : Name → Bool) : List (Zfsvfs Name) × ℕ :=
  purgeNames dzp assigned
    ((fs.dirents.filter fun entry => decide (entry.dzp = dzp)).map (·.name)) fs

/-- The final transaction of `zfs_rmnode`. -/
def rmnodeFinal (zp : ℕ) : Zfsvfs Name :=
  let fs := fs.unlinkXattr (fs.zpXattr zp)
  { fs with zUnlinkedobj := fs.zUnlinkedobj.erase zp }.zfsZnodeDelete zp

/-- `zfs_rmnode`: the states after its transactions. -/
def zfsRmnode (zp : ℕ) (assigned : Name → Bool) : List (Zfsvfs Name) :=
  if fs.isDir zp && fs.isXattr zp then
    let purged := fs.zfsPurgedir zp assigned
    if purged.2 ≠ 0 then purged.1
    else purged.1 ++ [(purged.1.getLastD fs).rmnodeFinal zp]
  else [fs.rmnodeFinal zp]

/-- `zfs_zinactive`: an unused znode without links is deleted. -/
def zfsZinactive (zp : ℕ) (assigned : Name → Bool) : List (Zfsvfs Name) :=
  if (fs.znode zp).any (·.zUnlinked) then fs.zfsRmnode zp assigned else []

end Zfsvfs

end Links

end Zfs
