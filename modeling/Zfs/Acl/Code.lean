import Zfs.Machine

/-!
# Access control lists

The entries of an access control list as they lie in a node of it, the check of an entry, and the
evaluation of a list for a request.
-/

namespace Zfs

def erofs : ℕ := 30

namespace Acl

/-- `ACE_READ_DATA`, also `ACE_LIST_DIRECTORY`. -/
def aceReadData : BitVec 32 := 0x1

/-- `ACE_WRITE_DATA`, also `ACE_ADD_FILE`. -/
def aceWriteData : BitVec 32 := 0x2

/-- `ACE_APPEND_DATA`, also `ACE_ADD_SUBDIRECTORY`. -/
def aceAppendData : BitVec 32 := 0x4

def aceWriteNamedAttrs : BitVec 32 := 0x10

def aceExecute : BitVec 32 := 0x20

def aceDeleteChild : BitVec 32 := 0x40

def aceWriteAttributes : BitVec 32 := 0x100

def aceDelete : BitVec 32 := 0x10000

def aceWriteAcl : BitVec 32 := 0x40000

def aceWriteOwner : BitVec 32 := 0x80000

def writeMaskData : BitVec 32 := aceWriteData ||| aceAppendData ||| aceWriteNamedAttrs

def writeMask : BitVec 32 :=
  writeMaskData ||| aceWriteAttributes ||| aceWriteAcl ||| aceWriteOwner ||| aceDelete |||
    aceDeleteChild

def aceFileInheritAce : BitVec 16 := 0x1

def aceDirectoryInheritAce : BitVec 16 := 0x2

def aceNoPropagateInheritAce : BitVec 16 := 0x4

def aceInheritOnlyAce : BitVec 16 := 0x8

def aceIdentifierGroup : BitVec 16 := 0x40

def aceOwner : BitVec 16 := 0x1000

def aceGroup : BitVec 16 := 0x2000

def aceEveryone : BitVec 16 := 0x4000

def owningGroup : BitVec 16 := aceGroup ||| aceIdentifierGroup

def aceTypeFlags : BitVec 16 := aceOwner ||| aceGroup ||| aceEveryone ||| aceIdentifierGroup

def allow : BitVec 16 := 0

def deny : BitVec 16 := 1

def aceSystemAuditAceType : BitVec 16 := 2

/-- The four object types, from `ACE_ACCESS_ALLOWED_OBJECT_ACE_TYPE` on. -/
def isObjectType (type : BitVec 16) : Bool := type == 5 || type == 6 || type == 7 || type == 8

def maxAceType : BitVec 16 := 0x10

def zfsReadonly : BitVec 64 := 0x0000000100000000

def zfsImmutable : BitVec 64 := 0x0000001000000000

def zfsNounlink : BitVec 64 := 0x0000002000000000

def zfsAvQuarantined : BitVec 64 := 0x0000020000000000

def zfsInheritAce : BitVec 64 := 0x2

def zfsAclObjAce : BitVec 64 := 0x8

def idmapWkCreatorOwnerUid : BitVec 32 := 2147483648

/-- `ZFS_ACL_VERSION_INITIAL` and `ZFS_ACL_VERSION_FUID`. -/
inductive AclVersion where
  | initial
  | fuid
  deriving DecidableEq

/-- A `zfs_oldace_t`, or eight bytes of an entry without `zFuid`. -/
structure AceUnit where
  /-- The user or group. -/
  zFuid : BitVec 32
  /-- The permissions. -/
  zAccessMask : BitVec 32
  /-- The kind of the entry and how it is inherited. -/
  zFlags : BitVec 16
  /-- Allow, deny, audit or alarm. -/
  zType : BitVec 16
  deriving DecidableEq

namespace AceUnit

variable (unit : AceUnit)

/-- What an entry is about: its flags within `ACE_TYPE_FLAGS`. -/
def entryType : BitVec 16 := unit.zFlags &&& aceTypeFlags

/-- An entry of `owner@`, `group@` or `everyone@`. -/
def isAbstract : Bool :=
  unit.entryType == aceOwner || unit.entryType == owningGroup || unit.entryType == aceEveryone

/-- Eight bytes as a number. -/
def toFuid : BitVec 64 := unit.zAccessMask ++ unit.zFlags ++ unit.zType

end AceUnit

/-- `ace_abstract_size`: the bytes of an entry without an identity. -/
def AclVersion.aceAbstractSize : AclVersion → ℕ
  | .initial => 12
  | .fuid => 8

/-- `ace_size`: the bytes of an entry. -/
def AclVersion.aceSize : AclVersion → AceUnit → ℕ
  | .initial, _ => 12
  | .fuid, unit =>
    if isObjectType unit.zType then 48
    else if (unit.zType == allow || unit.zType == deny) && unit.isAbstract then 8
    else 16

/-- An entry in a node: its header and the rest of its bytes. -/
structure Ace (version : AclVersion) where
  hdr : AceUnit
  /-- The bytes behind the header. -/
  rest : List AceUnit
  /-- The bytes are as many as the header says. -/
  sized : (rest.length + 1) * version.aceAbstractSize = version.aceSize hdr

def Ace.aceWhoGet : {version : AclVersion} → Ace version → BitVec 64
  | .initial, ace => ace.hdr.zFuid.setWidth 64
  | .fuid, ace => if ace.hdr.isAbstract then -1 else (ace.rest.headD ace.hdr).toFuid

/-- `zfs_ace_valid`: the hints, and whether the entry is valid. -/
def zfsAceValid (objType : Vtype) (version : AclVersion) (zHints : BitVec 64)
    (type iflags : BitVec 16) : BitVec 64 × Bool :=
  let entryType := iflags &&& aceTypeFlags
  if ¬ (entryType = aceOwner ∨ entryType = owningGroup ∨ entryType = aceIdentifierGroup ∨
      entryType = aceEveryone ∨ entryType = 0) then (zHints, false)
  else if type ≠ allow ∧ maxAceType < type then (zHints, false)
  else if isObjectType type ∧ version = .initial then (zHints, false)
  else
    let zHints := if isObjectType type then zHints ||| zfsAclObjAce else zHints
    let inherits := iflags &&& (aceFileInheritAce ||| aceDirectoryInheritAce)
    let zHints := if objType = .vdir ∧ inherits ≠ 0 then zHints ||| zfsInheritAce else zHints
    if iflags &&& (aceInheritOnlyAce ||| aceNoPropagateInheritAce) ≠ 0 ∧ inherits = 0 then
      (zHints, false)
    else (zHints, true)

/-- What the evaluation reads of a file and its file system. -/
structure Znode where
  /-- The type of the vnode. -/
  vType : Vtype
  /-- The flags of the file. -/
  zpFlags : BitVec 64
  /-- How the file system assigns identities. -/
  zAssign : ℕ
  /-- `VFS_RDONLY` in `vfs_flag`. -/
  vfsRdonly : Bool
  /-- The version of the list. -/
  version : AclVersion
  /-- What `zfs_acl_node_read` returns, with the entries in the one node that it makes. -/
  zfsAclNodeRead : Except ℕ (List (Ace version))

/-- A credential, with what the identity mapping makes of it. -/
structure Cred where
  /-- `crgetuid`. -/
  uid : BitVec 32
  /-- The owner of the file, from `zfs_fuid_map_ids`. -/
  fowner : BitVec 32
  /-- The group of the file, from `zfs_fuid_map_ids`. -/
  gowner : BitVec 32
  /-- Whether the caller is in a group. -/
  zfsGroupmember : BitVec 64 → Bool
  /-- `zfs_fuid_map_id` for a user. -/
  zfsFuidMapId : BitVec 64 → BitVec 32

/-- The `switch` on the kind of an entry: whether it is to be checked. -/
def Cred.checkit (cr : Cred) (entryType : BitVec 16) (who : BitVec 64) : Option Bool :=
  if entryType = aceOwner then some (cr.uid == cr.fowner)
  else if entryType = owningGroup then some (cr.zfsGroupmember (cr.gowner.setWidth 64))
  else if entryType = aceIdentifierGroup then some (cr.zfsGroupmember who)
  else if entryType = aceEveryone then some true
  else if entryType = 0 then
    some (cr.zfsFuidMapId who != idmapWkCreatorOwnerUid && cr.uid == cr.zfsFuidMapId who)
  else none

/-- What `zfs_zaccess_common` returns and leaves behind. -/
structure Zaccess where
  error : ℤ
  /-- The permissions left undecided. -/
  workingMode : BitVec 32
  /-- Whether privileges may help. -/
  checkPrivs : Bool
  deriving DecidableEq

/-- The loop of `zfs_zaccess_common`: working mode, denied bits. -/
def zaccessLoop {version : AclVersion} (vType : Vtype) (cr : Cred) : List (Ace version) →
    (workingMode denyMask : BitVec 32) → Except (BitVec 32) (BitVec 32 × BitVec 32)
  | [], workingMode, denyMask => .ok (workingMode, denyMask)
  | ace :: aces, workingMode, denyMask =>
    if vType = .vdir ∧ ace.hdr.zFlags &&& aceInheritOnlyAce ≠ 0#16 then
      zaccessLoop vType cr aces workingMode denyMask
    else
      match cr.checkit ace.hdr.entryType ace.aceWhoGet with
      | none => .error workingMode
      | some checkit =>
        let maskMatched := ace.hdr.zAccessMask &&& workingMode
        let (workingMode, denyMask) :=
          if checkit ∧ maskMatched ≠ 0#32 then
            (workingMode &&& ~~~maskMatched,
              if ace.hdr.zType = deny then denyMask ||| maskMatched else denyMask)
          else (workingMode, denyMask)
        if workingMode = 0#32 then .ok (workingMode, denyMask)
        else zaccessLoop vType cr aces workingMode denyMask

/-- The part of `zfs_zaccess_common` that reads the list. -/
def zaccessAcl (zp : Znode) (v4Mode : BitVec 32) (cr : Cred) : Zaccess :=
  match zp.zfsAclNodeRead with
  | .error error => ⟨error, v4Mode, true⟩
  | .ok aces =>
    match zaccessLoop zp.vType cr aces v4Mode 0#32 with
    | .error workingMode => ⟨eio, workingMode, true⟩
    | .ok (workingMode, denyMask) =>
      if denyMask ≠ 0#32 then ⟨eacces, workingMode ||| denyMask, true⟩
      else if workingMode ≠ 0#32 then ⟨-1, workingMode, true⟩
      else ⟨0, workingMode, true⟩

def zfsZaccessCommon (zp : Znode) (v4Mode workingMode : BitVec 32) (checkPrivs skipaclchk : Bool)
    (cr : Cred) : Zaccess :=
  if v4Mode = 0#32 then ⟨0, workingMode, checkPrivs⟩
  else if txgSize ≤ zp.zAssign then ⟨0, 0#32, true⟩
  else if v4Mode &&& writeMask ≠ 0#32 ∧ zp.vfsRdonly ∧
      ¬ (zp.vType = .vchr ∨ zp.vType = .vblk ∨ zp.vType = .vfifo) then ⟨erofs, v4Mode, false⟩
  else if v4Mode &&& writeMaskData ≠ 0#32 ∧
      ((zp.vType ≠ .vdir ∧ zp.zpFlags &&& (zfsReadonly ||| zfsImmutable) ≠ 0#64) ∨
        (zp.vType = .vdir ∧ zp.zpFlags &&& zfsImmutable ≠ 0#64)) then ⟨eperm, v4Mode, false⟩
  else if v4Mode &&& (aceDelete ||| aceDeleteChild) ≠ 0#32 ∧ zp.zpFlags &&& zfsNounlink ≠ 0#64 then
    ⟨eperm, v4Mode, false⟩
  else if v4Mode &&& (aceReadData ||| aceExecute) ≠ 0#32 ∧
      zp.zpFlags &&& zfsAvQuarantined ≠ 0#64 then ⟨eacces, v4Mode, false⟩
  else if skipaclchk then ⟨0, 0#32, true⟩
  else zaccessAcl zp v4Mode cr

end Acl

end Zfs
