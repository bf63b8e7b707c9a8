import Zfs.Library.ParentTree
import Zfs.Machine

/-!
# Delegated permissions

Each directory can have a table of who may do what.  The permissions of a user, a group or everyone
stand there under one key for the directory itself and under another one for its descendants.
Permissions can be collected in named sets, which can include other named sets.
-/

namespace Zfs

open ParentTree

def ecanceled : ℕ := 125

def enotsup : ℕ := 95

def spaVersionDelegatedPerms : ℕ := 8

/-- `ZFS_DELEG_LOCAL` and `ZFS_DELEG_DESCENDENT`. -/
inductive DelegInherit where
  | zfsDelegLocal
  | zfsDelegDescendent
  deriving DecidableEq

/-- The keys that `zfs_deleg_whokey` makes. -/
inductive WhoKey (Name : Type) where
  | user (checkflag : DelegInherit) (id : ℕ)
  | userSets (checkflag : DelegInherit) (id : ℕ)
  | group (checkflag : DelegInherit) (id : ℕ)
  | groupSets (checkflag : DelegInherit) (id : ℕ)
  | everyone (checkflag : DelegInherit)
  | everyoneSets (checkflag : DelegInherit)
  | create
  | createSets
  | namedSet (setname : Name)
  | namedSetSets (setname : Name)
  deriving DecidableEq

/-- A permission table: the names in the jump object of each key. -/
abbrev DelegZap (Name : Type) := AList fun _ : WhoKey Name => List Name

structure PermSet (Name : Type) where
  pSetname : Name
  /-- Whether the set has been looked at. -/
  pMatched : Bool
  deriving DecidableEq

/-- A process: its credential and whether it runs in the global zone. -/
structure Curproc where
  /-- The user. -/
  uid : ℕ
  /-- The group. -/
  gid : ℕ
  groups : List ℕ
  /-- Whether the process is in the global zone. -/
  inGlobalZone : Bool

/-- The directories of a pool with their permission tables. -/
structure DelegPool (Name : Type) where
  /-- The directories. -/
  forest : Forest ℕ
  /-- The permission table of a directory. -/
  ddDelegZapobj : ℕ → Option (DelegZap Name)
  /-- The property `zoned` of a directory, if it can be read. -/
  zoned : ℕ → Option ℕ
  /-- Whether delegation is on. -/
  spaDelegation : Bool
  /-- The version of the pool. -/
  spaVersion : ℕ
  /-- Old pools have no tables. -/
  supported : spaVersion < spaVersionDelegatedPerms → ∀ dd, ddDelegZapobj dd = none

variable {Name : Type} [LinearOrder Name]

-- The tree `permsets` is the list of its nodes in the order of `perm_set_compare`.

/-- `avl_find` and, for a new name, `avl_insert`. -/
def addSet (setname : Name) : List (PermSet Name) → List (PermSet Name)
  | [] => [⟨setname, false⟩]
  | node :: rest =>
    if setname = node.pSetname then node :: rest
    else if setname < node.pSetname then ⟨setname, false⟩ :: node :: rest
    else node :: addSet setname rest

/-- `setnode->p_matched = B_TRUE`. -/
def setMatched (setname : Name) (permsets : List (PermSet Name)) : List (PermSet Name) :=
  permsets.map fun node => if node.pSetname = setname then { node with pMatched := true } else node

/-- `avl_first`, or `AVL_NEXT` after a node with the given name. -/
def avlNext (position : Option Name) (permsets : List (PermSet Name)) : Option (PermSet Name) :=
  permsets.find? fun node => position.all (· < node.pSetname)

def dslCheckAccess (zapobj : DelegZap Name) (whokey : WhoKey Name) (perm : Name) : ℕ :=
  match zapobj.lookup whokey with
  | none => enoent
  | some jumpobj => if perm ∈ jumpobj then 0 else eperm

def dslCheckUserAccess (zapobj : DelegZap Name) (perm : Name) (checkflag : DelegInherit)
    (cr : Curproc) : ℕ :=
  if dslCheckAccess zapobj (.user checkflag cr.uid) perm = 0 then 0
  else if dslCheckAccess zapobj (.group checkflag cr.gid) perm = 0 then 0
  else if dslCheckAccess zapobj (.everyone checkflag) perm = 0 then 0
  else if cr.groups.any fun id => dslCheckAccess zapobj (.group checkflag id) perm = 0 then 0
  else eperm

/-- `dsl_load_sets`: the error and the sets. -/
def dslLoadSets (zapobj : DelegZap Name) (whokey : WhoKey Name) (permsets : List (PermSet Name)) :
    ℕ × List (PermSet Name) :=
  match zapobj.lookup whokey with
  | none => (enoent, permsets)
  | some jumpobj => (0, jumpobj.foldl (fun sets setname => addSet setname sets) permsets)

def dslLoadUserSets (zapobj : DelegZap Name) (permsets : List (PermSet Name))
    (checkflag : DelegInherit) (cr : Curproc) : List (PermSet Name) :=
  let permsets := (dslLoadSets zapobj (.userSets checkflag cr.uid) permsets).2
  let permsets := (dslLoadSets zapobj (.groupSets checkflag cr.gid) permsets).2
  let permsets := (dslLoadSets zapobj (.everyoneSets checkflag) permsets).2
  cr.groups.foldl (fun sets id => (dslLoadSets zapobj (.groupSets checkflag id) sets).2) permsets

/-- Where a part of the search goes on. -/
inductive DelegStep (Name : Type) where
  /-- `goto success`. -/
  | success
  | swept (permsets : List (PermSet Name)) (expanded : Bool)

/-- The body of the loop over the sets, for one node. -/
def checkSet (zapobj : DelegZap Name) (perm : Name) (setnode : PermSet Name)
    (permsets : List (PermSet Name)) (expanded : Bool) : DelegStep Name :=
  if setnode.pMatched then .swept permsets expanded
  else
    let error := dslCheckAccess zapobj (.namedSet setnode.pSetname) perm
    if error = 0 then .success
    else
      let permsets := if error = eperm then setMatched setnode.pSetname permsets else permsets
      let (error, permsets) := dslLoadSets zapobj (.namedSetSets setnode.pSetname) permsets
      if error = 0 then .swept (setMatched setnode.pSetname permsets) true
      else .swept permsets expanded

/-- The loop over the sets, from the first node after a position on. -/
def sweepSets (zapobj : DelegZap Name) (perm : Name) :
    ℕ → Option Name → List (PermSet Name) → Bool → Except Halt (DelegStep Name)
  | 0, _, _, _ => .error .fuel
  | fuel + 1, position, permsets, expanded =>
    match avlNext position permsets with
    | none => .ok (.swept permsets expanded)
    | some setnode =>
      match checkSet zapobj perm setnode permsets expanded with
      | .success => .ok .success
      | .swept permsets expanded =>
        sweepSets zapobj perm fuel (some setnode.pSetname) permsets expanded

/-- No loop over the sets of one table needs more steps than this. -/
def setBound (zapobj : DelegZap Name) (permsets : List (PermSet Name)) : ℕ :=
  permsets.length + (zapobj.entries.flatMap Sigma.snd).length + 1

/-- The jumps back to `again`. -/
def expandSets (zapobj : DelegZap Name) (perm : Name) :
    ℕ → List (PermSet Name) → Except Halt (DelegStep Name)
  | 0, _ => .error .fuel
  | fuel + 1, permsets => do
    match ← sweepSets zapobj perm (setBound zapobj permsets) none permsets false with
    | .success => return .success
    | .swept permsets expanded =>
      if expanded then expandSets zapobj perm fuel permsets else return .swept permsets expanded

namespace DelegPool

variable (dp : DelegPool Name)

/-- The loop of `dsl_deleg_access` over a directory and its ancestors. -/
def accessAlong (perm : Name) (cr : Curproc) :
    List ℕ → DelegInherit → List (PermSet Name) → Except Halt ℕ
  | [], _, _ => .ok eperm
  | dd :: above, checkflag, permsets =>
    -- outside the global zone the walk ends at the first directory that is not zoned
    if !cr.inGlobalZone && (dp.zoned dd).getD 0 == 0 then .ok eperm
    else
      match dp.ddDelegZapobj dd with
      | none => accessAlong perm cr above .zfsDelegDescendent permsets
      | some zapobj => do
        let permsets := dslLoadUserSets zapobj permsets checkflag cr
        match ← expandSets zapobj perm (setBound zapobj permsets) permsets with
        | .success => return 0
        | .swept permsets _ =>
          if dslCheckUserAccess zapobj perm checkflag cr = 0 then return 0
          else accessAlong perm cr above .zfsDelegDescendent permsets

/-- `dsl_deleg_access`; a dataset is given by its directory. -/
def dslDelegAccess (dd : ℕ) (perm : Name) (cr : Curproc) : Except Halt ℕ :=
  if dd ∉ dp.forest.nodes then .ok enoent
  else if dp.spaDelegation = false then .ok ecanceled
  else if dp.spaVersion < spaVersionDelegatedPerms then .ok eperm
  else dp.accessAlong perm cr (dp.forest.chain dd) .zfsDelegLocal []

-- A request is a list of keys, each with the names to be added below it.

/-- The inner loop of `dsl_deleg_can_allow`, over one key. -/
def canAllowPerms (permAllow : Name) (dd : ℕ) (cr : Curproc) : List Name → Except Halt ℕ
  | [] => .ok 0
  | perm :: perms =>
    if perm = permAllow then .ok eperm
    else do
      let error ← dp.dslDelegAccess dd perm cr
      if error ≠ 0 then return error else canAllowPerms permAllow dd cr perms

/-- The outer loop of `dsl_deleg_can_allow`, over the keys. -/
def canAllowWhos (permAllow : Name) (dd : ℕ) (cr : Curproc) :
    List (WhoKey Name × List Name) → Except Halt ℕ
  | [] => .ok 0
  | whopair :: rest => do
    let error ← dp.canAllowPerms permAllow dd cr whopair.2
    if error ≠ 0 then return error else canAllowWhos permAllow dd cr rest

/-- `dsl_deleg_can_allow`, where `permAllow` is `ZFS_DELEG_PERM_ALLOW`. -/
def dslDelegCanAllow (permAllow : Name) (dd : ℕ) (nvp : List (WhoKey Name × List Name))
    (cr : Curproc) : Except Halt ℕ := do
  let error ← dp.dslDelegAccess dd permAllow cr
  if error ≠ 0 then return error else dp.canAllowWhos permAllow dd cr nvp

/-- The loop of `dsl_deleg_set_sync` for one key. -/
def setWho (zapobj : DelegZap Name) (whopair : WhoKey Name × List Name) : DelegZap Name :=
  zapobj.insert whopair.1
    (whopair.2.foldl (fun jumpobj perm => jumpobj.insert perm)
      ((zapobj.lookup whopair.1).getD []))

/-- `dsl_deleg_set_sync`, in a pool whose version has delegation. -/
def dslDelegSetSync (new : ¬ dp.spaVersion < spaVersionDelegatedPerms) (dd : ℕ)
    (nvp : List (WhoKey Name × List Name)) : DelegPool Name :=
  { dp with
    ddDelegZapobj := Function.update dp.ddDelegZapobj dd
      (some (nvp.foldl setWho ((dp.ddDelegZapobj dd).getD ∅)))
    supported := fun old => absurd old new }

/-- `dsl_deleg_set`, with `unset` false. -/
def dslDelegSet (dd : ℕ) (nvp : List (WhoKey Name × List Name)) : Except ℕ (DelegPool Name) :=
  if dd ∉ dp.forest.nodes then .error enoent
  else if old : dp.spaVersion < spaVersionDelegatedPerms then .error enotsup
  else .ok (dp.dslDelegSetSync old dd nvp)

end DelegPool

end Zfs
