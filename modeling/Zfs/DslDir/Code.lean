import Zfs.Library.ParentTree
import Zfs.Machine

/-!
# Space accounting of directories

The directories of a pool form a tree.  A directory charges to its parent what it uses, or what it
has reserved when that is more.  The sizes are 64-bit fields; a change that would make one of them
negative or too large is outside the model.
-/

namespace Zfs

open ParentTree Function

def uint64Max : ℕ := 2 ^ 64 - 1

inductive DdUsed where
  | head
  | snap
  | child
  | childRsrv
  | refrsrv
  deriving DecidableEq

/-- The fields of `dsl_dir_phys_t` that the accounting reads. -/
structure DslDirPhys where
  /-- The space used, with that of the children. -/
  ddUsedBytes : ℕ
  /-- The compressed size of the data. -/
  ddCompressedBytes : ℕ
  /-- The uncompressed size of the data. -/
  ddUncompressedBytes : ℕ
  /-- The quota, or zero for none. -/
  ddQuota : ℕ
  /-- The space reserved. -/
  ddReserved : ℕ
  /-- `DD_FLAG_USED_BREAKDOWN`. -/
  breakdownFlag : Bool
  /-- The space used, by kind. -/
  ddUsedBreakdown : DdUsed → ℕ

/-- The directories of a pool. -/
structure DslDirs where
  dirs : Finset ℕ
  /-- The parent of a directory. -/
  ddParent : ℕ → Option ℕ
  /-- What is on disk of a directory. -/
  ddPhys : ℕ → DslDirPhys
  /-- `dd_space_towrite`, by `TXG_SIZE`. -/
  ddSpaceTowrite : ℕ → Fin 4 → ℕ
  /-- `dsl_pool_adjustedsize(dp, FALSE)`. -/
  adjustedSize : ℕ
  root : ℕ
  /-- Every directory has a path to the top. -/
  rooted : ∀ dd ∈ dirs, ∃ path, Path ddParent dd path ∧ ∀ up ∈ path, up ∈ dirs
  /-- There is one at the top. -/
  root_unique : ∀ dd ∈ dirs, ddParent dd = none → dd = root

/-- A size after a change that keeps it in its field. -/
def resize (size : ℕ) (delta : ℤ) : Option ℕ :=
  if 0 ≤ size + delta ∧ (size + delta).toNat < 2 ^ 64 then some (size + delta).toNat else none

/-- A 64-bit sum with a signed number. -/
def addSigned64 (size : ℕ) (delta : ℤ) : ℕ := ((size + delta) % 2 ^ 64).toNat

def DslDirPhys.parentDelta (phys : DslDirPhys) (used : ℕ) (delta : ℤ) : ℤ :=
  max (used + delta) phys.ddReserved - max used phys.ddReserved

/-- The breakdown of the used space after a change in one category. -/
def DslDirPhys.addBreakdown (phys : DslDirPhys) (type : DdUsed) (used : ℤ) :
    Option (DdUsed → ℕ) :=
  if phys.breakdownFlag then
    (resize (phys.ddUsedBreakdown type) used).map (update phys.ddUsedBreakdown type)
  else some phys.ddUsedBreakdown

/-- The updates of `dsl_dir_diduse_space` in one directory. -/
def DslDirPhys.diduse (phys : DslDirPhys) (type : DdUsed) (used compressed uncompressed : ℤ) :
    Option DslDirPhys := do
  let ddUsedBytes ← resize phys.ddUsedBytes used
  let ddUncompressedBytes ← resize phys.ddUncompressedBytes uncompressed
  let ddCompressedBytes ← resize phys.ddCompressedBytes compressed
  let ddUsedBreakdown ← phys.addBreakdown type used
  return { phys with ddUsedBytes, ddUncompressedBytes, ddCompressedBytes, ddUsedBreakdown }

/-- The updates of `dsl_dir_transfer_space`. -/
def DslDirPhys.transfer (phys : DslDirPhys) (delta : ℤ) (oldtype newtype : DdUsed) :
    Option DslDirPhys := do
  if delta = 0 ∨ phys.breakdownFlag = false then return phys
  let old ← resize (phys.ddUsedBreakdown oldtype) (-delta)
  let breakdown := update phys.ddUsedBreakdown oldtype old
  let new ← resize (breakdown newtype) delta
  return { phys with ddUsedBreakdown := update breakdown newtype new }

/-- The directory with another reservation. -/
def DslDirPhys.reserve (phys : DslDirPhys) (newReservation : ℕ) : DslDirPhys :=
  { phys with ddReserved := newReservation }

namespace DslDirs

variable (dirs : DslDirs)

/-- The tree of the directories. -/
def forest : Forest ℕ := ⟨dirs.dirs, dirs.ddParent, dirs.rooted⟩

/-- A directory and its ancestors. -/
def chain (dd : ℕ) : List ℕ := dirs.forest.chain dd

/-- The pool with other contents of a directory. -/
def setPhys (dd : ℕ) (phys : DslDirPhys) : DslDirs :=
  { dirs with ddPhys := update dirs.ddPhys dd phys }

@[simp] theorem ddPhys_setPhys_self (dd : ℕ) (phys : DslDirPhys) :
    (dirs.setPhys dd phys).ddPhys dd = phys := update_self _ _ _

theorem ddPhys_setPhys_of_ne {low dd : ℕ} (other : low ≠ dd) (phys : DslDirPhys) :
    (dirs.setPhys dd phys).ddPhys low = dirs.ddPhys low := update_of_ne other _ _

def dslDirTransferSpace (dd : ℕ) (delta : ℤ) (oldtype newtype : DdUsed) : Option DslDirs :=
  ((dirs.ddPhys dd).transfer delta oldtype newtype).map (dirs.setPhys dd)

/-- The recursion of `dsl_dir_diduse_space`. -/
def diduseAlong (dirs : DslDirs) : List ℕ → DdUsed → ℤ → ℤ → ℤ → Option DslDirs
  | [], _, _, _, _ => some dirs
  | dd :: above, type, used, compressed, uncompressed => do
    let phys := dirs.ddPhys dd
    let accountedDelta := phys.parentDelta phys.ddUsedBytes used
    let phys ← phys.diduse type used compressed uncompressed
    let charged := dirs.setPhys dd phys
    match above with
    | [] => return charged
    | parent :: _ =>
      let rolled ← charged.diduseAlong above .child accountedDelta compressed uncompressed
      rolled.dslDirTransferSpace parent (used - accountedDelta) .childRsrv .child

def dslDirDiduseSpace (dd : ℕ) (type : DdUsed) (used compressed uncompressed : ℤ) :
    Option DslDirs :=
  dirs.diduseAlong (dirs.chain dd) type used compressed uncompressed

def dslDirSetReservationSync (dd newReservation : ℕ) : Option DslDirs :=
  let phys := dirs.ddPhys dd
  let used := phys.ddUsedBytes
  let delta : ℤ := max used newReservation - max used phys.ddReserved
  let reserved := dirs.setPhys dd (phys.reserve newReservation)
  match dirs.ddParent dd with
  | none => some reserved
  | some parent => reserved.dslDirDiduseSpace parent .childRsrv delta 0 0

/-- The moves of space of `dsl_dir_rename_sync` between two parents. -/
def moveSpace (dd parent newparent : ℕ) : Option DslDirs := do
  let phys := dirs.ddPhys dd
  let taken ← dirs.dslDirDiduseSpace parent .child (-phys.ddUsedBytes) (-phys.ddCompressedBytes)
    (-phys.ddUncompressedBytes)
  let phys := taken.ddPhys dd
  let given ← taken.dslDirDiduseSpace newparent .child phys.ddUsedBytes phys.ddCompressedBytes
    phys.ddUncompressedBytes
  let phys := given.ddPhys dd
  if phys.ddUsedBytes < phys.ddReserved then
    let unusedRsrv := phys.ddReserved - phys.ddUsedBytes
    let returned ← given.dslDirDiduseSpace parent .childRsrv (-unusedRsrv) 0 0
    returned.dslDirDiduseSpace newparent .childRsrv unusedRsrv 0 0
  else return given

end DslDirs

namespace DslDirs

variable {dirs : DslDirs}

theorem path_chain {dd : ℕ} (member : dd ∈ dirs.dirs) :
    Path dirs.ddParent dd (dirs.chain dd) ∧ ∀ up ∈ dirs.chain dd, up ∈ dirs.dirs :=
  dirs.forest.path_chain member

/-- The move of a directory, which is not to be above its new parent. -/
def reparent (dirs : DslDirs) (dd newparent : ℕ) : Option DslDirs :=
  if legal : newparent ∈ dirs.dirs ∧ dd ∉ dirs.chain newparent then
    some
      { dirs with
        ddParent := update dirs.ddParent dd (some newparent)
        rooted := dirs.forest.rooted_move legal.1 legal.2
        root_unique := by
          intro low member top
          by_cases same : low = dd
          · rw [same, update_self] at top
            exact nomatch top
          · exact dirs.root_unique low member ((update_of_ne same _ _).symm.trans top) }
  else none

def dslDirRenameSync (dirs : DslDirs) (dd newparent : ℕ) : Option DslDirs := do
  let parent ← dirs.ddParent dd
  let moved ← if newparent ≠ parent then dirs.moveSpace dd parent newparent else some dirs
  moved.reparent dd newparent

end DslDirs

/-- What `dsl_dir_space_available` makes of the space of the parent. -/
def DslDirPhys.myspace (phys : DslDirPhys) (quota used parentspace : ℕ) (atAncestor : Bool)
    (delta : ℤ) : ℕ :=
  -- What is reserved and not used comes in addition to what the parent gives.
  let parentspace :=
    if used < phys.ddReserved ∧ parentspace ≠ uint64Max then
      add64 parentspace (phys.ddReserved - used)
    else parentspace
  let parentspace :=
    if atAncestor ∧ parentspace ≠ uint64Max then addSigned64 parentspace (-delta) else parentspace
  let used := if atAncestor then addSigned64 used delta else used
  if quota < used then 0 else min parentspace (quota - used)

namespace DslDirs

variable (dirs : DslDirs)

def dslDirSpaceTowrite (dd : ℕ) : ℕ := (∑ txg, dirs.ddSpaceTowrite dd txg) % 2 ^ 64

/-- The quota of a directory; that of the root ends with the pool. -/
def effectiveQuota (dd : ℕ) (above : List ℕ) : ℕ :=
  let phys := dirs.ddPhys dd
  let quota := if phys.ddQuota ≠ 0 then phys.ddQuota else uint64Max
  if above = [] then min quota dirs.adjustedSize else quota

/-- `dsl_dir_space_available`; the root has no parent. -/
def spaceAvailable (ancestor : ℕ) (delta : ℤ) (ondiskonly : Bool) : List ℕ → ℕ
  | [] => uint64Max
  | dd :: above =>
    let phys := dirs.ddPhys dd
    let parentspace := spaceAvailable ancestor delta ondiskonly above
    let used :=
      if ondiskonly then phys.ddUsedBytes else add64 phys.ddUsedBytes (dirs.dslDirSpaceTowrite dd)
    phys.myspace (dirs.effectiveQuota dd above) used parentspace (dd = ancestor) delta

def dslDirSpaceAvailable (dd ancestor : ℕ) (delta : ℤ) (ondiskonly : Bool) : ℕ :=
  dirs.spaceAvailable ancestor delta ondiskonly (dirs.chain dd)

def closestCommonAncestor (ds1 ds2 : ℕ) : Option ℕ :=
  (dirs.chain ds1).find? (· ∈ dirs.chain ds2)

/-- `would_change`, along a directory and its ancestors. -/
def wouldChange (ancestor : ℕ) : List ℕ → ℤ → ℤ
  | [], delta => delta
  | dd :: above, delta =>
    if dd = ancestor then delta
    else
      let phys := dirs.ddPhys dd
      wouldChange ancestor above (phys.parentDelta phys.ddUsedBytes delta)

def dslDirTransferPossible (sdd tdd space : ℕ) : Option ℕ := do
  let ancestor ← dirs.closestCommonAncestor sdd tdd
  let adelta := dirs.wouldChange ancestor (dirs.chain sdd) (-space)
  let avail := dirs.dslDirSpaceAvailable tdd ancestor adelta false
  return if avail < space then enospc else 0

end DslDirs

end Zfs
