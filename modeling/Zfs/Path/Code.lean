import Mathlib.Tactic
import Zfs.Machine

/-!
# Paths

The iterators of `path_utils.c`, the lookup of a path in `cached_lookup.c`, and `name_from_path` of
the top level file system.  A C string is the list of its characters before the terminating zero,
and a pointer into a path is the number of characters before it.
-/

namespace Zfs.Path

/-- The `lookup` of a file system. -/
structure LowLevelFilesystem where
  /-- The inode of a name in a directory, or what is returned for an error: a negated error number,
  the error number itself, or zero. -/
  lookup : ℤ → List Char → Except ℤ ℤ
  /-- The inodes from that of the root on are used. -/
  three_le : ∀ parent name inode, lookup parent name = .ok inode → 3 ≤ inode

/-- The `int` that a lookup returns. -/
def answer : Except ℤ ℤ → ℤ
  | .error error => error
  | .ok inode => inode

def defaultTempCursorValue : ℤ := -100

/-- A component of a path. -/
structure Component where
  /-- The pointer into the path. -/
  start : ℕ
  /-- The length of the component there. -/
  len : ℤ
  deriving DecidableEq

/-- The characters of a component of a path, as copied by `strndupa`. -/
def Component.text (component : Component) (path : List Char) : List Char :=
  (path.drop component.start).take component.len.toNat

/-- `locate_last_occurence`, from the index below the given one down. -/
def locateLastOccurence (str : List Char) (c : Char) : ℕ → Option ℕ
  | 0 => none
  | i + 1 => if str[i]? = some c then some i else locateLastOccurence str c i

def locateFirstOccurence (str : List Char) (len : ℤ) (c : Char) : Option ℕ :=
  (str.take len.toNat).findIdx? (· == c)

/-- `path_component_forward`: a component and the cursor. -/
def pathComponentForward (tempCursor : ℤ) (path : List Char) : Option Component × ℤ :=
  let pathlen : ℤ := path.length
  let tempCursor := if tempCursor = defaultTempCursorValue then 0 else tempCursor
  let currentpath := path.drop tempCursor.toNat
  let currentpathlen := pathlen - tempCursor
  let slash := locateFirstOccurence currentpath currentpathlen '/'
  let resultLen : ℤ := match slash with
    | some offset => offset
    -- the last component is located
    | none => if tempCursor ≤ pathlen then currentpathlen else 0
  let componentStart : Option ℕ :=
    if 0 < resultLen then some tempCursor.toNat else slash.map (tempCursor.toNat + ·)
  let component := componentStart.map fun start =>
    -- an empty component is returned like the root
    ⟨start, if resultLen = 0 ∧ path.head? = some '/' then 1 else resultLen⟩
  (component, tempCursor + resultLen + 1)

/-- The loop of `path_component_backward`. -/
def backwardLoop (path : List Char) : ℕ → ℤ → Except Halt (Option Component × ℤ)
  | 0, _ => .error .fuel
  | fuel + 1, tempCursor =>
    match locateLastOccurence path '/' tempCursor.toNat with
    | some slash =>
      let resultLen := tempCursor - slash - 1
      let tempCursor := tempCursor - (resultLen + 1)
      -- a trailing slash leaves an empty component
      if resultLen = 0 then backwardLoop path fuel tempCursor
      else .ok (some ⟨slash + 1, resultLen⟩, tempCursor)
    | none =>
      if tempCursor = 0 ∧ path.head? = some '/' then .ok (some ⟨0, 1⟩, -1)
      else .ok (none, tempCursor)

def pathComponentBackward (tempCursor : ℤ) (path : List Char) :
    Except Halt (Option Component × ℤ) :=
  backwardLoop path (path.length + 2)
    (if tempCursor = defaultTempCursorValue then path.length else tempCursor)

/-- `path_subpath_backward`: the length of the subpath. -/
def pathSubpathBackward (tempCursor : ℤ) (path : List Char) : Except Halt (Option ℤ × ℤ) := do
  let (component, tempCursor) ← pathComponentBackward tempCursor path
  return (component.map fun component => component.start + component.len, tempCursor)

variable (fs : LowLevelFilesystem)

/-- The loop of `cached_lookup_inode_by_path`. -/
def inodeByPathLoop (path : List Char) : ℕ → ℤ → ℤ → Except Halt ℤ
  | 0, _, _ => .error .fuel
  | fuel + 1, tempCursor, inode =>
    match pathComponentForward tempCursor path with
    | (none, _) => .ok inode
    | (some component, tempCursor) =>
      if component.len = 1 ∧ path[component.start]? = some '/' then
        inodeByPathLoop path fuel tempCursor 3
      -- `assert(inode>=3)`
      else if inode < 3 then .error .panic
      else inodeByPathLoop path fuel tempCursor (answer (fs.lookup inode (component.text path)))

def cachedLookupInodeByPath (path : List Char) : Except Halt ℤ :=
  inodeByPathLoop fs path (path.length + 2) defaultTempCursorValue (-1)

def cachedLookupParentInodeByPath (path : List Char) : Except Halt ℤ := do
  let (res, tempCursor) ← pathSubpathBackward defaultTempCursorValue path
  -- if the path is not the root, rewind to the component before the last one
  let (res, _) ←
    if path = ['/'] then pure (res, tempCursor) else pathSubpathBackward tempCursor path
  match res with
  | none => return -1
  | some resultLen => cachedLookupInodeByPath fs (path.take resultLen.toNat)

/-- `name_from_path`: the string at the returned pointer. -/
def nameFromPath (path : List Char) : Except Halt (Option (List Char)) := do
  let (component, _) ← pathComponentBackward defaultTempCursorValue path
  return component.map fun component => path.drop component.start

end Zfs.Path
