import Zfs.Library.CountedIntervals
import Zfs.Library.TransitionSystem
import Zfs.Machine

/-!
# Range locks of a file

`zfs_rlock.c`.  The tree of range locks is the list of its entries by offset.  Every call holds
`z_range_lock` from its start to its end or to the place where it waits, after which it starts
again: a step is one such attempt.
-/

namespace Zfs

inductive RlType where
  | reader
  | writer
  | append
  deriving DecidableEq

structure Rl where
  /-- The call of `zfs_range_lock` that it was made for.  A proxy (`r_proxy`) has none. -/
  owner : Option ℕ
  /-- The offset of the range. -/
  rOff : ℕ
  rLen : ℕ
  /-- The number of references in the tree. -/
  rCnt : ℕ
  rType : RlType
  /-- Whether a writer waits for it. -/
  rWriteWanted : Bool
  /-- Whether a reader waits for it. -/
  rReadWanted : Bool
  deriving DecidableEq

/-- `r_off + r_len`. -/
def Rl.rEnd (rl : Rl) : ℕ := add64 rl.rOff rl.rLen

/-- The tree of a file, and the locks that are held. -/
structure RangeState where
  /-- The entries of the tree. -/
  tree : List Rl
  /-- The locks that callers have. -/
  held : List Rl

/-- `avl_add` and `avl_insert`. -/
def avlAdd (new : Rl) : List Rl → List Rl
  | [] => [new]
  | rl :: tree => if new.rOff < rl.rOff then new :: rl :: tree else rl :: avlAdd new tree

def avlFind (tree : List Rl) (off : ℕ) : Option Rl := tree.find? fun rl => rl.rOff = off

/-- `avl_nearest` with `AVL_AFTER`. -/
def avlNearestAfter (tree : List Rl) (off : ℕ) : Option Rl := tree.find? fun rl => off < rl.rOff

/-- `avl_nearest` with `AVL_BEFORE`. -/
def avlNearestBefore (tree : List Rl) (off : ℕ) : Option Rl :=
  (tree.filter fun rl => rl.rOff < off).getLast?

/-- Change the entry at an offset. -/
def atOffset (off : ℕ) (change : Rl → Rl) (tree : List Rl) : List Rl :=
  tree.map fun rl => if rl.rOff = off then change rl else rl

/-- `avl_remove` of a lock that is its own entry. -/
def avlRemove (owner : ℕ) (tree : List Rl) : List Rl := tree.filter fun rl => rl.owner ≠ some owner

/-- What a writer reads of a znode; a volume has no vnode. -/
structure ZnodeSize where
  /-- Whether there is a vnode. -/
  hasVnode : Bool
  /-- The size of the file. -/
  zpSize : ℕ
  /-- The block size. -/
  zBlksz : ℕ
  /-- The largest block size. -/
  zMaxBlksz : ℕ

/-- The range of a writer, which may append or grow the block size. -/
def writerRange (zp : ZnodeSize) (rType : RlType) (off len : ℕ) : ℕ × ℕ :=
  if zp.hasVnode then
    let rOff := if rType = .append then zp.zpSize else off
    let endSize := max zp.zpSize (add64 rOff len)
    if zp.zBlksz < endSize ∧ (zp.zBlksz &&& (zp.zBlksz - 1) ≠ 0 ∨ zp.zBlksz < zp.zMaxBlksz) then
      (0, 2 ^ 64 - 1)
    else (rOff, len)
  else (off, len)

/-- The entry that a writer waits for. -/
def writerConflict (tree : List Rl) (off len : ℕ) : Option Rl :=
  match avlFind tree off with
  | some rl => some rl
  | none =>
    match (avlNearestAfter tree off).filter fun rl => rl.rOff < add64 off len with
    | some rl => some rl
    | none => (avlNearestBefore tree off).filter fun rl => off < rl.rEnd

/-- `zfs_range_lock_writer`, up to the end or to the wait. -/
def lockWriter (zp : ZnodeSize) (owner : ℕ) (rType : RlType) (off len : ℕ) (state : RangeState) :
    RangeState :=
  let range := writerRange zp rType off len
  match writerConflict state.tree range.1 range.2 with
  | some rl =>
    { state with tree := atOffset rl.rOff (fun rl => { rl with rWriteWanted := true }) state.tree }
  | none =>
    let new : Rl := ⟨some owner, range.1, range.2, 1, .writer, false, false⟩
    { tree := avlAdd new state.tree, held := new :: state.held }

/-- A reader does not pass writers, or what a writer waits for. -/
def readerBlocked (rl : Rl) : Bool := rl.rType = .writer || rl.rWriteWanted

/-- The loop of `zfs_range_lock_reader`: the entry that it waits for. -/
def scanNext (stop : ℕ) : List Rl → Option Rl
  | [] => none
  | next :: rest =>
    if stop ≤ next.rOff then none
    else if readerBlocked next then some next
    else if stop ≤ next.rEnd then none
    else scanNext stop rest

/-- The entry at an offset or before it. -/
def prevEntry (tree : List Rl) (off : ℕ) : Option Rl :=
  match avlFind tree off with
  | some rl => some rl
  | none => avlNearestBefore tree off

/-- The entry that a reader waits for. -/
def readerConflict (tree : List Rl) (off len : ℕ) : Option Rl :=
  match prevEntry tree off with
  | none => scanNext (add64 off len) (tree.filter fun rl => off < rl.rOff)
  | some prev =>
    if off < prev.rEnd then
      if readerBlocked prev then some prev
      else if add64 off len < prev.rEnd then none
      else scanNext (add64 off len) (tree.filter fun rl => prev.rOff < rl.rOff)
    else scanNext (add64 off len) (tree.filter fun rl => prev.rOff < rl.rOff)

/-- `zfs_range_proxify`: the proxy. -/
def proxify (rl : Rl) : Rl :=
  match rl.owner with
  | none => rl
  | some _ => ⟨none, rl.rOff, rl.rLen, 1, .reader, false, false⟩

/-- `zfs_range_split`: the front. -/
def splitFront (rl : Rl) (off : ℕ) : Rl := { proxify rl with rLen := sub64 off rl.rOff }

/-- `zfs_range_split`: the rear. -/
def splitRear (rl : Rl) (off : ℕ) : Rl :=
  ⟨none, off, sub64 rl.rEnd off, rl.rCnt, .reader, false, false⟩

def newProxy (off len : ℕ) : Rl := ⟨none, off, len, 1, .reader, false, false⟩

/-- One more reader (`r_cnt++`), in 32 bits. -/
def bump (rl : Rl) : Rl := { rl with rCnt := (rl.rCnt + 1) % 2 ^ 32 }

/-- One reader less (`r_cnt--`), in 32 bits. -/
def drop (rl : Rl) : Rl := { rl with rCnt := if rl.rCnt = 0 then 2 ^ 32 - 1 else rl.rCnt - 1 }

/-- The loop of `zfs_range_add_reader`: entries, and new proxies. -/
def addLoop (stop : ℕ) : (prevEnd : ℕ) → List Rl → List Rl × List ℕ
  | prevEnd, [] => ([newProxy prevEnd (sub64 stop prevEnd)], [])
  | prevEnd, next :: rest =>
    if stop ≤ next.rOff then (newProxy prevEnd (sub64 stop prevEnd) :: next :: rest, [])
    else
      let gap := if prevEnd < next.rOff then [newProxy prevEnd (sub64 next.rOff prevEnd)] else []
      if stop = next.rEnd then (gap ++ bump (proxify next) :: rest, next.owner.toList)
      else if stop < next.rEnd then
        (gap ++ bump (splitFront next stop) :: splitRear next stop :: rest, next.owner.toList)
      else
        let more := addLoop stop next.rEnd rest
        (gap ++ bump (proxify next) :: more.1, next.owner.toList ++ more.2)

/-- The tree, whether the lock is its own entry, and new proxies. -/
structure AddReader where
  tree : List Rl
  /-- Whether the lock is an entry. -/
  inTree : Bool
  /-- The locks that proxies have replaced. -/
  proxied : List ℕ

/-- `zfs_range_add_reader` from the first overlap on. -/
def addReaderFrom (new : Rl) (before rest : List Rl) (proxied : List ℕ) : AddReader :=
  match rest with
  | [] => ⟨avlAdd new (before ++ rest), true, proxied⟩
  | next :: _ =>
    if new.rEnd ≤ next.rOff then ⟨avlAdd new (before ++ rest), true, proxied⟩
    else
      let more := addLoop new.rEnd new.rOff rest
      ⟨before ++ more.1, false, proxied ++ more.2⟩

def addReader (new : Rl) (tree : List Rl) : AddReader :=
  match (prevEntry tree new.rOff).filter fun prev => new.rOff < prev.rEnd with
  | none =>
    addReaderFrom new (tree.filter fun rl => rl.rOff ≤ new.rOff)
      (tree.filter fun rl => new.rOff < rl.rOff) []
  | some prev =>
    if prev.rOff = new.rOff then
      addReaderFrom new (tree.filter fun rl => rl.rOff < new.rOff)
        (tree.filter fun rl => new.rOff ≤ rl.rOff) []
    else
      addReaderFrom new
        ((tree.filter fun rl => rl.rOff < prev.rOff) ++ [splitFront prev new.rOff])
        (splitRear prev new.rOff :: tree.filter fun rl => prev.rOff < rl.rOff) prev.owner.toList

/-- A reader lock of `zfs_range_lock`, up to the end or to the wait. -/
def lockReader (owner off len : ℕ) (state : RangeState) : RangeState :=
  match readerConflict state.tree off len with
  | some rl =>
    { state with tree := atOffset rl.rOff (fun rl => { rl with rReadWanted := true }) state.tree }
  | none =>
    let new : Rl := ⟨some owner, off, len, 1, .reader, false, false⟩
    let added := addReader new state.tree
    { tree := added.tree
      held := { new with rCnt := if added.inTree then 1 else 0 } :: state.held.map fun rl =>
        if ∃ id ∈ added.proxied, rl.owner = some id then { rl with rCnt := 0 } else rl }

/-- The loop of `zfs_range_unlock_reader` over the proxies of a lock. -/
def unlockLoop : (len : ℕ) → List Rl → List Rl
  | _, [] => []
  | len, rl :: rest =>
    if len = 0 then rl :: rest
    else
      (if (drop rl).rCnt = 0 then [] else [drop rl]) ++
        unlockLoop (sub64 len rl.rLen) rest

def zfsRangeUnlock (rl : Rl) (owner : ℕ) (state : RangeState) : RangeState :=
  { tree :=
      if rl.rType = .writer ∨ rl.rCnt = 1 then avlRemove owner state.tree
      else (state.tree.filter fun entry => entry.rOff < rl.rOff) ++
        unlockLoop rl.rLen (state.tree.filter fun entry => rl.rOff ≤ entry.rOff)
    held := avlRemove owner state.held }

def zfsRangeReduce (owner off len : ℕ) (state : RangeState) : RangeState :=
  let reduce : Rl → Rl := fun rl =>
    if rl.owner = some owner then { rl with rOff := off, rLen := len } else rl
  { tree := state.tree.map reduce, held := state.held.map reduce }

/-- An attempt of a call. -/
inductive RangeLabel where
  | lockReader (owner off len : ℕ)
  | lockWriter (zp : ZnodeSize) (owner : ℕ) (rType : RlType) (off len : ℕ)
  | unlock (owner : ℕ)
  | reduce (owner off len : ℕ)

/-- When a call may be made.  A lock is reduced by its holder. -/
def RangeState.Enabled (Range : ℕ → ℕ → Prop) (Room : ℕ → Prop) (state : RangeState) :
    RangeLabel → Prop
  | .lockReader owner off len => (∀ rl ∈ state.held, rl.owner ≠ some owner) ∧ Range off len ∧
    Room state.held.length
  | .lockWriter zp owner rType off len => (∀ rl ∈ state.held, rl.owner ≠ some owner) ∧
    rType ≠ .reader ∧ Range (writerRange zp rType off len).1 (writerRange zp rType off len).2 ∧
    Room state.held.length
  | .unlock owner => ∃ rl ∈ state.held, rl.owner = some owner
  | .reduce owner off len => (∃ rl ∈ state.held, rl.owner = some owner ∧ rl.rType = .writer ∧
    rl.rOff = 0 ∧ rl.rLen = 2 ^ 64 - 1) ∧ Range off len

/-- An attempt of a call. -/
def RangeState.apply (state : RangeState) : RangeLabel → RangeState
  | .lockReader owner off len => Zfs.lockReader owner off len state
  | .lockWriter zp owner rType off len => Zfs.lockWriter zp owner rType off len state
  | .unlock owner =>
    match state.held.find? fun rl => rl.owner = some owner with
    | some rl => zfsRangeUnlock rl owner state
    | none => state
  | .reduce owner off len => zfsRangeReduce owner off len state

/-- The calls of any number of threads on one file. -/
def rangeLockSystem (Range : ℕ → ℕ → Prop) (Room : ℕ → Prop) :
    TransitionSystem RangeState RangeLabel where
  Start state := state = ⟨[], []⟩
  Step state label next := state.Enabled Range Room label ∧ next = state.apply label

end Zfs
