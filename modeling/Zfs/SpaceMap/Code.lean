import Zfs.Machine
import Zfs.Library.BalancedTree

/-!
# The in-core space map of `space_map.c`

A space map is an AVL tree of segments: the functional tree of `BalancedTree`, which the routines of
`avl.c` implement.  A segment that the code changes in place is changed in the tree.  `zfsRecover`
is the global that turns `zfs_panic_recover` into a warning.
-/

namespace Zfs

open BalancedTree BalTree

/-- `space_seg_t`. -/
structure Seg where
  /-- The first offset. -/
  ssStart : ℕ
  /-- The offset after the last one. -/
  ssEnd : ℕ
  deriving DecidableEq, Repr

structure SpaceMap where
  /-- The segments. -/
  smRoot : BalTree Seg
  /-- The sum of their sizes. -/
  smSpace : ℕ
  smStart : ℕ
  smSize : ℕ
  /-- The logarithm of the unit. -/
  smShift : ℕ
  /-- Whether the map is loaded. -/
  smLoaded : Bool
  /-- Whether it is being loaded. -/
  smLoading : Bool
  deriving DecidableEq, Repr

/-- `space_map_seg_compare`: overlapping segments compare as equal. -/
def spaceMapSegCompare (s1 s2 : Seg) : ℤ :=
  if s1.ssStart < s2.ssStart then
    if s1.ssEnd > s2.ssStart then 0 else -1
  else if s1.ssStart > s2.ssStart then
    if s1.ssStart < s2.ssEnd then 0 else 1
  else
    0

def spaceMapCreate (start size shift : ℕ) : SpaceMap :=
  { smRoot := .nil, smSpace := 0, smStart := start, smSize := size, smShift := shift,
    smLoaded := false, smLoading := false }

variable (zfsRecover : Bool) (sm : SpaceMap)

/-- The checks on one argument being a multiple of the unit. -/
def Unit64 (value : ℕ) : Prop := p2phase value (1 <<< sm.smShift) = 0

instance (sm : SpaceMap) (value : ℕ) : Decidable (Unit64 sm value) :=
  inferInstanceAs (Decidable (_ = _))

/-- The `VERIFY`s at the head of `space_map_add`. -/
def AddVerify (start size : ℕ) : Prop :=
  size ≠ 0 ∧ sm.smStart ≤ start ∧ add64 start size ≤ add64 sm.smStart sm.smSize ∧
    add64 sm.smSpace size ≤ sm.smSize ∧ Unit64 sm start ∧ Unit64 sm size

instance (sm : SpaceMap) (start size : ℕ) : Decidable (AddVerify sm start size) :=
  inferInstanceAs (Decidable (_ ∧ _))

/-- The `VERIFY`s of `space_map_remove` and `space_map_contains`. -/
def UnitVerify (start size : ℕ) : Prop :=
  size ≠ 0 ∧ Unit64 sm start ∧ Unit64 sm size

instance (sm : SpaceMap) (start size : ℕ) : Decidable (UnitVerify sm start size) :=
  inferInstanceAs (Decidable (_ ∧ _))

/-- `avl_find` for the segment `[start, end)`. -/
def findSeg (start stop : ℕ) : Context Seg × BalTree Seg :=
  sm.smRoot.search (spaceMapSegCompare ⟨start, stop⟩) []

/-- The tree after `space_map_add` has merged a new segment. -/
def mergeIn (root : BalTree Seg) (place : Context Seg) (start stop : ℕ) : BalTree Seg :=
  let mergeBefore := (nearest .left place).filter fun ssBefore => ssBefore.ssEnd = start
  let mergeAfter := (nearest .right place).filter fun ssAfter => ssAfter.ssStart = stop
  match mergeBefore, mergeAfter with
  | some ssBefore, some ssAfter =>
    (root.removeValue ssBefore).replaceValue ssAfter ⟨ssBefore.ssStart, ssAfter.ssEnd⟩
  | some ssBefore, none => root.replaceValue ssBefore ⟨ssBefore.ssStart, stop⟩
  | none, some ssAfter => root.replaceValue ssAfter ⟨start, ssAfter.ssEnd⟩
  | none, none => insertAt place ⟨start, stop⟩

def spaceMapAdd (start size : ℕ) : Except Halt SpaceMap :=
  let stop := add64 start size
  if AddVerify sm start size then
    match findSeg sm start stop with
    | (place, .nil) =>
      .ok { sm with
        smRoot := mergeIn sm.smRoot place start stop
        smSpace := add64 sm.smSpace size }
    | (_, .node _ ss _ _) =>
      if ss.ssStart ≤ start ∧ stop ≤ ss.ssEnd ∧ zfsRecover then
        .ok sm
      else
        .error .panic
  else
    .error .panic

/-- The tree after `space_map_remove` has cut `[start, end)` out. -/
def cutOut (place : Context Seg) (left : BalTree Seg) (ss : Seg) (balance : ℤ) (right : BalTree Seg)
    (start stop : ℕ) : BalTree Seg :=
  if ss.ssStart ≠ start ∧ ss.ssEnd ≠ stop then
    insertBeside .right place right ⟨ss.ssStart, start⟩ balance left ⟨stop, ss.ssEnd⟩
  else if ss.ssStart ≠ start then
    plug place (.node left ⟨ss.ssStart, start⟩ balance right)
  else if ss.ssEnd ≠ stop then
    plug place (.node left ⟨stop, ss.ssEnd⟩ balance right)
  else
    removeAt place (.node left ss balance right)

def spaceMapRemove (start size : ℕ) : Except Halt SpaceMap :=
  let stop := add64 start size
  if UnitVerify sm start size then
    match findSeg sm start stop with
    | (_, .nil) => if zfsRecover then .ok sm else .error .panic
    | (place, .node left ss balance right) =>
      if ss.ssStart ≤ start ∧ stop ≤ ss.ssEnd ∧ sub64 sm.smSpace size ≤ sm.smSize then
        .ok { sm with
          smRoot := cutOut place left ss balance right start stop
          smSpace := sub64 sm.smSpace size }
      else
        .error .panic
  else
    .error .panic

def spaceMapContains (start size : ℕ) : Except Halt Bool :=
  let stop := add64 start size
  if UnitVerify sm start size then
    match findSeg sm start stop with
    | (_, .nil) => .ok false
    | (_, .node _ ss _ _) => .ok (ss.ssStart ≤ start ∧ stop ≤ ss.ssEnd)
  else
    .error .panic

/-- A callback of type `space_map_func_t`. -/
abbrev SpaceMapFunc := SpaceMap → ℕ → ℕ → Except Halt SpaceMap

/-- Call `func` for each segment of a list. -/
def applyFunc (func : SpaceMapFunc) (mdest : SpaceMap) : List Seg → Except Halt SpaceMap
  | [] => .ok mdest
  | ss :: segs => do
    let mdest ← func mdest ss.ssStart (sub64 ss.ssEnd ss.ssStart)
    applyFunc func mdest segs

/-- `space_map_vacate`, which visits the segments in post-order. -/
def spaceMapVacate (func : SpaceMapFunc) (sm mdest : SpaceMap) :
    Except Halt (SpaceMap × SpaceMap) := do
  let mdest ← applyFunc func mdest sm.smRoot.postorder
  return ({ sm with smRoot := .nil, smSpace := 0 }, mdest)

/-- `space_map_vacate` without a callback. -/
def spaceMapEmpty : SpaceMap := { sm with smRoot := .nil, smSpace := 0 }

def spaceMapWalk (func : SpaceMapFunc) (sm mdest : SpaceMap) : Except Halt SpaceMap :=
  applyFunc func mdest sm.smRoot.toList

/-- The segment of one round of `space_map_excise`. -/
def exciseSeg (start : ℕ) : Option Seg :=
  match findSeg sm start start with
  | (place, .nil) => nearest .right place
  | (_, .node _ ss _ _) => some ss

/-- The loop of `space_map_excise`. -/
def spaceMapExciseLoop (zfsRecover : Bool) (start stop : ℕ) :
    ℕ → SpaceMap → Except Halt SpaceMap
  | 0, _ => .error .fuel
  | fuel + 1, sm =>
    match exciseSeg sm start with
    | none => .ok sm
    | some ss =>
      if ss.ssStart ≥ stop then
        .ok sm
      else do
        let rmStart := max ss.ssStart start
        let rmEnd := min ss.ssEnd stop
        let sm ← spaceMapRemove zfsRecover sm rmStart (sub64 rmEnd rmStart)
        spaceMapExciseLoop zfsRecover start stop fuel sm

/-- `space_map_excise`, with one more segment in every round. -/
def spaceMapExcise (start size : ℕ) : Except Halt SpaceMap :=
  spaceMapExciseLoop zfsRecover start (add64 start size) (sm.smRoot.toList.length + 1) sm

def spaceMapUnion (smd sms : SpaceMap) : Except Halt SpaceMap :=
  applyFunc (fun smd start size => do
    let smd ← spaceMapExcise zfsRecover smd start size
    spaceMapAdd zfsRecover smd start size) smd sms.smRoot.toList

end Zfs
