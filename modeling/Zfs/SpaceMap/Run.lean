import Zfs.SpaceMap.Excise

/-!
# Sequences of calls on a family of space maps

Any number of maps, each made by `space_map_create`, are changed by any sequence of calls.  Where no
sum `start + size` exceeds 64 bits and no map is its own destination, the maps stay well formed and
denote the sets that the calls describe.
-/

namespace Zfs

open BalancedTree BalTree Segments Function

variable (sm : SpaceMap) (zfsRecover : Bool)

theorem implements_union :
    Implements (fun smd start size => do
      let smd ← spaceMapExcise zfsRecover smd start size
      spaceMapAdd zfsRecover smd start size) .insert := by
  have returns : ∀ {sm : SpaceMap} {start size}, sm.Wf → start + size < 2 ^ 64 →
      Returns (do
          let smd ← spaceMapExcise zfsRecover sm start size
          spaceMapAdd zfsRecover smd start size) fun sm' => sm'.Wf ∧
        sm'.points = sm.points ∪ Set.Ico start (start + size) ∧ SameRange sm sm' := by
    intro sm start size wf noWrap
    refine (spaceMapExcise_spec zfsRecover wf noWrap).bind
      fun next ⟨next_wf, next_points, range⟩ => ?_
    refine ((implements_add zfsRecover).returns next_wf noWrap).imp
      fun sm' ⟨wf', points', range'⟩ => ⟨wf', ?_, range.trans range'⟩
    rw [points', next_points, SetAction.apply, Set.sdiff_union_self]
  exact ⟨fun _ _ _ wf noWrap => (returns wf noWrap).1,
    fun _ sm' _ _ wf noWrap => (returns wf noWrap).2 sm'⟩

theorem segsCover_postorder (tree : BalTree Seg) :
    segsCover tree.postorder = segsCover tree.toList := by
  ext point
  simp only [segsCover, mem_cover, mem_postorder]

theorem SpaceMap.Wf.callable_postorder {sm : SpaceMap} (wf : sm.Wf) :
    Callable sm.smRoot.postorder :=
  fun ss member => wf.callable ss (mem_postorder.mp member)

theorem wf_spaceMapEmpty : (spaceMapEmpty sm).Wf := SpaceMap.wf_of_nil rfl rfl

@[simp] theorem points_spaceMapEmpty : (spaceMapEmpty sm).points = ∅ := by
  simp [SpaceMap.points, SpaceMap.segs, spaceMapEmpty, toList]

/-- The callbacks that `space_map_vacate` may be given. -/
inductive Callback where
  | add
  | remove
  | excise
  deriving DecidableEq, Repr

/-- The function behind a callback. -/
def Callback.func : Callback → SpaceMapFunc
  | .add => spaceMapAdd zfsRecover
  | .remove => spaceMapRemove zfsRecover
  | .excise => spaceMapExcise zfsRecover

/-- The effect of a callback on sets. -/
def Callback.action : Callback → SetAction
  | .add => .insert
  | .remove => .delete
  | .excise => .delete

theorem Callback.implements (callback : Callback) (zfsRecover : Bool) :
    Implements (callback.func zfsRecover) callback.action := by
  cases callback with
  | add => exact implements_add zfsRecover
  | remove => exact implements_remove zfsRecover
  | excise => exact implements_excise zfsRecover

/-- The calls on a family of maps, which are named by numbers. -/
inductive MapOp where
  | add (map start size : ℕ)
  | remove (map start size : ℕ)
  | excise (map start size : ℕ)
  | union (smd sms : ℕ)
  | vacate (map : ℕ)
  | vacateInto (callback : Callback) (map mdest : ℕ)
  deriving DecidableEq, Repr

/-- A family of maps. -/
abbrev Maps := ℕ → SpaceMap

/-- One call. -/
def stepMaps (maps : Maps) : MapOp → Except Halt Maps
  | .add map start size => do
    return update maps map (← spaceMapAdd zfsRecover (maps map) start size)
  | .remove map start size => do
    return update maps map (← spaceMapRemove zfsRecover (maps map) start size)
  | .excise map start size => do
    return update maps map (← spaceMapExcise zfsRecover (maps map) start size)
  | .union smd sms => do
    return update maps smd (← spaceMapUnion zfsRecover (maps smd) (maps sms))
  | .vacate map => return update maps map (spaceMapEmpty (maps map))
  | .vacateInto callback map mdest => do
    let (sm, dest) ← spaceMapVacate (callback.func zfsRecover) (maps map) (maps mdest)
    return update (update maps map sm) mdest dest

/-- A sequence of calls. -/
def runMaps (zfsRecover : Bool) (maps : Maps) : List MapOp → Except Halt Maps
  | [] => .ok maps
  | op :: ops => do runMaps zfsRecover (← stepMaps zfsRecover maps op) ops

/-- The sum of the arguments has 64 bits, and the maps differ. -/
def MapOp.Legal : MapOp → Prop
  | .add _ start size => start + size < 2 ^ 64
  | .remove _ start size => start + size < 2 ^ 64
  | .excise _ start size => start + size < 2 ^ 64
  | .union smd sms => smd ≠ sms
  | .vacate _ => True
  | .vacateInto _ map mdest => map ≠ mdest

instance : (op : MapOp) → Decidable op.Legal
  | .add _ _ _ => inferInstanceAs (Decidable (_ < _))
  | .remove _ _ _ => inferInstanceAs (Decidable (_ < _))
  | .excise _ _ _ => inferInstanceAs (Decidable (_ < _))
  | .union _ _ => inferInstanceAs (Decidable (_ ≠ _))
  | .vacate _ => inferInstanceAs (Decidable True)
  | .vacateInto _ _ _ => inferInstanceAs (Decidable (_ ≠ _))

/-- The sets after a call. -/
def setsAfter (sets : ℕ → Set ℕ) : MapOp → ℕ → Set ℕ
  | .add map start size => update sets map (sets map ∪ Set.Ico start (start + size))
  | .remove map start size => update sets map (sets map \ Set.Ico start (start + size))
  | .excise map start size => update sets map (sets map \ Set.Ico start (start + size))
  | .union smd sms => update sets smd (sets smd ∪ sets sms)
  | .vacate map => update sets map ∅
  | .vacateInto callback map mdest =>
    update (update sets map ∅) mdest
      (callback.action.apply (sets mdest) (sets map))

/-- Every map is well formed and denotes its set. -/
def MapsHold (maps : Maps) (sets : ℕ → Set ℕ) : Prop :=
  ∀ map, (maps map).Wf ∧ (maps map).points = sets map

variable {maps : Maps} {sets : ℕ → Set ℕ}

theorem MapsHold.update (hold : MapsHold maps sets) {map : ℕ} {sm : SpaceMap} {set : Set ℕ}
    (wf : sm.Wf) (points_eq : sm.points = set) (range : SameRange (maps map) sm) :
    MapsHold (update maps map sm) (update sets map set) ∧
    ∀ other, SameRange (maps other) (update maps map sm other) := by
  refine ⟨fun other => ?_, fun other => ?_⟩
  · by_cases here : other = map
    · subst here
      simpa using ⟨wf, points_eq⟩
    · simpa [here] using hold other
  · by_cases here : other = map
    · subst here
      simpa using range
    · simpa [here] using SameRange.refl _

theorem MapsHold.call (hold : MapsHold maps sets) {map : ℕ} {part : Set ℕ} {action : SetAction}
    {result : Except Halt SpaceMap} (returns : Returns result fun sm => sm.Wf ∧
      sm.points = action.apply (maps map).points part ∧ SameRange (maps map) sm) :
    Returns (do return Function.update maps map (← result)) fun maps' =>
      MapsHold maps' (Function.update sets map (action.apply (sets map) part)) ∧
      ∀ other, SameRange (maps other) (maps' other) := by
  refine returns.bind fun sm ⟨wf, points_eq, range⟩ => .ok ?_
  rw [(hold map).2] at points_eq
  exact hold.update wf points_eq range

/-- One legal call terminates and does to the sets what it says. -/
theorem stepMaps_spec (hold : MapsHold maps sets) {op : MapOp} (legal : op.Legal) :
    Returns (stepMaps zfsRecover maps op) fun maps' =>
      MapsHold maps' (setsAfter sets op) ∧ ∀ map, SameRange (maps map) (maps' map) := by
  cases op with
  | add map start size =>
    exact hold.call ((implements_add zfsRecover).returns (hold map).1 legal)
  | remove map start size =>
    exact hold.call ((implements_remove zfsRecover).returns (hold map).1 legal)
  | excise map start size =>
    exact hold.call ((implements_excise zfsRecover).returns (hold map).1 legal)
  | union smd sms =>
    have merged := (implements_union zfsRecover).applyFunc (maps sms).segs (hold sms).1.callable
      (hold smd).1
    rw [show segsCover (maps sms).segs = sets sms from (hold sms).2] at merged
    exact hold.call merged
  | vacate map =>
    exact .ok (hold.update (wf_spaceMapEmpty _) (points_spaceMapEmpty _) ⟨rfl, rfl, rfl⟩)
  | vacateInto callback map mdest =>
    have moved := (callback.implements zfsRecover).applyFunc (maps map).smRoot.postorder
      (hold map).1.callable_postorder (hold mdest).1
    have source : segsCover (maps map).smRoot.postorder = sets map :=
      (segsCover_postorder _).trans (hold map).2
    rw [source, (hold mdest).2] at moved
    simp only [stepMaps, spaceMapVacate, bind_assoc]
    refine moved.bind fun dest ⟨dest_wf, dest_points, dest_range⟩ => .ok ?_
    obtain ⟨emptied, emptied_range⟩ := hold.update (wf_spaceMapEmpty (maps map))
      (points_spaceMapEmpty (maps map)) ⟨rfl, rfl, rfl⟩
    have other : update maps map (spaceMapEmpty (maps map)) mdest = maps mdest :=
      update_of_ne (Ne.symm legal) _ _
    obtain ⟨filled, filled_range⟩ := emptied.update dest_wf dest_points (other ▸ dest_range)
    exact ⟨filled, fun third => (emptied_range third).trans (filled_range third)⟩

theorem runMaps_spec (ops : List MapOp) (legal : ∀ op ∈ ops, op.Legal)
    (hold : MapsHold maps sets) :
    Returns (runMaps zfsRecover maps ops) fun maps' =>
      MapsHold maps' (ops.foldl setsAfter sets) ∧ ∀ map, SameRange (maps map) (maps' map) := by
  induction ops generalizing maps sets with
  | nil => exact .ok ⟨hold, fun map => .refl _⟩
  | cons op ops ih =>
    refine (stepMaps_spec zfsRecover hold (legal op (by simp))).bind
      fun next ⟨next_hold, next_range⟩ => ?_
    exact (ih (fun other member => legal other (by simp [member])) next_hold).imp
      fun maps' ⟨hold', range'⟩ => ⟨hold', fun map => (next_range map).trans (range' map)⟩

/-- The maps that `space_map_create` makes for the given ranges. -/
def createdMaps (start size shift : ℕ → ℕ) : Maps :=
  fun map => spaceMapCreate (start map) (size map) (shift map)

/-- Every sequence of legal calls ends; if no `VERIFY` fails, every map is well formed, denotes the
set that the calls describe, and answers questions about it. -/
theorem space_map_run_correct (zfsRecover : Bool) (start size shift : ℕ → ℕ) (ops : List MapOp)
    (legal : ∀ op ∈ ops, op.Legal) :
    runMaps zfsRecover (createdMaps start size shift) ops ≠ .error .fuel ∧
    ∀ maps, runMaps zfsRecover (createdMaps start size shift) ops = .ok maps → ∀ map,
      (maps map).Wf ∧ SameRange (spaceMapCreate (start map) (size map) (shift map)) (maps map) ∧
      (maps map).points = ops.foldl setsAfter (fun _ => ∅) map ∧
      ∀ first length, first + length < 2 ^ 64 → UnitVerify (maps map) first length →
        ∃ answer, spaceMapContains (maps map) first length = .ok answer ∧
        (answer = true ↔ Set.Ico first (first + length) ⊆ (maps map).points) := by
  have start_hold : MapsHold (createdMaps start size shift) fun _ => ∅ :=
    fun map => ⟨wf_spaceMapCreate _ _ _, points_spaceMapCreate _ _ _⟩
  obtain ⟨terminates, acts⟩ := runMaps_spec zfsRecover ops legal start_hold
  refine ⟨terminates, fun maps ok map => ?_⟩
  obtain ⟨hold, range⟩ := acts maps ok
  exact ⟨(hold map).1, range map, (hold map).2,
    fun first length noWrap verified => spaceMapContains_iff (hold map).1 noWrap verified⟩

/-- A hole is cut, the rest is copied, and one part of the copy is excised. -/
theorem space_map_run_cut_copy_excise :
    ∃ maps, runMaps false (createdMaps 0 4096 9) [.add 0 0 1024, .add 0 1536 512, .add 0 1024 512,
        .remove 0 512 512, .union 1 0, .excise 1 1024 512] = .ok maps ∧
      (maps 1).segs = [⟨0, 512⟩, ⟨1536, 2048⟩] ∧ (maps 1).Wf := by
  refine ⟨_, rfl, by decide, ((space_map_run_correct false 0 4096 9 [.add 0 0 1024, .add 0 1536 512,
    .add 0 1024 512, .remove 0 512 512, .union 1 0, .excise 1 1024 512] ?_).2 _ rfl 1).1⟩
  decide

/-- A sum that exceeds 64 bits passes every `VERIFY` of `space_map_add`. -/
theorem space_map_add_wraps :
    AddVerify (spaceMapCreate 0 4096 9) (2 ^ 64 - 512) 1024 ∧
    ∃ sm, spaceMapAdd false (spaceMapCreate 0 4096 9) (2 ^ 64 - 512) 1024 = .ok sm ∧
    sm.segs = [⟨2 ^ 64 - 512, 512⟩] ∧ ¬sm.Wf := by
  refine ⟨by decide, _, rfl, by decide, fun wf => ?_⟩
  have proper := wf.separated.proper ⟨2 ^ 64 - 512, 512⟩ (by decide)
  revert proper
  decide

end Zfs
