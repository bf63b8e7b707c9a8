import Zfs.Library.ScopedSets
import Zfs.Deleg.Code

/-!
# Sets of permissions

A table is read as a scope of set names: what it grants, what it defines and which sets a set
includes.  The tree of collected sets is described by the names in it and by those that are matched.
-/

namespace Zfs

open ParentTree ScopedSets List

variable {Name : Type}

/-- The jump object of a key, for a directory that may have no table. -/
def jumpobj [DecidableEq Name] (zapobj : Option (DelegZap Name)) (whokey : WhoKey Name) :
    Option (List Name) :=
  zapobj.bind (AList.lookup whokey)

/-- The table has a name under a key. -/
def Lists [DecidableEq Name] (zapobj : Option (DelegZap Name)) (whokey : WhoKey Name)
    (name : Name) : Prop :=
  ∃ names ∈ jumpobj zapobj whokey, name ∈ names

/-- The permission is granted to the user, a group or everyone. -/
def Granted [DecidableEq Name] (zapobj : Option (DelegZap Name)) (checkflag : DelegInherit)
    (cr : Curproc) (perm : Name) : Prop :=
  Lists zapobj (.user checkflag cr.uid) perm ∨ Lists zapobj (.everyone checkflag) perm ∨
    ∃ id ∈ cr.gid :: cr.groups, Lists zapobj (.group checkflag id) perm

/-- The set is granted to the user, a group or everyone. -/
def GrantedSet [DecidableEq Name] (zapobj : Option (DelegZap Name)) (checkflag : DelegInherit)
    (cr : Curproc) (setname : Name) : Prop :=
  Lists zapobj (.userSets checkflag cr.uid) setname ∨
    Lists zapobj (.everyoneSets checkflag) setname ∨
    ∃ id ∈ cr.gid :: cr.groups, Lists zapobj (.groupSets checkflag id) setname

/-- The table has permissions or other sets for a set. -/
def Defines [DecidableEq Name] (zapobj : Option (DelegZap Name)) (setname : Name) : Prop :=
  (jumpobj zapobj (.namedSet setname)).isSome ∨ (jumpobj zapobj (.namedSetSets setname)).isSome

theorem Lists.isSome [DecidableEq Name] {zapobj : Option (DelegZap Name)} {whokey : WhoKey Name}
    {name : Name} (listed : Lists zapobj whokey name) : (jumpobj zapobj whokey).isSome := by
  obtain ⟨names, found, -⟩ := listed
  exact Option.isSome_iff_exists.mpr ⟨names, found⟩

/-- A table as a scope of set names, in the search for one permission. -/
def tableScope [DecidableEq Name] (zapobj : Option (DelegZap Name)) (checkflag : DelegInherit)
    (cr : Curproc) (perm : Name) : Scope Name where
  granted := {setname | GrantedSet zapobj checkflag cr setname}
  defined := {setname | Defines zapobj setname}
  included := fun setname => {other | Lists zapobj (.namedSetSets setname) other}
  holding := {setname | Lists zapobj (.namedSet setname) perm}
  included_defined := fun listed => Or.inr listed.isSome
  holding_defined := fun _ listed => Or.inl listed.isSome

/-- The names of the collected sets. -/
def held (permsets : List (PermSet Name)) : Set Name :=
  {setname | ∃ node ∈ permsets, node.pSetname = setname}

/-- The names of the sets that are matched. -/
def matched (permsets : List (PermSet Name)) : Set Name :=
  {setname | ⟨setname, true⟩ ∈ permsets}

/-- The nodes stand in the order of the tree. -/
def Sorted [LT Name] (permsets : List (PermSet Name)) : Prop :=
  permsets.Pairwise fun node next => node.pSetname < next.pSetname

theorem matched_subset_held (permsets : List (PermSet Name)) : matched permsets ⊆ held permsets :=
  fun _ member => ⟨_, member, rfl⟩

variable [LinearOrder Name] {permsets : List (PermSet Name)} {setname perm : Name}

theorem addSet_perm (permsets : List (PermSet Name)) :
    addSet setname permsets = permsets ∧ setname ∈ held permsets ∨
      addSet setname permsets ~ ⟨setname, false⟩ :: permsets := by
  induction permsets with
  | nil => exact .inr (.refl _)
  | cons first rest ih =>
    rw [addSet]
    split_ifs with same below
    · exact .inl ⟨rfl, first, mem_cons_self, same.symm⟩
    · exact .inr (.refl _)
    · rcases ih with ⟨kept, node, member, name_eq⟩ | added
      · exact .inl ⟨by rw [kept], node, mem_cons_of_mem _ member, name_eq⟩
      · exact .inr ((added.cons _).trans (.swap _ _ _))

theorem mem_addSet {node : PermSet Name} (member : node ∈ addSet setname permsets) :
    node = ⟨setname, false⟩ ∨ node ∈ permsets := by
  rcases addSet_perm permsets with ⟨kept, -⟩ | added
  · exact .inr (kept ▸ member)
  · exact mem_cons.mp (added.mem_iff.mp member)

theorem Sorted.addSet (sorted : Sorted permsets) : Sorted (addSet setname permsets) := by
  induction permsets with
  | nil => exact pairwise_singleton _ _
  | cons first rest ih =>
    obtain ⟨before, later⟩ := pairwise_cons.mp sorted
    rw [Zfs.addSet]
    split_ifs with same below
    · exact sorted
    · refine pairwise_cons.mpr ⟨?_, sorted⟩
      intro node member
      rcases mem_cons.mp member with rfl | member
      · exact below
      · exact below.trans (before node member)
    · refine pairwise_cons.mpr ⟨?_, ih later⟩
      intro node member
      rcases mem_addSet member with rfl | member
      · exact lt_of_le_of_ne (not_lt.mp below) (Ne.symm same)
      · exact before node member

@[simp]
theorem held_setMatched : held (setMatched setname permsets) = held permsets := by
  ext other
  simp only [held, setMatched, mem_map, Set.mem_ofPred_eq]
  constructor
  · rintro ⟨-, ⟨node, member, rfl⟩, rfl⟩
    exact ⟨node, member, by split_ifs <;> rfl⟩
  · rintro ⟨node, member, rfl⟩
    exact ⟨_, ⟨node, member, rfl⟩, by split_ifs <;> rfl⟩

theorem matched_setMatched (member : setname ∈ held permsets) :
    matched (setMatched setname permsets) = insert setname (matched permsets) := by
  ext other
  simp only [matched, setMatched, mem_map, Set.mem_ofPred_eq, Set.mem_insert_iff]
  constructor
  · rintro ⟨node, inside, changed⟩
    split_ifs at changed with same
    · exact Or.inl ((congrArg PermSet.pSetname changed).symm.trans same)
    · exact Or.inr (changed ▸ inside)
  · rintro (rfl | inside)
    · obtain ⟨node, inside, rfl⟩ := member
      exact ⟨node, inside, by rw [if_pos rfl]⟩
    · exact ⟨_, inside, by split_ifs <;> rfl⟩

theorem Sorted.setMatched (sorted : Sorted permsets) : Sorted (setMatched setname permsets) := by
  refine pairwise_map.mpr (Pairwise.imp ?_ sorted)
  intro node next before
  split_ifs <;> exact before

theorem Sorted.not_matched (sorted : Sorted permsets) {node : PermSet Name}
    (member : node ∈ permsets) (unmatched : node.pMatched = false) :
    node.pSetname ∉ matched permsets := by
  intro marked
  have names_nodup : (permsets.map PermSet.pSetname).Nodup :=
    pairwise_map.mpr (Pairwise.imp (fun before => ne_of_lt before) sorted)
  have same : node = ⟨node.pSetname, true⟩ :=
    inj_on_of_nodup_map names_nodup member marked rfl
  rw [same] at unmatched
  exact absurd unmatched (by simp)

/-- Names are added to the tree, without a mark. -/
structure Loads (permsets : List (PermSet Name)) (names : Set Name)
    (after : List (PermSet Name)) : Prop where
  held_eq : held after = held permsets ∪ names
  matched_eq : matched after = matched permsets
  sorted : Sorted permsets → Sorted after

theorem loads_addSet (setname : Name) (permsets : List (PermSet Name)) :
    Loads permsets {setname} (addSet setname permsets) := by
  refine ⟨?_, ?_, Sorted.addSet⟩
  · rcases addSet_perm permsets with ⟨kept, old⟩ | added
    · rw [kept, Set.union_singleton, Set.insert_eq_of_mem old]
    · ext other
      simp [held, added.mem_iff, eq_comm, or_comm]
  · rcases addSet_perm permsets with ⟨kept, -⟩ | added
    · rw [kept]
    · ext other
      simp [matched, added.mem_iff]

theorem Loads.trans {names more : Set Name} {next after : List (PermSet Name)}
    (first : Loads permsets names next) (second : Loads next more after) :
    Loads permsets (names ∪ more) after where
  held_eq := by rw [second.held_eq, first.held_eq, Set.union_assoc]
  matched_eq := second.matched_eq.trans first.matched_eq
  sorted := fun old => second.sorted (first.sorted old)

theorem Loads.foldl {Item : Type} {load : List (PermSet Name) → Item → List (PermSet Name)}
    {names : Item → Set Name} (loads : ∀ sets item, Loads sets (names item) (load sets item))
    (items : List Item) (permsets : List (PermSet Name)) :
    Loads permsets {name | ∃ item ∈ items, name ∈ names item} (items.foldl load permsets) := by
  induction items generalizing permsets with
  | nil => exact ⟨by simp, rfl, id⟩
  | cons first rest ih =>
    have all : {name | ∃ item ∈ first :: rest, name ∈ names item} =
        names first ∪ {name | ∃ item ∈ rest, name ∈ names item} := by
      ext name
      simp
    rw [all]
    exact (loads permsets first).trans (ih _)

variable {zapobj : DelegZap Name} {whokey : WhoKey Name}

theorem loads_dslLoadSets (zapobj : DelegZap Name) (whokey : WhoKey Name)
    (permsets : List (PermSet Name)) : Loads permsets {name | Lists (some zapobj) whokey name}
      (dslLoadSets zapobj whokey permsets).2 := by
  unfold dslLoadSets Lists jumpobj
  cases found : zapobj.lookup whokey with
  | none => exact ⟨by simp [found], rfl, id⟩
  | some names => simpa [found] using Loads.foldl (fun sets name => loads_addSet name sets) names _

theorem dslLoadSets_error : (dslLoadSets zapobj whokey permsets).1 = 0 ↔
    (jumpobj (some zapobj) whokey).isSome := by
  unfold dslLoadSets jumpobj
  cases found : zapobj.lookup whokey with
  | none => simp [found, enoent]
  | some names => simp [found]

theorem dslLoadSets_absent (absent : ¬ (jumpobj (some zapobj) whokey).isSome) :
    (dslLoadSets zapobj whokey permsets).2 = permsets := by
  unfold dslLoadSets
  cases found : zapobj.lookup whokey with
  | none => rfl
  | some names => exact absurd (by simp [jumpobj, found]) absent

variable {checkflag : DelegInherit} {cr : Curproc}

theorem loads_dslLoadUserSets : Loads permsets
    {setname | GrantedSet (some zapobj) checkflag cr setname}
    (dslLoadUserSets zapobj permsets checkflag cr) := by
  have loads := ((loads_dslLoadSets zapobj (.userSets checkflag cr.uid) permsets).trans
    (loads_dslLoadSets zapobj (.groupSets checkflag cr.gid) _)).trans
      (loads_dslLoadSets zapobj (.everyoneSets checkflag) _) |>.trans
        (.foldl (fun sets id => loads_dslLoadSets zapobj (.groupSets checkflag id) sets)
          cr.groups _)
  refine ⟨loads.held_eq.trans ?_, loads.matched_eq, loads.sorted⟩
  ext name
  simp only [GrantedSet, Set.mem_union, Set.mem_ofPred_eq, mem_cons, exists_eq_or_imp]
  tauto

theorem dslCheckAccess_eq_zero :
    dslCheckAccess zapobj whokey perm = 0 ↔ Lists (some zapobj) whokey perm := by
  unfold dslCheckAccess Lists jumpobj
  cases found : zapobj.lookup whokey with
  | none => simp [found, enoent]
  | some names => simp [found, eperm]

/-- `EPERM` stands for an entry without the permission. -/
theorem dslCheckAccess_eq_eperm (refused : dslCheckAccess zapobj whokey perm ≠ 0) :
    dslCheckAccess zapobj whokey perm = eperm ↔ (jumpobj (some zapobj) whokey).isSome := by
  unfold dslCheckAccess at refused ⊢
  unfold jumpobj
  cases found : zapobj.lookup whokey with
  | none => simp [found, enoent, eperm]
  | some names =>
    rw [found] at refused
    simpa [found, eperm] using refused

theorem dslCheckUserAccess_eq_zero : dslCheckUserAccess zapobj perm checkflag cr = 0 ↔
    Granted (some zapobj) checkflag cr perm := by
  unfold dslCheckUserAccess Granted
  simp only [← dslCheckAccess_eq_zero, mem_cons, exists_eq_or_imp]
  split_ifs with user group everyone groups
  · simp [user]
  · simp [group]
  · simp [everyone]
  · have supplemental := any_eq_true.mp groups
    simp only [decide_eq_true_eq] at supplemental
    simp [supplemental]
  · have supplemental : ¬ ∃ id ∈ cr.groups,
        dslCheckAccess zapobj (.group checkflag id) perm = 0 := by
      simpa using groups
    simp [user, group, everyone, supplemental, eperm]

end Zfs
