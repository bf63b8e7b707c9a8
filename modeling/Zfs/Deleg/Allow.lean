import Zfs.Deleg.Access

/-!
# Requests to allow permissions

A request is accepted when the requester has, on the dataset it names, the permission to allow and
all permissions it lists.  An entry for descendants takes effect on datasets below the named one, on
which the requester may have none of them.
-/

namespace Zfs

open ParentTree ScopedSets DelegPool List

variable {Name : Type}

/-- The request lists a name under a key. -/
def Requests (nvp : List (WhoKey Name × List Name)) (whokey : WhoKey Name) (name : Name) : Prop :=
  ∃ perms, (whokey, perms) ∈ nvp ∧ name ∈ perms

/-- The request lists a permission for the user, a group or everyone. -/
def RequestsFor (nvp : List (WhoKey Name × List Name)) (checkflag : DelegInherit) (cr : Curproc)
    (perm : Name) : Prop :=
  Requests nvp (.user checkflag cr.uid) perm ∨ Requests nvp (.everyone checkflag) perm ∨
    ∃ id ∈ cr.gid :: cr.groups, Requests nvp (.group checkflag id) perm

/-- The request lists a set for the user, a group or everyone. -/
def RequestsSet (nvp : List (WhoKey Name × List Name)) (checkflag : DelegInherit) (cr : Curproc)
    (setname : Name) : Prop :=
  Requests nvp (.userSets checkflag cr.uid) setname ∨
    Requests nvp (.everyoneSets checkflag) setname ∨
    ∃ id ∈ cr.gid :: cr.groups, Requests nvp (.groupSets checkflag id) setname

/-- The request has permissions or other sets for a set. -/
def RequestDefines (nvp : List (WhoKey Name × List Name)) (setname : Name) : Prop :=
  ∃ whopair ∈ nvp, whopair.1 = .namedSet setname ∨ whopair.1 = .namedSetSets setname

/-- The keys that grant or define sets. -/
def WhoKey.forSets : WhoKey Name → Bool
  | userSets _ _ | groupSets _ _ | everyoneSets _ | namedSet _ | namedSetSets _ => true
  | user _ _ | group _ _ | everyone _ | create | createSets => false

variable [LinearOrder Name]

variable {name : Name} {zapobj : DelegZap Name} {whokey : WhoKey Name} {dataset : ℕ}

theorem mem_foldl_insert {names perms : List Name} :
    name ∈ perms.foldl (fun jump perm => jump.insert perm) names ↔ name ∈ names ∨ name ∈ perms := by
  induction perms generalizing names with
  | nil => simp
  | cons first rest ih =>
    rw [foldl_cons, ih, mem_insert_iff, mem_cons]
    tauto

theorem lists_setWho {whopair : WhoKey Name × List Name} :
    Lists (some (setWho zapobj whopair)) whokey name ↔
      Lists (some zapobj) whokey name ∨ whopair.1 = whokey ∧ name ∈ whopair.2 := by
  unfold Lists jumpobj setWho
  by_cases same : whopair.1 = whokey
  · subst same
    cases found : zapobj.lookup whopair.1 with
    | none => simp [found, mem_foldl_insert]
    | some names => simp [found, mem_foldl_insert]
  · simp [AList.lookup_insert_ne (Ne.symm same), same]

theorem lists_foldl_setWho {nvp : List (WhoKey Name × List Name)} :
    Lists (some (nvp.foldl setWho zapobj)) whokey name ↔
      Lists (some zapobj) whokey name ∨ Requests nvp whokey name := by
  induction nvp generalizing zapobj with
  | nil => simp [Requests]
  | cons whopair rest ih =>
    rw [foldl_cons, ih, lists_setWho, or_assoc]
    refine or_congr_right ?_
    unfold Requests
    constructor
    · rintro (⟨rfl, member⟩ | ⟨perms, later, member⟩)
      · exact ⟨whopair.2, mem_cons_self, member⟩
      · exact ⟨perms, mem_cons_of_mem _ later, member⟩
    · rintro ⟨perms, inside, member⟩
      rcases mem_cons.mp inside with rfl | later
      · exact Or.inl ⟨rfl, member⟩
      · exact Or.inr ⟨perms, later, member⟩

/-- Keys that the request does not list keep their jump object. -/
theorem jumpobj_foldl_setWho {nvp : List (WhoKey Name × List Name)}
    (absent : ∀ whopair ∈ nvp, whopair.1 ≠ whokey) :
    jumpobj (some (nvp.foldl setWho zapobj)) whokey = jumpobj (some zapobj) whokey := by
  induction nvp generalizing zapobj with
  | nil => rfl
  | cons whopair rest ih =>
    rw [foldl_cons, ih fun other later => absent other (mem_cons_of_mem _ later)]
    exact AList.lookup_insert_ne (Ne.symm (absent whopair mem_cons_self))

theorem jumpobj_getD (zapobj : Option (DelegZap Name)) (whokey : WhoKey Name) :
    jumpobj (some (zapobj.getD ∅)) whokey = jumpobj zapobj whokey := by
  cases zapobj with
  | none => rfl
  | some table => rfl

namespace DelegPool

variable {dp after : DelegPool Name} {permAllow perm : Name} {dd : ℕ} {cr : Curproc}
  {nvp : List (WhoKey Name × List Name)}

section

variable (stored : dp.dslDelegSet dd nvp = .ok after)

include stored

/-- A stored request changes the table of one directory. -/
theorem dslDelegSet_eq :
    dd ∈ dp.forest.nodes ∧ after.forest = dp.forest ∧ after.zoned = dp.zoned ∧
    after.spaDelegation = dp.spaDelegation ∧
    after.ddDelegZapobj = Function.update dp.ddDelegZapobj dd
      (some (nvp.foldl setWho ((dp.ddDelegZapobj dd).getD ∅))) := by
  unfold dslDelegSet at stored
  split_ifs at stored with missing old
  cases stored
  exact ⟨missing, rfl, rfl, rfl, rfl⟩

theorem lists_after : Lists (after.ddDelegZapobj dd) whokey name ↔
    Lists (dp.ddDelegZapobj dd) whokey name ∨ Requests nvp whokey name := by
  obtain ⟨-, -, -, -, tables⟩ := dslDelegSet_eq stored
  rw [tables, Function.update_self, lists_foldl_setWho]
  exact or_congr_left (by rw [Lists, Lists, jumpobj_getD])

theorem granted_after (checkflag : DelegInherit) :
    Granted (after.ddDelegZapobj dd) checkflag cr perm ↔
      Granted (dp.ddDelegZapobj dd) checkflag cr perm ∨ RequestsFor nvp checkflag cr perm := by
  simp only [Granted, RequestsFor, lists_after stored, and_or_left, exists_or]
  exact Iff.of_eq (by ac_rfl)

theorem grantedSet_after (checkflag : DelegInherit) :
    GrantedSet (after.ddDelegZapobj dd) checkflag cr name ↔
      GrantedSet (dp.ddDelegZapobj dd) checkflag cr name ∨ RequestsSet nvp checkflag cr name := by
  simp only [GrantedSet, RequestsSet, lists_after stored, and_or_left, exists_or]
  exact Iff.of_eq (by ac_rfl)

theorem tables_after_of_ne {up : ℕ} (other : up ≠ dd) :
    after.ddDelegZapobj up = dp.ddDelegZapobj up := by
  obtain ⟨-, -, -, -, tables⟩ := dslDelegSet_eq stored
  rw [tables, Function.update_of_ne other]

theorem jumpobj_after (absent : ∀ whopair ∈ nvp, whopair.1 ≠ whokey) (up : ℕ) :
    jumpobj (after.ddDelegZapobj up) whokey = jumpobj (dp.ddDelegZapobj up) whokey := by
  by_cases here : up = dd
  · obtain ⟨-, -, -, -, tables⟩ := dslDelegSet_eq stored
    rw [here, tables, Function.update_self, jumpobj_foldl_setWho absent, jumpobj_getD]
  · rw [tables_after_of_ne stored here]

end

/-- A check succeeds. -/
def Holds (dp : DelegPool Name) (dataset : ℕ) (perm : Name) (cr : Curproc) : Prop :=
  dp.dslDelegAccess dataset perm cr = .ok 0

theorem holds_iff : dp.Holds dataset perm cr ↔
    dataset ∈ dp.forest.nodes ∧ dp.spaDelegation = true ∧ dp.Permitted dataset perm cr := by
  unfold Holds
  constructor
  · intro ok
    have member : dataset ∈ dp.forest.nodes := by
      by_contra missing
      rw [dslDelegAccess, if_pos missing] at ok
      exact absurd (Except.ok.inj ok) (by decide)
    have enabled : dp.spaDelegation = true := by
      by_contra off
      rw [dslDelegAccess, if_neg (not_not.mpr member),
        if_pos (Bool.eq_false_of_not_eq_true off)] at ok
      exact absurd (Except.ok.inj ok) (by decide)
    obtain ⟨error, run, meaning⟩ := dslDelegAccess_spec member enabled
    exact ⟨member, enabled, meaning.mp (Except.ok.inj (run.symm.trans ok))⟩
  · rintro ⟨member, enabled, permitted⟩
    obtain ⟨error, run, meaning⟩ := dslDelegAccess_spec member enabled
    rw [run, meaning.mpr permitted]

theorem canAllowPerms_holds {perms : List Name}
    (accepted : dp.canAllowPerms permAllow dd cr perms = .ok 0) :
    ∀ perm ∈ perms, dp.Holds dd perm cr := by
  induction perms with
  | nil => simp
  | cons first rest ih =>
    unfold canAllowPerms at accepted
    split_ifs at accepted with is_allow
    · exact absurd (Except.ok.inj accepted) (by decide)
    obtain ⟨error, checked, later⟩ := bind_ok accepted
    split_ifs at later with refused
    · exact absurd (Except.ok.inj later) refused
    rw [not_not.mp refused] at checked
    exact forall_mem_cons.mpr ⟨checked, ih later⟩

theorem canAllowWhos_holds (accepted : dp.canAllowWhos permAllow dd cr nvp = .ok 0) :
    ∀ whopair ∈ nvp, ∀ perm ∈ whopair.2, dp.Holds dd perm cr := by
  induction nvp with
  | nil => simp
  | cons first rest ih =>
    unfold canAllowWhos at accepted
    obtain ⟨error, checked, later⟩ := bind_ok accepted
    split_ifs at later with refused
    · exact absurd (Except.ok.inj later) refused
    rw [not_not.mp refused] at checked
    exact forall_mem_cons.mpr ⟨canAllowPerms_holds checked, ih later⟩

/-- The requester of an accepted request has every requested permission. -/
theorem accepted_holds (accepted : dp.dslDelegCanAllow permAllow dd nvp cr = .ok 0) :
    dp.spaDelegation = true ∧
    ∀ whokey perm, Requests nvp whokey perm → dp.Holds dd perm cr := by
  unfold dslDelegCanAllow at accepted
  obtain ⟨error, checked, later⟩ := bind_ok accepted
  split_ifs at later with refused
  · exact absurd (Except.ok.inj later) refused
  rw [not_not.mp refused] at checked
  refine ⟨(holds_iff.mp checked).2.1, ?_⟩
  rintro whokey perm ⟨perms, member, inside⟩
  exact canAllowWhos_holds later _ member perm inside

/-- The directories on the way up give a set with the permission. -/
def SetsLead (dp : DelegPool Name) (dataset : ℕ) (perm : Name) (cr : Curproc) : Prop :=
  Outlook.empty.Leads ((dp.consulted cr (dp.forest.chain dataset)).map fun up =>
    tableScope (dp.ddDelegZapobj up) (flagAt dataset up) cr perm)

section Sets

variable (dp : DelegPool Name) (dd : ℕ) (nvp : List (WhoKey Name × List Name)) (dataset : ℕ)
  (cr : Curproc)

/-- The request, or a table on the way up from the dataset, has a name under a key. -/
def ListedFor (whokey : WhoKey Name) (name : Name) : Prop :=
  Requests nvp whokey name ∨
    ∃ up ∈ dp.consulted cr (dp.forest.chain dataset), Lists (dp.ddDelegZapobj up) whokey name

/-- The sets that come to a process through the request. -/
inductive SetFrom : Name → Prop
  | requested {name : Name} (requested : RequestsSet nvp (flagAt dataset dd) cr name) : SetFrom name
  | defined {name : Name} (defined : RequestDefines nvp name) : SetFrom name
  | included {name other : Name} (outer : SetFrom name)
    (listed : dp.ListedFor nvp dataset cr (.namedSetSets name) other) : SetFrom other

/-- The sets that a process can have on the dataset, with the request. -/
inductive SetFor : Name → Prop
  | granted {name : Name} {up : ℕ} (consulted : up ∈ dp.consulted cr (dp.forest.chain dataset))
    (granted : GrantedSet (dp.ddDelegZapobj up) (flagAt dataset up) cr name) : SetFor name
  | requested {name : Name} (requested : RequestsSet nvp (flagAt dataset dd) cr name) : SetFor name
  | included {name other : Name} (outer : SetFor name)
    (listed : dp.ListedFor nvp dataset cr (.namedSetSets name) other) : SetFor other

end Sets

/-- Whom an entry for descendants gives a permission on a dataset below the named one, that one or
the requester has it there. -/
def DescendantsHeld (dp : DelegPool Name) (dd : ℕ) (nvp : List (WhoKey Name × List Name))
    (requester : Curproc) : Prop :=
  ∀ dataset ∈ dp.forest.nodes, dataset ≠ dd → ∀ cr perm,
    dd ∈ dp.consulted cr (dp.forest.chain dataset) → RequestsFor nvp .zfsDelegDescendent cr perm →
      dp.Holds dataset perm cr ∨ dp.Holds dataset perm requester

/-- Whoever can have a set that comes through the request has its permissions, or the requester has
them. -/
def SetsHeld (dp : DelegPool Name) (dd : ℕ) (nvp : List (WhoKey Name × List Name))
    (requester : Curproc) : Prop :=
  ∀ dataset ∈ dp.forest.nodes, ∀ cr, dd ∈ dp.consulted cr (dp.forest.chain dataset) →
    ∀ setname, dp.SetFrom dd nvp dataset cr setname → dp.SetFor dd nvp dataset cr setname →
      ∀ perm, dp.ListedFor nvp dataset cr (.namedSet setname) perm →
        dp.Holds dataset perm cr ∨ dp.Holds dataset perm requester

/-- A request without sets brings no set to anybody. -/
theorem not_setFrom (plain : ∀ whopair ∈ nvp, whopair.1.forSets = false) :
    ¬ dp.SetFrom dd nvp dataset cr name := by
  have unrequested : ∀ {whokey : WhoKey Name} {name : Name}, whokey.forSets = true →
      ¬ Requests nvp whokey name := by
    rintro whokey name for_sets ⟨perms, member, -⟩
    exact Bool.false_ne_true ((plain _ member).symm.trans for_sets)
  intro found
  induction found with
  | requested requested =>
    rcases requested with user | everyone | ⟨id, -, group⟩
    · exact unrequested rfl user
    · exact unrequested rfl everyone
    · exact unrequested rfl group
  | defined defined =>
    obtain ⟨whopair, member, key | key⟩ := defined <;>
      exact Bool.false_ne_true ((plain _ member).symm.trans (key ▸ rfl))
  | included _ _ ih => exact ih

theorem consulted_after (stored : dp.dslDelegSet dd nvp = .ok after) (path : List ℕ) :
    after.consulted cr path = dp.consulted cr path := by
  obtain ⟨-, -, zoned_eq, -⟩ := dslDelegSet_eq stored
  rw [consulted, zoned_eq, consulted]

section Scopes

variable (stored : dp.dslDelegSet dd nvp = .ok after)

include stored

theorem listedFor_of_after {up : ℕ} (member : up ∈ dp.consulted cr (dp.forest.chain dataset))
    (listed : Lists (after.ddDelegZapobj up) whokey name) :
    dp.ListedFor nvp dataset cr whokey name := by
  by_cases here : up = dd
  · subst here
    exact ((lists_after stored).mp listed).symm.imp_right fun before => ⟨up, member, before⟩
  · rw [tables_after_of_ne stored here] at listed
    exact .inr ⟨up, member, listed⟩

/-- The request changes the scopes at the sets that come through it only. -/
theorem agreeOff_after {up : ℕ} (member : up ∈ dp.consulted cr (dp.forest.chain dataset)) :
    AgreeOff {name | dp.SetFrom dd nvp dataset cr name}
      (tableScope (dp.ddDelegZapobj up) (flagAt dataset up) cr perm)
      (tableScope (after.ddDelegZapobj up) (flagAt dataset up) cr perm) := by
  have kept : ∀ name, ¬ dp.SetFrom dd nvp dataset cr name →
      jumpobj (after.ddDelegZapobj up) (.namedSet name) =
        jumpobj (dp.ddDelegZapobj up) (.namedSet name) ∧
      jumpobj (after.ddDelegZapobj up) (.namedSetSets name) =
        jumpobj (dp.ddDelegZapobj up) (.namedSetSets name) := fun name untouched =>
    ⟨jumpobj_after stored (fun whopair at_ key => untouched (.defined ⟨whopair, at_, .inl key⟩)) up,
      jumpobj_after stored (fun whopair at_ key => untouched (.defined ⟨whopair, at_, .inr key⟩))
        up⟩
  constructor
  · intro name untouched
    by_cases here : up = dd
    · subst here
      exact ((grantedSet_after stored _).trans
        (or_iff_left fun requested => untouched (.requested requested))).symm
    · exact iff_of_eq (by rw [tables_after_of_ne stored here])
  · intro name untouched
    obtain ⟨permissions, sets⟩ := kept name untouched
    exact iff_of_eq (by simp only [tableScope, Set.mem_ofPred_eq, Defines, permissions, sets])
  · intro name untouched
    have permissions := (kept name untouched).1
    exact iff_of_eq (by simp only [tableScope, Set.mem_ofPred_eq, Lists, permissions])
  · intro name inner untouched
    by_cases outer : dp.SetFrom dd nvp dataset cr name
    · exact iff_of_false (fun listed => untouched (.included outer (.inr ⟨up, member, listed⟩)))
        fun listed => untouched (.included outer (listedFor_of_after stored member listed))
    · exact iff_of_eq (by simp only [tableScope, Lists, (kept name outer).2])
  · exact fun name outer inner listed => .included outer (listedFor_of_after stored member listed)

/-- A set that leads to a permission after the request comes through it, or led to it before. -/
theorem setsLead_after (leads : after.SetsLead dataset perm cr) :
    dp.SetsLead dataset perm cr ∨ ∃ setname, dp.SetFrom dd nvp dataset cr setname ∧
      dp.SetFor dd nvp dataset cr setname ∧
      dp.ListedFor nvp dataset cr (.namedSet setname) perm := by
  obtain ⟨-, forest_eq, -⟩ := dslDelegSet_eq stored
  rw [SetsLead, forest_eq, consulted_after stored] at leads
  have same : (Outlook.empty : Outlook Name).AgreeOff {name | dp.SetFrom dd nvp dataset cr name}
      .empty := ⟨fun _ _ => Iff.rfl, fun _ _ => Iff.rfl⟩
  have none_known : (Outlook.empty : Outlook Name).known ⊆
      {name | dp.SetFor dd nvp dataset cr name} := Set.empty_subset _
  refine (same.leads (fun up member => agreeOff_after stored member) none_known ?_ ?_
    leads).imp_right ?_
  · intro up member name granted
    by_cases here : up = dd
    · subst here
      exact ((grantedSet_after stored _).mp granted).elim (.granted member) .requested
    · exact .granted member (tables_after_of_ne stored here ▸ granted)
  · exact fun up member name outer inner listed =>
      .included outer (listedFor_of_after stored member listed)
  · rintro ⟨up, member, setname, through, can, listed⟩
    exact ⟨setname, through, can, listedFor_of_after stored member listed⟩

end Scopes

theorem permitted_after (stored : dp.dslDelegSet dd nvp = .ok after) :
    after.Permitted dataset perm cr ↔
      (∃ up ∈ dp.consulted cr (dp.forest.chain dataset),
        Granted (dp.ddDelegZapobj up) (flagAt dataset up) cr perm) ∨
      dd ∈ dp.consulted cr (dp.forest.chain dataset) ∧
      RequestsFor nvp (flagAt dataset dd) cr perm ∨
      after.SetsLead dataset perm cr := by
  obtain ⟨-, forest_eq, -⟩ := dslDelegSet_eq stored
  rw [Permitted, PermittedAlong, ← or_assoc, forest_eq, consulted_after stored]
  refine or_congr ⟨?_, ?_⟩ (by rw [SetsLead, forest_eq, consulted_after stored])
  · rintro ⟨up, member, granted⟩
    by_cases here : up = dd
    · subst here
      exact ((granted_after stored _).mp granted).imp (fun before => ⟨up, member, before⟩)
        (fun added => ⟨member, added⟩)
    · rw [tables_after_of_ne stored here] at granted
      exact Or.inl ⟨up, member, granted⟩
  · rintro (⟨up, member, granted⟩ | ⟨member, added⟩)
    · refine ⟨up, member, ?_⟩
      by_cases here : up = dd
      · subst here
        exact (granted_after stored _).mpr (Or.inl granted)
      · rwa [tables_after_of_ne stored here]
    · exact ⟨dd, member, (granted_after stored _).mpr (Or.inr added)⟩

end DelegPool

/-- An accepted request lets nobody gain a permission that the requester lacks if its entries for
descendants and its sets are held.  The former is needed, and all that is needed without sets. -/
theorem dsl_deleg_allow_held {dp after : DelegPool Name} {permAllow : Name} {dd : ℕ}
    {requester : Curproc} {nvp : List (WhoKey Name × List Name)}
    (accepted : dp.dslDelegCanAllow permAllow dd nvp requester = .ok 0)
    (stored : dp.dslDelegSet dd nvp = .ok after) :
    let safe := ∀ dataset perm cr, after.Holds dataset perm cr → ¬ dp.Holds dataset perm cr →
      dp.Holds dataset perm requester
    (dp.DescendantsHeld dd nvp requester ∧ dp.SetsHeld dd nvp requester → safe) ∧
      (safe → dp.DescendantsHeld dd nvp requester) ∧
      ((∀ whopair ∈ nvp, whopair.1.forSets = false) →
        (safe ↔ dp.DescendantsHeld dd nvp requester)) := by
  intro safe
  obtain ⟨enabled, requester_holds⟩ := accepted_holds accepted
  obtain ⟨-, forest_eq, -, delegation_eq, -⟩ := dslDelegSet_eq stored
  have needed : safe → dp.DescendantsHeld dd nvp requester := by
    intro safe dataset member below cr perm consulted requested
    have flag_eq : flagAt dataset dd = .zfsDelegDescendent := if_neg (Ne.symm below)
    have permitted : after.Permitted dataset perm cr :=
      (permitted_after stored).mpr (.inr (.inl ⟨consulted, flag_eq ▸ requested⟩))
    exact or_iff_not_imp_left.mpr (safe dataset perm cr
      (holds_iff.mpr ⟨forest_eq ▸ member, delegation_eq.trans enabled, permitted⟩))
  have enough : dp.DescendantsHeld dd nvp requester ∧ dp.SetsHeld dd nvp requester → safe := by
    rintro ⟨descendants, sets⟩ dataset perm cr gains lacked
    obtain ⟨member, -, permitted⟩ := holds_iff.mp gains
    rw [forest_eq] at member
    have not_before : ¬ dp.Permitted dataset perm cr := fun before =>
      lacked (holds_iff.mpr ⟨member, enabled, before⟩)
    rcases (permitted_after stored).mp permitted with
      direct | ⟨consulted, requested⟩ | leads
    · exact absurd (.inl direct) not_before
    · by_cases named : dataset = dd
      · -- on the named dataset itself the requester was asked to have the permission
        subst named
        rcases requested with user | everyone | ⟨id, -, group⟩
        · exact requester_holds _ perm user
        · exact requester_holds _ perm everyone
        · exact requester_holds _ perm group
      · have flag_eq : flagAt dataset dd = .zfsDelegDescendent := if_neg (Ne.symm named)
        rw [flag_eq] at requested
        exact (descendants dataset member named cr perm consulted requested).resolve_left lacked
    · by_cases consulted : dd ∈ dp.consulted cr (dp.forest.chain dataset)
      · rcases setsLead_after stored leads with before | ⟨setname, through, can, listed⟩
        · exact absurd (.inr before) not_before
        · exact (sets dataset member cr consulted setname through can perm listed).resolve_left
            lacked
      · refine absurd (.inr ?_) not_before
        rw [SetsLead, forest_eq, consulted_after stored] at leads
        rwa [List.map_congr_left fun up at_ => by
          rw [tables_after_of_ne stored fun here => consulted (here ▸ at_)]] at leads
  exact ⟨enough, needed, fun plain => ⟨needed, fun descendants => enough ⟨descendants,
    fun _ _ _ _ _ through => absurd through (not_setFrom plain)⟩⟩⟩

/-- User 5 may allow (0) and create (7) on directory 0 only, which has a child 1. -/
def localAllow : DelegPool ℕ where
  forest := cyclicSets.forest
  ddDelegZapobj dd :=
    if dd = 0 then some ⟨[⟨.user .zfsDelegLocal 5, [0, 7]⟩], by simp⟩ else none
  zoned _ := some 0
  spaDelegation := true
  spaVersion := 8
  supported old := absurd old (by decide)

/-- The pool after user 5 lets user 6 create below directory 0. -/
def localAllowed : DelegPool ℕ :=
  localAllow.dslDelegSetSync (by decide) 0 [(.user .zfsDelegDescendent 6, [7])]

/-- The request is accepted and gives user 6 a permission on directory 1 that user 5 has not. -/
theorem dsl_deleg_allow_overreach :
    localAllow.dslDelegCanAllow 0 0 [(.user .zfsDelegDescendent 6, [7])] ⟨5, 10, [], true⟩ =
        .ok 0 ∧
      localAllow.dslDelegSet 0 [(.user .zfsDelegDescendent 6, [7])] = .ok localAllowed ∧
      localAllowed.Holds 1 7 ⟨6, 10, [], true⟩ ∧ ¬ localAllow.Holds 1 7 ⟨6, 10, [], true⟩ ∧
      ¬ localAllow.Holds 1 7 ⟨5, 10, [], true⟩ := by
  have refused : (.ok eperm : Except Halt ℕ) ≠ .ok 0 := by decide
  exact ⟨rfl, rfl, rfl, refused, refused⟩

/-- User 5 may allow (0) and create (7), and pass on set 9, which is create. -/
def sharedSet : DelegPool ℕ where
  forest := cyclicSets.forest
  ddDelegZapobj dd :=
    if dd = 0 then
      some ⟨[⟨.user .zfsDelegLocal 5, [0, 7, 9]⟩, ⟨.user .zfsDelegDescendent 5, [7]⟩,
        ⟨.namedSet 9, [7]⟩], by simp⟩
    else none
  zoned _ := some 0
  spaDelegation := true
  spaVersion := 8
  supported old := absurd old (by decide)

theorem listed_sharedSet {up setname perm : ℕ}
    (listed : Lists (sharedSet.ddDelegZapobj up) (.namedSet setname) perm) : perm = 7 := by
  obtain ⟨names, found, member⟩ := listed
  by_cases here : up = 0
  · subst here
    have entry := of_mem_dlookup found
    simp at entry
    simpa [entry.2] using member
  · simp [jumpobj, sharedSet, here] at found

/-- User 6 gets the set on directory 1, where user 5 has its permission. -/
theorem dsl_deleg_allow_held_set :
    ∃ after, sharedSet.dslDelegSet 0 [(.userSets .zfsDelegDescendent 6, [9])] = .ok after ∧
      after.Holds 1 7 ⟨6, 10, [], true⟩ ∧ ¬ sharedSet.Holds 1 7 ⟨6, 10, [], true⟩ ∧
      ∀ dataset perm cr, after.Holds dataset perm cr → ¬ sharedSet.Holds dataset perm cr →
        sharedSet.Holds dataset perm ⟨5, 10, [], true⟩ := by
  have refused : (.ok eperm : Except Halt ℕ) ≠ .ok 0 := by decide
  have accepted : sharedSet.dslDelegCanAllow 0 0 [(.userSets .zfsDelegDescendent 6, [9])]
      ⟨5, 10, [], true⟩ = .ok 0 := rfl
  refine ⟨_, rfl, rfl, refused, (dsl_deleg_allow_held accepted rfl).1 ⟨?_, ?_⟩⟩
  · intro dataset _ _ cr perm _ requested
    simp [RequestsFor, Requests] at requested
  · intro dataset member cr _ setname _ _ perm listed
    have create : perm = 7 := by
      rcases listed with requested | ⟨up, -, listed⟩
      · simp [Requests] at requested
      · exact listed_sharedSet listed
    subst create
    have nodes : dataset = 0 ∨ dataset = 1 := by
      simpa [sharedSet, cyclicSets] using member
    rcases nodes with rfl | rfl <;> exact .inr rfl

end Zfs
