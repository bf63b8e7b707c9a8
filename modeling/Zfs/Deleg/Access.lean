import Zfs.Deleg.Sets

/-!
# What a permission check decides

The search of one directory is a sweep of its scope: the collected sets are the names held and the
marks say whose definition was read.  Each jump back follows a new mark, so that both loops end, and
then what is collected is all there is to reach.
-/

namespace Zfs

open ParentTree ScopedSets List

variable {Name : Type} [LinearOrder Name]

/-- The names that the search of a table can meet. -/
def meetable (zapobj : DelegZap Name) (permsets : List (PermSet Name)) : Finset Name :=
  (permsets.map PermSet.pSetname ++ zapobj.entries.flatMap Sigma.snd).toFinset

variable {scope : Scope Name} {expanded expanded' : Bool} {after : List (PermSet Name)}
  {marks : Set Name} {fuel : ℕ}

section Search

variable {zapobj : DelegZap Name} {permsets : List (PermSet Name)} {setname perm : Name}

theorem card_meetable : (meetable zapobj permsets).card < setBound zapobj permsets := by
  have short := (permsets.map PermSet.pSetname ++ zapobj.entries.flatMap Sigma.snd).toFinset_card_le
  rw [length_append, length_map] at short
  exact Nat.lt_succ_of_le short

theorem held_meetable (member : setname ∈ held permsets) : setname ∈ meetable zapobj permsets := by
  obtain ⟨node, inside, rfl⟩ := member
  exact mem_toFinset.mpr (mem_append_left _ (mem_map_of_mem inside))

theorem Lists.meetable {whokey : WhoKey Name} (listed : Lists (some zapobj) whokey setname) :
    setname ∈ meetable zapobj permsets := by
  obtain ⟨names, found, member⟩ := listed
  have entry := AList.mem_lookup_iff.mp found
  exact mem_toFinset.mpr
    (mem_append_right _ (mem_flatMap.mpr ⟨_, entry, member⟩))

variable {position : Option Name} {setnode : PermSet Name}

theorem avlNext_some (next : avlNext position permsets = some setnode) :
    setnode ∈ permsets ∧ position.all (· < setnode.pSetname) := by
  unfold avlNext at next
  exact ⟨mem_of_find?_eq_some next, by simpa using find?_some next⟩

theorem not_after_of_avlNext (end_ : avlNext position permsets = none)
    (member : setname ∈ held permsets) : position.all (· < setname) = false := by
  obtain ⟨node, inside, rfl⟩ := member
  simpa using find?_eq_none.mp end_ node inside

theorem Sorted.avlNext_le (sorted : Sorted permsets)
    (next : avlNext position permsets = some setnode) (member : setname ∈ held permsets)
    (after : position.all (· < setname)) :
    setnode.pSetname ≤ setname := by
  obtain ⟨-, before, behind, rfl, passed⟩ := find?_eq_some_iff_append.mp next
  obtain ⟨node, inside, rfl⟩ := member
  rcases mem_append.mp inside with early | late
  · exact absurd after (by simpa using passed node early)
  · rcases mem_cons.mp late with rfl | late
    · exact le_rfl
    · have tail := (pairwise_append.mp sorted).2.1
      exact ((pairwise_cons.mp tail).1 node late).le

/-- A search under way: the tree is in order and a sweep of the scope. -/
structure Searching (scope : Scope Name) (outlook : Outlook Name) (names : Finset Name)
    (permsets : List (PermSet Name)) : Prop where
  sorted : Sorted permsets
  sweep : Sweep scope outlook (held permsets) (matched permsets)
  within : ∀ setname ∈ held permsets, setname ∈ names

/-- Every collected set that the scope defines is matched. -/
def Settled (scope : Scope Name) (permsets : List (PermSet Name)) : Prop :=
  ∀ setname ∈ held permsets, setname ∈ scope.defined → setname ∈ matched permsets

/-- What the visit of a node can lead to. -/
inductive Checked (scope : Scope Name) (outlook : Outlook Name) (names : Finset Name)
    (permsets : List (PermSet Name)) (expanded : Bool) (setname : Name) :
    DelegStep Name → Prop where
  | success (offers : outlook.Offers scope) :
    Checked scope outlook names permsets expanded setname .success
  | kept {after : List (PermSet Name)} (search : Searching scope outlook names after)
    (same : held after = held permsets) (grows : matched permsets ⊆ matched after)
    (read : setname ∈ scope.defined → setname ∈ matched after) :
    Checked scope outlook names permsets expanded setname (.swept after expanded)
  | loaded {after : List (PermSet Name)} (search : Searching scope outlook names after)
    (grows : matched permsets ⊂ matched after) :
    Checked scope outlook names permsets expanded setname (.swept after true)

variable {checkflag : DelegInherit} {cr : Curproc} {outlook : Outlook Name} {names : Finset Name}

theorem Checked.search
    (checked : Checked scope outlook names permsets expanded setname (.swept after expanded')) :
    Searching scope outlook names after := by
  cases checked with
  | kept search => exact search
  | loaded search => exact search

theorem Searching.read (search : Searching scope outlook names permsets)
    (member : setname ∈ held permsets) (unread : setname ∉ matched permsets)
    (defined : setname ∈ scope.defined) (lacks : setname ∉ scope.holding) (sorted : Sorted after)
    (held_eq : held after = held permsets ∪ scope.included setname)
    (matched_eq : matched after = insert setname (matched permsets))
    (covers : ∀ other ∈ scope.included setname, other ∈ names) :
    Searching scope outlook names after where
  sorted := sorted
  sweep := by
    rw [held_eq, matched_eq]
    exact search.sweep.visit member unread defined lacks
  within := by
    rw [held_eq]
    rintro other (old | added)
    · exact search.within other old
    · exact covers other added

section

variable (search : Searching (tableScope (some zapobj) checkflag cr perm) outlook names permsets)
  (covers : ∀ {whokey other}, Lists (some zapobj) whokey other → other ∈ names)

include search covers

theorem Searching.load (member : setname ∈ held permsets) (unread : setname ∉ matched permsets)
    (lacks : ¬ Lists (some zapobj) (.namedSet setname) perm) {base : List (PermSet Name)}
    (sorted : Sorted base) (same : held base = held permsets)
    (marks : insert setname (matched base) = insert setname (matched permsets))
    (loads : (dslLoadSets zapobj (.namedSetSets setname) base).1 = 0) :
    Checked (tableScope (some zapobj) checkflag cr perm) outlook names permsets expanded setname
      (.swept (setMatched setname (dslLoadSets zapobj (.namedSetSets setname) base).2) true) := by
  have held_eq : held (dslLoadSets zapobj (.namedSetSets setname) base).2 =
      held permsets ∪ {other | Lists (some zapobj) (.namedSetSets setname) other} := by
    rw [(loads_dslLoadSets ..).held_eq, same]
  have matched_eq : matched (setMatched setname
      (dslLoadSets zapobj (.namedSetSets setname) base).2) = insert setname (matched permsets) := by
    rw [matched_setMatched (held_eq ▸ Or.inl member), (loads_dslLoadSets ..).matched_eq,
      marks]
  refine .loaded (search.read member unread (Or.inr (dslLoadSets_error.mp loads)) lacks
    ((loads_dslLoadSets ..).sorted sorted).setMatched (held_setMatched.trans held_eq) matched_eq
    fun _ => covers) ?_
  rw [matched_eq]
  exact Set.ssubset_insert unread

/-- One visit keeps the search and settles the visited set. -/
theorem Searching.checkSet (member : setnode ∈ permsets) :
    Checked (tableScope (some zapobj) checkflag cr perm) outlook names permsets expanded
      setnode.pSetname (checkSet zapobj perm setnode permsets expanded) := by
  have held_node : setnode.pSetname ∈ held permsets := ⟨setnode, member, rfl⟩
  unfold Zfs.checkSet
  cases marked : setnode.pMatched with
  | true =>
    have in_matched : setnode.pSetname ∈ matched permsets := by
      have same : setnode = ⟨setnode.pSetname, true⟩ := by rw [← marked]
      rw [same] at member
      exact member
    exact .kept search rfl subset_rfl fun _ => in_matched
  | false =>
    have unread := search.sorted.not_matched member marked
    simp only [Bool.false_eq_true, if_false]
    by_cases grants : Lists (some zapobj) (.namedSet setnode.pSetname) perm
    · rw [if_pos (dslCheckAccess_eq_zero.mpr grants)]
      exact .success (search.sweep.offers held_node unread grants)
    have refused := mt dslCheckAccess_eq_zero.mp grants
    have marked_matched := matched_setMatched held_node
    rw [if_neg refused]
    split_ifs with entry loads loads
    · exact search.load covers held_node unread grants search.sorted.setMatched held_setMatched
        (by rw [marked_matched, Set.insert_idem]) loads
    · -- the definition has permissions and includes no sets
      have no_sets := mt dslLoadSets_error.mpr loads
      have none_included : {other | Lists (some zapobj) (.namedSetSets setnode.pSetname) other} =
          ∅ :=
        Set.eq_empty_of_forall_notMem fun _ listed => no_sets listed.isSome
      rw [dslLoadSets_absent no_sets]
      refine .kept (search.read held_node unread
        (Or.inl ((dslCheckAccess_eq_eperm refused).mp entry)) grants search.sorted.setMatched ?_
        marked_matched fun _ => covers) held_setMatched ?_ ?_
      · exact held_setMatched.trans
          ((congrArg (held permsets ∪ ·) none_included).trans (Set.union_empty _)).symm
      · rw [marked_matched]
        exact Set.subset_insert _ _
      · intro _
        rw [marked_matched]
        exact Set.mem_insert _ _
    · exact search.load covers held_node unread grants search.sorted rfl rfl loads
    · -- the set is not defined here
      have no_sets := mt dslLoadSets_error.mpr loads
      rw [dslLoadSets_absent no_sets]
      refine .kept search rfl subset_rfl ?_
      rintro (permissions | sets)
      · exact absurd ((dslCheckAccess_eq_eperm refused).mpr permissions) entry
      · exact absurd sets no_sets

end

/-- What a walk through the tree can lead to. -/
inductive Swept (scope : Scope Name) (outlook : Outlook Name) (names : Finset Name)
    (marks : Set Name) : DelegStep Name → Prop where
  | success (offers : outlook.Offers scope) : Swept scope outlook names marks .success
  | settled {after : List (PermSet Name)} (search : Searching scope outlook names after)
    (settled : Settled scope after) : Swept scope outlook names marks (.swept after false)
  | expanded {after : List (PermSet Name)} (search : Searching scope outlook names after)
    (grows : marks ⊂ matched after) : Swept scope outlook names marks (.swept after true)

/-- A walk has loaded sets, or all it has passed is settled. -/
structure Passed (scope : Scope Name) (marks : Set Name) (position : Option Name)
    (permsets : List (PermSet Name)) (expanded : Bool) : Prop where
  grows : marks ⊆ matched permsets
  expands : expanded = true → marks ⊂ matched permsets
  settled : expanded = false → ∀ setname ∈ held permsets,
    position.all (· < setname) = false → setname ∈ scope.defined → setname ∈ matched permsets

/-- The names after a node that lies after the position are fewer. -/
theorem card_after_lt (member : setname ∈ names) (after : position.all (· < setname)) :
    (names.filter fun name => (some setname).all (· < name)).card <
      (names.filter fun name => position.all (· < name)).card := by
  refine Finset.card_lt_card ⟨?_, ?_⟩
  · intro name inside
    obtain ⟨in_names, behind⟩ := Finset.mem_filter.mp inside
    refine Finset.mem_filter.mpr ⟨in_names, ?_⟩
    cases position with
    | none => rfl
    | some start => simp at after behind ⊢; exact after.trans behind
  · intro inside
    have behind := (Finset.mem_filter.mp (inside (Finset.mem_filter.mpr ⟨member, after⟩))).2
    simp at behind

theorem Passed.next (passed : Passed scope marks position permsets expanded)
    (sorted : Sorted permsets) (next : avlNext position permsets = some setnode)
    (checked : Checked scope outlook names permsets expanded setnode.pSetname
      (.swept after expanded')) : Passed scope marks (some setnode.pSetname) after expanded' := by
  cases checked with
  | kept _ same grows read =>
    refine ⟨passed.grows.trans grows, fun was => (passed.expands was).trans_subset grows, ?_⟩
    intro not_expanded other member behind defined
    rw [same] at member
    by_cases later : position.all (· < other)
    · have least := sorted.avlNext_le next member later
      have most : other ≤ setnode.pSetname := by simpa using behind
      obtain rfl := le_antisymm most least
      exact read defined
    · exact grows (passed.settled not_expanded other member (by simpa using later) defined)
  | loaded _ grows =>
    exact ⟨passed.grows.trans grows.subset, fun _ => passed.grows.trans_ssubset grows, by simp⟩

/-- Enough steps take the walk to the end of the tree. -/
theorem Searching.sweepSets
    (search : Searching (tableScope (some zapobj) checkflag cr perm) outlook names permsets)
    (covers : ∀ {whokey other}, Lists (some zapobj) whokey other → other ∈ names)
    (passed : Passed (tableScope (some zapobj) checkflag cr perm) marks position permsets expanded)
    (enough : (names.filter fun name => position.all (· < name)).card < fuel) :
    ∃ step, sweepSets zapobj perm fuel position permsets expanded = .ok step ∧
    Swept (tableScope (some zapobj) checkflag cr perm) outlook names marks step := by
  induction fuel generalizing position permsets expanded with
  | zero => exact absurd enough (Nat.not_lt_zero _)
  | succ fuel ih =>
    unfold Zfs.sweepSets
    cases next : avlNext position permsets with
    | none =>
      refine ⟨_, rfl, ?_⟩
      cases expanded with
      | true => exact .expanded search (passed.expands rfl)
      | false =>
        exact .settled search fun other member =>
          passed.settled rfl other member (not_after_of_avlNext next member)
    | some setnode =>
      obtain ⟨member, after⟩ := avlNext_some next
      have checked : Checked _ outlook names permsets expanded setnode.pSetname
          (Zfs.checkSet zapobj perm setnode permsets expanded) :=
        search.checkSet covers member
      have fewer := card_after_lt (search.within _ ⟨setnode, member, rfl⟩) after
      dsimp only
      generalize Zfs.checkSet zapobj perm setnode permsets expanded = step at checked ⊢
      cases step with
      | success =>
        cases checked with
        | success offers => exact ⟨_, rfl, .success offers⟩
      | swept permsets' expanded' =>
        exact ih checked.search (passed.next search.sorted next checked) (by omega)

/-- What the search of a table ends with. -/
inductive Searched (scope : Scope Name) (outlook : Outlook Name) : DelegStep Name → Prop where
  | success (offers : outlook.Offers scope) : Searched scope outlook .success
  | settled {after : List (PermSet Name)} {expanded : Bool} (sorted : Sorted after)
    (sweep : Sweep scope outlook (held after) (matched after)) (settled : Settled scope after) :
    Searched scope outlook (.swept after expanded)

open Classical in
/-- Enough jumps back settle every set. -/
theorem Searching.expandSets
    (search : Searching (tableScope (some zapobj) checkflag cr perm) outlook names permsets)
    (covers : ∀ {whokey other}, Lists (some zapobj) whokey other → other ∈ names)
    (enough : (names.filter fun name => name ∉ matched permsets).card < fuel) :
    ∃ step, expandSets zapobj perm fuel permsets = .ok step ∧
    Searched (tableScope (some zapobj) checkflag cr perm) outlook step := by
  induction fuel generalizing permsets with
  | zero => exact absurd enough (Nat.not_lt_zero _)
  | succ fuel ih =>
    have inside : Searching (tableScope (some zapobj) checkflag cr perm) outlook
        (meetable zapobj permsets) permsets :=
      ⟨search.sorted, search.sweep, fun _ => held_meetable⟩
    have passed : Passed (tableScope (some zapobj) checkflag cr perm) (matched permsets) none
        permsets false :=
      ⟨subset_rfl, (by simp), (by simp)⟩
    obtain ⟨step, run, swept⟩ := inside.sweepSets Lists.meetable passed
      (lt_of_le_of_lt (Finset.card_filter_le _ _) card_meetable)
    unfold Zfs.expandSets
    rw [run]
    cases swept with
    | success offers => exact ⟨_, rfl, .success offers⟩
    | settled done settled => exact ⟨_, rfl, .settled done.sorted done.sweep settled⟩
    | @expanded after done grows =>
      have within : ∀ name ∈ held after, name ∈ names := fun name member => by
        rcases mem_append.mp (mem_toFinset.mp (done.within name member)) with collected | listed
        · exact search.within name (mem_map.mp collected)
        · obtain ⟨⟨whokey, jump⟩, entry, inside⟩ := mem_flatMap.mp listed
          exact covers ⟨jump, AList.mem_lookup_iff.mpr entry, inside⟩
      refine ih ⟨done.sorted, done.sweep, within⟩ (lt_of_lt_of_le ?_ (Nat.lt_succ_iff.mp enough))
      -- a name that has become matched is no longer counted
      obtain ⟨name, marked, unmarked⟩ := Set.exists_of_ssubset grows
      refine Finset.card_lt_card ⟨?_, ?_⟩
      · exact Finset.monotone_filter_right _ fun _ _ unread old => unread (grows.subset old)
      · intro inside
        have counted : name ∈ names.filter fun name => name ∉ matched permsets :=
          Finset.mem_filter.mpr ⟨within name (matched_subset_held after marked), unmarked⟩
        exact (Finset.mem_filter.mp (inside counted)).2 marked

/-- The search of a table returns, and it settles the scope of the table. -/
theorem searched_table (zapobj : DelegZap Name) (perm : Name) (checkflag : DelegInherit)
    (cr : Curproc) (sorted : Sorted permsets) :
    let loaded := dslLoadUserSets zapobj permsets checkflag cr
    ∃ step, expandSets zapobj perm (setBound zapobj loaded) loaded = .ok step ∧
      Searched (tableScope (some zapobj) checkflag cr perm) ⟨held permsets, matched permsets⟩
        step := by
  classical
  intro loaded
  have start : Sweep (tableScope (some zapobj) checkflag cr perm)
      ⟨held permsets, matched permsets⟩ (held loaded) (matched loaded) := by
    rw [loads_dslLoadUserSets.held_eq, loads_dslLoadUserSets.matched_eq]
    exact Sweep.start (matched_subset_held permsets)
  have search : Searching (tableScope (some zapobj) checkflag cr perm)
      ⟨held permsets, matched permsets⟩ (meetable zapobj loaded) loaded :=
    ⟨loads_dslLoadUserSets.sorted sorted, start, fun _ => held_meetable⟩
  exact search.expandSets Lists.meetable
    (lt_of_le_of_lt (Finset.card_filter_le _ _) card_meetable)

end Search

theorem extend_tableScope_none {checkflag : DelegInherit} {cr : Curproc} {perm : Name}
    {outlook : Outlook Name} : outlook.extend (tableScope none checkflag cr perm) = outlook := by
  have unlisted : ∀ whokey name, ¬ Lists (none : Option (DelegZap Name)) whokey name := by
    simp [Lists, jumpobj]
  have undefined : ∀ name, ¬ Defines (none : Option (DelegZap Name)) name := by
    simp [Defines, jumpobj]
  have reach_iff : ∀ name, Reach (tableScope none checkflag cr perm) outlook name ↔
      name ∈ outlook.known := by
    intro name
    refine ⟨fun found => ?_, Reach.known⟩
    cases found with
    | known member => exact member
    | granted member => simp [tableScope, GrantedSet, unlisted] at member
    | included _ _ member => exact absurd member (unlisted _ _)
  ext name
  · exact reach_iff name
  · exact or_iff_left fun both => undefined name both.2

theorem not_offers_tableScope_none {checkflag : DelegInherit} {cr : Curproc} {perm : Name}
    {outlook : Outlook Name} : ¬ outlook.Offers (tableScope none checkflag cr perm) := by
  rintro ⟨name, -, -, names, found, -⟩
  cases found

namespace DelegPool

variable (dp : DelegPool Name)

/-- The directories that a process can consult, going up. -/
def consulted (cr : Curproc) (path : List ℕ) : List ℕ :=
  path.takeWhile fun dd => cr.inGlobalZone || (dp.zoned dd).getD 0 != 0

/-- The flag for a directory on the way up from a dataset. -/
def flagAt (dataset dd : ℕ) : DelegInherit :=
  if dd = dataset then .zfsDelegLocal else .zfsDelegDescendent

/-- Granted at one of the directories, or through a set. -/
def PermittedAlong (flag : ℕ → DelegInherit) (outlook : Outlook Name) (perm : Name) (cr : Curproc)
    (path : List ℕ) : Prop :=
  (∃ dd ∈ path, Granted (dp.ddDelegZapobj dd) (flag dd) cr perm) ∨
    outlook.Leads (path.map fun dd => tableScope (dp.ddDelegZapobj dd) (flag dd) cr perm)

variable {dp} {flag : ℕ → DelegInherit} {perm : Name} {cr : Curproc} {outlook : Outlook Name}

theorem not_permittedAlong_nil : ¬ dp.PermittedAlong flag outlook perm cr [] := by
  rintro (⟨dd, member, -⟩ | leads)
  · cases member
  · exact Outlook.not_leads_nil leads

theorem permittedAlong_cons {dd : ℕ} {above : List ℕ} :
    dp.PermittedAlong flag outlook perm cr (dd :: above) ↔
      Granted (dp.ddDelegZapobj dd) (flag dd) cr perm ∨
      outlook.Offers (tableScope (dp.ddDelegZapobj dd) (flag dd) cr perm) ∨
      dp.PermittedAlong flag
        (outlook.extend (tableScope (dp.ddDelegZapobj dd) (flag dd) cr perm)) perm cr above := by
  unfold PermittedAlong
  rw [map_cons, Outlook.leads_cons]
  simp only [mem_cons, exists_eq_or_imp]
  rw [or_or_or_comm, or_assoc]

/-- The loop returns, and it finds the permission exactly when it is there. -/
theorem accessAlong_spec (dp : DelegPool Name) (perm : Name) (cr : Curproc) (path : List ℕ)
    (checkflag : DelegInherit) (permsets : List (PermSet Name)) (sorted : Sorted permsets)
    (first : ∀ dd ∈ path.head?, flag dd = checkflag)
    (others : ∀ dd ∈ path.tail, flag dd = .zfsDelegDescendent) :
    ∃ error, dp.accessAlong perm cr path checkflag permsets = .ok error ∧
    (error = 0 ↔ dp.PermittedAlong flag ⟨held permsets, matched permsets⟩ perm cr
      (dp.consulted cr path)) := by
  induction path generalizing checkflag permsets with
  | nil =>
    refine ⟨eperm, rfl, ?_⟩
    simp [eperm, consulted, not_permittedAlong_nil]
  | cons dd above ih =>
    have flag_eq : flag dd = checkflag := first dd rfl
    have later : ∀ permsets, Sorted permsets → _ := fun permsets sorted =>
      ih .zfsDelegDescendent permsets sorted
        (fun up member => others up (mem_of_mem_head? member))
        (fun up member => others up (mem_of_mem_tail member))
    unfold accessAlong
    by_cases barred : (!cr.inGlobalZone && (dp.zoned dd).getD 0 == 0) = true
    · rw [if_pos barred]
      refine ⟨eperm, rfl, ?_⟩
      have stops : dp.consulted cr (dd :: above) = [] := by
        simp_all [consulted]
      rw [stops]
      simp [eperm, not_permittedAlong_nil]
    rw [if_neg barred]
    have goes_on : dp.consulted cr (dd :: above) = dd :: dp.consulted cr above := by
      have open_ : (cr.inGlobalZone || (dp.zoned dd).getD 0 != 0) = true := by
        cases zone : cr.inGlobalZone <;> simp_all
      rw [consulted, takeWhile_cons, if_pos open_, consulted]
    rw [goes_on, permittedAlong_cons, flag_eq]
    cases table : dp.ddDelegZapobj dd with
    | none =>
      obtain ⟨error, run, meaning⟩ := later permsets sorted
      refine ⟨error, run, meaning.trans ?_⟩
      rw [extend_tableScope_none]
      have ungranted : ¬ Granted (none : Option (DelegZap Name)) checkflag cr perm := by
        simp [Granted, Lists, jumpobj]
      simp [ungranted, not_offers_tableScope_none]
    | some zapobj =>
      obtain ⟨step, run, searched⟩ := searched_table zapobj perm checkflag cr sorted
      simp only [run]
      cases searched with
      | success offers => exact ⟨0, rfl, by simp [offers]⟩
      | @settled after expanded sorted' sweep settled =>
        have none_offered := sweep.not_offers settled
        have outlook_eq := sweep.extend_eq settled
        by_cases grants : dslCheckUserAccess zapobj perm checkflag cr = 0
        · have granted := dslCheckUserAccess_eq_zero.mp grants
          exact ⟨0, if_pos grants, by simp [granted]⟩
        · have ungranted := mt dslCheckUserAccess_eq_zero.mpr grants
          obtain ⟨error, rest, meaning⟩ := later after sorted'
          refine ⟨error, (if_neg grants).trans rest, meaning.trans ?_⟩
          rw [outlook_eq]
          simp [ungranted, none_offered]

theorem not_permittedAlong_of_empty (empty : ∀ dd, dp.ddDelegZapobj dd = none) (path : List ℕ) :
    ¬ dp.PermittedAlong flag outlook perm cr path := by
  induction path with
  | nil => exact not_permittedAlong_nil
  | cons dd above ih =>
    have ungranted : ¬ Granted (none : Option (DelegZap Name)) (flag dd) cr perm := by
      simp [Granted, Lists, jumpobj]
    rw [permittedAlong_cons, empty dd, extend_tableScope_none]
    simp [ungranted, not_offers_tableScope_none, ih]

/-- A process has a permission on a dataset. -/
def Permitted (dp : DelegPool Name) (dd : ℕ) (perm : Name) (cr : Curproc) : Prop :=
  dp.PermittedAlong (flagAt dd) Outlook.empty perm cr (dp.consulted cr (dp.forest.chain dd))

variable {dd : ℕ}

/-- With delegation on, a check of a dataset returns what the tables say. -/
theorem dslDelegAccess_spec (member : dd ∈ dp.forest.nodes) (enabled : dp.spaDelegation = true) :
    ∃ error, dp.dslDelegAccess dd perm cr = .ok error ∧ (error = 0 ↔ dp.Permitted dd perm cr) := by
  unfold dslDelegAccess
  rw [if_neg (not_not.mpr member), if_neg (by simp [enabled])]
  by_cases old : dp.spaVersion < spaVersionDelegatedPerms
  · rw [if_pos old]
    refine ⟨eperm, rfl, ?_⟩
    have refused : ¬ dp.Permitted dd perm cr := not_permittedAlong_of_empty (dp.supported old) _
    simp [eperm, refused]
  · rw [if_neg old]
    have path := (Forest.path_chain member).1
    obtain ⟨above, chain_eq⟩ := path.eq_cons
    have apart := path.nodup
    rw [chain_eq, nodup_cons] at apart
    have first : ∀ up ∈ (dp.forest.chain dd).head?, flagAt dd up = .zfsDelegLocal := by
      simp [chain_eq, flagAt]
    have others : ∀ up ∈ (dp.forest.chain dd).tail, flagAt dd up = .zfsDelegDescendent := by
      intro up later
      rw [chain_eq] at later
      exact if_neg (ne_of_mem_of_not_mem later apart.1)
    obtain ⟨error, run, meaning⟩ := accessAlong_spec dp perm cr (dp.forest.chain dd)
      .zfsDelegLocal [] Pairwise.nil first others
    refine ⟨error, run, meaning.trans ?_⟩
    have nothing : (⟨held [], matched []⟩ : Outlook Name) = Outlook.empty := by
      ext name <;> simp [held, matched, Outlook.empty]
    rw [nothing, Permitted]

end DelegPool

/-- A check grants a permission exactly when the tables on the way up do: directly, or through a set
resolved on the way. -/
theorem dsl_deleg_access_iff {dp : DelegPool Name} {dd : ℕ} {path : List ℕ} {perm : Name}
    {cr : Curproc} (member : dd ∈ dp.forest.nodes) (way : Path dp.forest.parent dd path)
    (enabled : dp.spaDelegation = true) (inGlobalZone : cr.inGlobalZone = true) :
    ∃ error, dp.dslDelegAccess dd perm cr = .ok error ∧
    (error = 0 ↔
      (∃ up ∈ path, Granted (dp.ddDelegZapobj up) (DelegPool.flagAt dd up) cr perm) ∨
        Outlook.empty.Leads (path.map fun up =>
          tableScope (dp.ddDelegZapobj up) (DelegPool.flagAt dd up) cr perm)) := by
  have path_eq : path = dp.forest.chain dd := way.unique (Forest.path_chain member).1
  have all_consulted : dp.consulted cr path = path := by
    simp [DelegPool.consulted, inGlobalZone]
  obtain ⟨error, run, meaning⟩ :
      ∃ error, dp.dslDelegAccess dd perm cr = .ok error ∧ (error = 0 ↔ dp.Permitted dd perm cr) :=
    DelegPool.dslDelegAccess_spec member enabled
  refine ⟨error, run, meaning.trans ?_⟩
  rw [DelegPool.Permitted, ← path_eq, all_consulted, DelegPool.PermittedAlong]

/-- Sets 1 and 2 include each other, and only set 2 has a permission. -/
def cyclicSets : DelegPool ℕ where
  forest :=
    { nodes := {0, 1}
      parent dd := if dd = 1 then some 0 else none
      rooted := by
        simp only [Finset.mem_insert, Finset.mem_singleton]
        rintro dd (rfl | rfl)
        · exact ⟨[0], .root rfl, by simp⟩
        · exact ⟨[1, 0], .step rfl (.root rfl), by simp⟩ }
  ddDelegZapobj dd :=
    if dd = 0 then
      some ⟨[⟨.userSets .zfsDelegDescendent 5, [1]⟩, ⟨.namedSetSets 1, [2]⟩,
        ⟨.namedSetSets 2, [1]⟩, ⟨.namedSet 2, [7]⟩], by simp⟩
    else none
  zoned _ := some 0
  spaDelegation := true
  spaVersion := 8
  supported old := absurd old (by decide)

/-- User 5 gets the permission on directory 1 through the cyclic sets, and not on directory 0. -/
theorem dsl_deleg_access_cyclic :
    cyclicSets.dslDelegAccess 0 7 ⟨5, 10, [], true⟩ = .ok eperm ∧
    cyclicSets.dslDelegAccess 1 7 ⟨5, 10, [], true⟩ = .ok 0 ∧
    ((∃ up ∈ [1, 0], Granted (cyclicSets.ddDelegZapobj up) (DelegPool.flagAt 1 up)
        ⟨5, 10, [], true⟩ 7) ∨
      Outlook.empty.Leads ([1, 0].map fun up => tableScope (cyclicSets.ddDelegZapobj up)
        (DelegPool.flagAt 1 up) ⟨5, 10, [], true⟩ 7)) := by
  have run : cyclicSets.dslDelegAccess 1 7 ⟨5, 10, [], true⟩ = .ok 0 := rfl
  have checked : ∃ error, cyclicSets.dslDelegAccess 1 7 ⟨5, 10, [], true⟩ = .ok error ∧ _ :=
    dsl_deleg_access_iff (by decide) (.step rfl (.root rfl)) rfl rfl
  obtain ⟨error, same, meaning⟩ := checked
  cases run.symm.trans same
  exact ⟨rfl, run, meaning.mp rfl⟩

end Zfs
