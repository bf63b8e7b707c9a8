import Mathlib

/-!
# Names resolved through nested scopes

A scope grants names and defines names, and a definition includes further names.  Going outwards,
a name is resolved at the first scope that defines it once it is known.  A definition of a resolved
name that lies further out is never read.
-/

namespace ScopedSets

/-- What one scope says about names, for one thing that is looked for. -/
structure Scope (Name : Type*) where
  granted : Set Name
  defined : Set Name
  /-- The names in a definition. -/
  included : Name → Set Name
  /-- The names whose definition has what is looked for. -/
  holding : Set Name
  /-- Only a defined name includes others. -/
  included_defined : ∀ {name other}, other ∈ included name → name ∈ defined
  /-- Only a defined name has something. -/
  holding_defined : holding ⊆ defined

/-- What is known about names after some scopes. -/
@[ext]
structure Outlook (Name : Type*) where
  /-- The names granted so far. -/
  known : Set Name
  /-- Those whose definition has been read. -/
  resolved : Set Name

variable {Name : Type*} {scope : Scope Name} {outlook : Outlook Name}

/-- The names that grants and definitions still to be read lead to. -/
inductive Reach (scope : Scope Name) (outlook : Outlook Name) : Name → Prop where
  | known {name : Name} (member : name ∈ outlook.known) : Reach scope outlook name
  | granted {name : Name} (member : name ∈ scope.granted) : Reach scope outlook name
  | included {name other : Name} (found : Reach scope outlook name)
    (unread : name ∉ outlook.resolved) (member : other ∈ scope.included name) :
    Reach scope outlook other

namespace Outlook

/-- Before any scope nothing is known. -/
def empty : Outlook Name := ⟨∅, ∅⟩

/-- One scope further out. -/
def extend (outlook : Outlook Name) (scope : Scope Name) : Outlook Name where
  known := {name | Reach scope outlook name}
  resolved := outlook.resolved ∪ {name | Reach scope outlook name ∧ name ∈ scope.defined}

/-- The scope resolves a name that holds what is looked for. -/
def Offers (outlook : Outlook Name) (scope : Scope Name) : Prop :=
  ∃ name, Reach scope outlook name ∧ name ∉ outlook.resolved ∧ name ∈ scope.holding

/-- Some scope on the way out resolves a name with what is sought. -/
def Leads (outlook : Outlook Name) (scopes : List (Scope Name)) : Prop :=
  ∃ below scope above, scopes = below ++ scope :: above ∧
    (below.foldl extend outlook).Offers scope

theorem not_leads_nil : ¬ outlook.Leads [] := by
  rintro ⟨below, scope, above, split, -⟩
  simp at split

theorem leads_cons {above : List (Scope Name)} :
    outlook.Leads (scope :: above) ↔ outlook.Offers scope ∨ (outlook.extend scope).Leads above := by
  constructor
  · rintro ⟨below, at_, rest, split, offers⟩
    cases below with
    | nil =>
      cases split
      exact Or.inl offers
    | cons first below =>
      cases split
      exact Or.inr ⟨below, at_, rest, rfl, offers⟩
  · rintro (offers | ⟨below, at_, rest, rfl, offers⟩)
    · exact ⟨[], scope, above, rfl, offers⟩
    · exact ⟨scope :: below, at_, rest, rfl, offers⟩

end Outlook

section Agreement

variable {other : Scope Name} {outlook' : Outlook Name} {touched closed : Set Name}

/-- Two scopes that say the same of all names but the touched ones. -/
structure AgreeOff (touched : Set Name) (scope other : Scope Name) : Prop where
  granted : ∀ name ∉ touched, (name ∈ scope.granted ↔ name ∈ other.granted)
  defined : ∀ name ∉ touched, (name ∈ scope.defined ↔ name ∈ other.defined)
  holding : ∀ name ∉ touched, (name ∈ scope.holding ↔ name ∈ other.holding)
  included : ∀ name, ∀ inner ∉ touched, (inner ∈ scope.included name ↔ inner ∈ other.included name)
  /-- A touched name includes touched names only. -/
  closed : ∀ name ∈ touched, other.included name ⊆ touched

/-- The same is known of all names but the touched ones. -/
structure Outlook.AgreeOff (touched : Set Name) (outlook outlook' : Outlook Name) : Prop where
  known : ∀ name ∉ touched, (name ∈ outlook.known ↔ name ∈ outlook'.known)
  resolved : ∀ name ∉ touched, (name ∈ outlook.resolved ↔ name ∈ outlook'.resolved)

theorem AgreeOff.symm (agree : AgreeOff touched scope other) : AgreeOff touched other scope where
  granted := fun name untouched => (agree.granted name untouched).symm
  defined := fun name untouched => (agree.defined name untouched).symm
  holding := fun name untouched => (agree.holding name untouched).symm
  included := fun name inner untouched => (agree.included name inner untouched).symm
  closed := fun name inside inner member => by
    by_contra untouched
    exact untouched (agree.closed name inside ((agree.included name inner untouched).mp member))

theorem Outlook.AgreeOff.symm (same : outlook.AgreeOff touched outlook') :
    outlook'.AgreeOff touched outlook :=
  ⟨fun name untouched => (same.known name untouched).symm,
    fun name untouched => (same.resolved name untouched).symm⟩

theorem Reach.of_agreeOff {name : Name} (agree : AgreeOff touched scope other)
    (same : outlook.AgreeOff touched outlook') (found : Reach scope outlook name)
    (untouched : name ∉ touched) : Reach other outlook' name := by
  induction found with
  | known member => exact .known ((same.known _ untouched).mp member)
  | granted member => exact .granted ((agree.granted _ untouched).mp member)
  | @included name inner _ unread member ih =>
    -- a touched name would make the inner one touched
    have outer : name ∉ touched := fun inside =>
      untouched (agree.symm.closed name inside member)
    exact .included (ih outer) (fun read => unread ((same.resolved name outer).mpr read))
      ((agree.included name inner untouched).mp member)

namespace Outlook.AgreeOff

theorem extend (same : outlook.AgreeOff touched outlook')
    (agree : ScopedSets.AgreeOff touched scope other) :
    (outlook.extend scope).AgreeOff touched (outlook'.extend other) := by
  have reach : ∀ name ∉ touched, (Reach scope outlook name ↔ Reach other outlook' name) :=
    fun name untouched => ⟨fun found => found.of_agreeOff agree same untouched,
      fun found => found.of_agreeOff agree.symm same.symm untouched⟩
  exact ⟨reach, fun name untouched => or_congr (same.resolved name untouched)
    (and_congr (reach name untouched) (agree.defined name untouched))⟩

/-- What other scopes lead to is in a touched name, or the scopes lead to it as well. -/
theorem leads {Place : Type*} {places : List Place} {scopeAt otherAt : Place → Scope Name}
    (same : outlook.AgreeOff touched outlook')
    (agree : ∀ place ∈ places, ScopedSets.AgreeOff touched (scopeAt place) (otherAt place))
    (inside : outlook'.known ⊆ closed)
    (granted : ∀ place ∈ places, (otherAt place).granted ⊆ closed)
    (included : ∀ place ∈ places, ∀ name ∈ closed, (otherAt place).included name ⊆ closed)
    (leads : outlook'.Leads (places.map otherAt)) :
    outlook.Leads (places.map scopeAt) ∨
      ∃ place ∈ places, ∃ name ∈ touched, name ∈ closed ∧ name ∈ (otherAt place).holding := by
  induction places generalizing outlook outlook' with
  | nil => exact absurd leads not_leads_nil
  | cons place places ih =>
    rw [List.forall_mem_cons] at agree granted included
    have reached : ∀ name, Reach (otherAt place) outlook' name → name ∈ closed := by
      intro name found
      induction found with
      | known member => exact inside member
      | granted member => exact granted.1 member
      | included _ _ member ih => exact included.1 _ ih member
    rw [List.map_cons, leads_cons] at leads ⊢
    rcases leads with ⟨name, found, unread, holds⟩ | later
    · by_cases untouched : name ∈ touched
      · exact .inr ⟨place, List.mem_cons_self, name, untouched, reached name found, holds⟩
      · exact .inl (.inl ⟨name, found.of_agreeOff agree.1.symm same.symm untouched,
          fun read => unread ((same.resolved name untouched).mp read),
          (agree.1.holding name untouched).mpr holds⟩)
    · rcases ih (same.extend agree.1) agree.2 reached granted.2 included.2 later with
        before | ⟨at_, member, found⟩
      · exact .inl (.inr before)
      · exact .inr ⟨at_, List.mem_cons_of_mem _ member, found⟩

end Outlook.AgreeOff

end Agreement

/-- A search of one scope under way: the names held, and those read. -/
structure Sweep (scope : Scope Name) (outlook : Outlook Name) (held matched : Set Name) : Prop where
  /-- What was granted is held. -/
  known_held : outlook.known ⊆ held
  /-- What the scope grants is held. -/
  granted_held : scope.granted ⊆ held
  /-- Nothing else is. -/
  sound : ∀ name ∈ held, Reach scope outlook name
  /-- What is read is held. -/
  matched_held : matched ⊆ held
  /-- What was read is not read again. -/
  resolved_matched : outlook.resolved ⊆ matched
  /-- What is read does not have it, and its names are held. -/
  read : ∀ name ∈ matched, name ∈ outlook.resolved ∨
    name ∈ scope.defined ∧ name ∉ scope.holding ∧ scope.included name ⊆ held

namespace Sweep

variable {held matched : Set Name} {name : Name}

/-- A scope is entered with what is known so far and with its own grants. -/
theorem start (inside : outlook.resolved ⊆ outlook.known) :
    Sweep scope outlook (outlook.known ∪ scope.granted) outlook.resolved where
  known_held := Set.subset_union_left
  granted_held := Set.subset_union_right
  sound := fun _ member => member.elim Reach.known Reach.granted
  matched_held := inside.trans Set.subset_union_left
  resolved_matched := subset_rfl
  read := fun _ member => Or.inl member

section

variable (sweep : Sweep scope outlook held matched) (member : name ∈ held) (unread : name ∉ matched)

include sweep member unread

/-- Reading the definition of an unread name adds what it includes. -/
theorem visit (defined : name ∈ scope.defined) (lacks : name ∉ scope.holding) :
    Sweep scope outlook (held ∪ scope.included name) (insert name matched) where
  known_held := sweep.known_held.trans Set.subset_union_left
  granted_held := sweep.granted_held.trans Set.subset_union_left
  sound := by
    rintro other (old | added)
    · exact sweep.sound other old
    · exact Reach.included (sweep.sound name member)
        (fun resolved => unread (sweep.resolved_matched resolved)) added
  matched_held := Set.insert_subset (Or.inl member)
    (sweep.matched_held.trans Set.subset_union_left)
  resolved_matched := sweep.resolved_matched.trans (Set.subset_insert _ _)
  read := by
    rintro other (rfl | old)
    · exact Or.inr ⟨defined, lacks, Set.subset_union_right⟩
    · exact (sweep.read other old).imp_right fun ⟨known, without, inside⟩ =>
        ⟨known, without, inside.trans Set.subset_union_left⟩

theorem offers (holds : name ∈ scope.holding) : outlook.Offers scope :=
  ⟨name, sweep.sound name member, fun resolved => unread (sweep.resolved_matched resolved), holds⟩

end

section Settled

variable (sweep : Sweep scope outlook held matched)
  (settled : ∀ name ∈ held, name ∈ scope.defined → name ∈ matched)
include sweep settled

/-- Once every held name of the scope is read, they are all there are to reach. -/
theorem reach_iff : Reach scope outlook name ↔ name ∈ held := by
  constructor
  · intro found
    induction found with
    | known member => exact sweep.known_held member
    | granted member => exact sweep.granted_held member
    | included _ unread member ih =>
      have defined := scope.included_defined member
      rcases sweep.read _ (settled _ ih defined) with resolved | ⟨-, -, inside⟩
      · exact absurd resolved unread
      · exact inside member
  · exact sweep.sound name

/-- A settled search is the outlook one scope further out. -/
theorem extend_eq : outlook.extend scope = ⟨held, matched⟩ := by
  ext name
  · exact sweep.reach_iff settled
  · constructor
    · rintro (resolved | ⟨found, defined⟩)
      · exact sweep.resolved_matched resolved
      · exact settled name ((sweep.reach_iff settled).mp found) defined
    · intro read
      exact (sweep.read name read).imp_right fun ⟨defined, _, _⟩ =>
        ⟨sweep.sound name (sweep.matched_held read), defined⟩

/-- A settled search has met no name that holds what is looked for. -/
theorem not_offers : ¬ outlook.Offers scope := by
  rintro ⟨name, found, unread, holds⟩
  have held_name := (sweep.reach_iff settled).mp found
  rcases sweep.read name (settled name held_name (scope.holding_defined holds)) with
    resolved | ⟨-, lacks, -⟩
  · exact unread resolved
  · exact lacks holds

end Settled

end Sweep

end ScopedSets
