import Zfs.DslDir.Code
import Zfs.Library.TransitionSystem

/-!
# The accounts of the directories add up

Each of the five accounts of a directory is what the directory uses by itself plus what its children
pass on to that account.  A ledger records what is not explained by the children; a charge to a
directory enters its ledger alone.
-/

namespace Zfs

open ParentTree Function List Option

/-- What a directory uses by itself, without its children. -/
structure OwnUse where
  used : ℤ
  /-- Their compressed size. -/
  compressed : ℤ
  /-- Their uncompressed size. -/
  uncompressed : ℤ

namespace DslDirs

variable (dirs : DslDirs)

/-- The sum of a value over the children of a directory. -/
def overChildren (value : DslDirPhys → ℤ) (dd : ℕ) : ℤ :=
  childSum dirs.dirs dirs.ddParent (fun child => value (dirs.ddPhys child)) dd

/-- The sizes of a directory are its own and those of its children. -/
structure AccountedAt (own : OwnUse) (dd : ℕ) : Prop where
  used : (dirs.ddPhys dd).ddUsedBytes =
    own.used + dirs.overChildren (fun child => max child.ddUsedBytes child.ddReserved) dd
  compressed : (dirs.ddPhys dd).ddCompressedBytes =
    own.compressed + dirs.overChildren (fun child => child.ddCompressedBytes) dd
  uncompressed : (dirs.ddPhys dd).ddUncompressedBytes =
    own.uncompressed + dirs.overChildren (fun child => child.ddUncompressedBytes) dd
  child : (dirs.ddPhys dd).breakdownFlag = true → (dirs.ddPhys dd).ddUsedBreakdown .child =
    dirs.overChildren (fun child => child.ddUsedBytes) dd
  childRsrv : (dirs.ddPhys dd).breakdownFlag = true → (dirs.ddPhys dd).ddUsedBreakdown .childRsrv =
    dirs.overChildren (fun child => max 0 (child.ddReserved - child.ddUsedBytes)) dd
  total : (dirs.ddPhys dd).breakdownFlag = true →
    (dirs.ddPhys dd).ddUsedBreakdown .head + (dirs.ddPhys dd).ddUsedBreakdown .snap +
      (dirs.ddPhys dd).ddUsedBreakdown .child + (dirs.ddPhys dd).ddUsedBreakdown .childRsrv +
      (dirs.ddPhys dd).ddUsedBreakdown .refrsrv = (dirs.ddPhys dd).ddUsedBytes

/-- The accounts of all directories are right. -/
def Accounted (own : ℕ → OwnUse) : Prop := ∀ dd ∈ dirs.dirs, dirs.AccountedAt (own dd) dd

end DslDirs

/-- An operation on the directories. -/
inductive DirOp where
  | diduse (dd : ℕ) (type : DdUsed) (used compressed uncompressed : ℤ)
  | setReservation (dd newReservation : ℕ)
  | transfer (dd : ℕ) (delta : ℤ) (oldtype newtype : DdUsed)
  | rename (dd newparent : ℕ)

namespace DirOp

/-- The directory that an operation names. -/
def dd : DirOp → ℕ
  | diduse dd _ _ _ _ | setReservation dd _ | transfer dd _ _ _ | rename dd _ => dd

/-- The call that an operation makes. -/
def apply (dirs : DslDirs) : DirOp → Option DslDirs
  | diduse dd type used compressed uncompressed =>
    dirs.dslDirDiduseSpace dd type used compressed uncompressed
  | setReservation dd newReservation => dirs.dslDirSetReservationSync dd newReservation
  | transfer dd delta oldtype newtype => dirs.dslDirTransferSpace dd delta oldtype newtype
  | rename dd newparent => dirs.dslDirRenameSync dd newparent

/-- What an operation adds to the own use of a directory. -/
def charge (own : ℕ → OwnUse) : DirOp → ℕ → OwnUse
  | diduse dd _ used compressed uncompressed =>
    update own dd ⟨(own dd).used + used, (own dd).compressed + compressed,
      (own dd).uncompressed + uncompressed⟩
  | setReservation _ _ | transfer _ _ _ _ | rename _ _ => own

/-- The operation names no category of the children. -/
def OwnCategories : DirOp → Prop
  | diduse _ type _ _ _ => type ≠ .child ∧ type ≠ .childRsrv
  | transfer _ _ oldtype newtype =>
    (oldtype ≠ .child ∧ oldtype ≠ .childRsrv) ∧ newtype ≠ .child ∧ newtype ≠ .childRsrv
  | setReservation _ _ | rename _ _ => True

end DirOp

/-- Operations on the directories, with the own use of each. -/
def dslDirSystem : TransitionSystem (DslDirs × (ℕ → OwnUse)) DirOp where
  Start state := state.1.Accounted state.2
  Step state op next := op.dd ∈ state.1.dirs ∧ op.OwnCategories ∧
    op.apply state.1 = some next.1 ∧ next.2 = op.charge state.2

variable {delta : ℤ} {oldtype newtype : DdUsed} {own : ℕ → OwnUse}

theorem resize_eq_some {size new : ℕ} (resized : resize size delta = some new) :
    (new : ℤ) = size + delta := by
  rw [resize] at resized
  split_ifs at resized with fits
  rw [← some.inj resized]
  exact Int.toNat_of_nonneg fits.1

/-- The accounts of a directory that its children take part in. -/
inductive Account where
  | used
  | compressed
  | uncompressed
  | child
  | childRsrv

namespace DslDirPhys

variable {phys phys' : DslDirPhys}

/-- What an account holds. -/
def balance (phys : DslDirPhys) : Account → ℤ
  | .used => phys.ddUsedBytes
  | .compressed => phys.ddCompressedBytes
  | .uncompressed => phys.ddUncompressedBytes
  | .child => phys.ddUsedBreakdown .child
  | .childRsrv => phys.ddUsedBreakdown .childRsrv

/-- What a directory passes to an account of its parent. -/
def passed (phys : DslDirPhys) : Account → ℤ
  | .used => max phys.ddUsedBytes phys.ddReserved
  | .compressed => phys.ddCompressedBytes
  | .uncompressed => phys.ddUncompressedBytes
  | .child => phys.ddUsedBytes
  | .childRsrv => max 0 (phys.ddReserved - phys.ddUsedBytes)

/-- A directory keeps an account. -/
def Tracks (phys : DslDirPhys) : Account → Prop
  | .child | .childRsrv => phys.breakdownFlag = true
  | _ => True

/-- The sum of all categories. -/
def breakdownSum (phys : DslDirPhys) : ℤ :=
  phys.ddUsedBreakdown .head + phys.ddUsedBreakdown .snap + phys.ddUsedBreakdown .child +
    phys.ddUsedBreakdown .childRsrv + phys.ddUsedBreakdown .refrsrv

/-- The categories add up to the space in use. -/
def AddsUp (phys : DslDirPhys) : Prop :=
  phys.breakdownFlag = true → phys.breakdownSum = phys.ddUsedBytes

/-- What no charge changes. -/
structure SameTerms (phys phys' : DslDirPhys) : Prop where
  flag : phys'.breakdownFlag = phys.breakdownFlag
  reserved : phys'.ddReserved = phys.ddReserved
  quota : phys'.ddQuota = phys.ddQuota

theorem SameTerms.refl (phys : DslDirPhys) : SameTerms phys phys := ⟨rfl, rfl, rfl⟩

theorem SameTerms.trans {third : DslDirPhys} (one : SameTerms phys phys')
    (two : SameTerms phys' third) : SameTerms phys third :=
  ⟨two.flag.trans one.flag, two.reserved.trans one.reserved, two.quota.trans one.quota⟩

theorem sum_update (breakdown : DdUsed → ℕ) (type : DdUsed) (new : ℕ) :
    ((update breakdown type new .head : ℤ) + update breakdown type new .snap +
      update breakdown type new .child + update breakdown type new .childRsrv +
      update breakdown type new .refrsrv) =
    breakdown .head + breakdown .snap + breakdown .child + breakdown .childRsrv +
      breakdown .refrsrv + (new - breakdown type) := by
  cases type <;> simp <;> ring

/-- What a charge enters in the accounts of the directory. -/
def entry (type : DdUsed) (used compressed uncompressed : ℤ) : Account → ℤ
  | .used => used
  | .compressed => compressed
  | .uncompressed => uncompressed
  | .child => if type = .child then used else 0
  | .childRsrv => if type = .childRsrv then used else 0

/-- What a charge does to a directory. -/
structure Charged (phys phys' : DslDirPhys) (type : DdUsed) (used compressed uncompressed : ℤ) :
    Prop where
  terms : SameTerms phys phys'
  used_eq : (phys'.ddUsedBytes : ℤ) = phys.ddUsedBytes + used
  balance_eq : ∀ account, phys.Tracks account →
    phys'.balance account = phys.balance account + entry type used compressed uncompressed account
  adds_up : phys.AddsUp → phys'.AddsUp
  /-- What the parent takes over and moves between its categories. -/
  passed_eq : ∀ account, phys'.passed account = phys.passed account +
    (entry .child (phys.parentDelta phys.ddUsedBytes used) compressed uncompressed account +
      (match account with
        | .child => used - phys.parentDelta phys.ddUsedBytes used
        | .childRsrv => -(used - phys.parentDelta phys.ddUsedBytes used)
        | _ => 0))

theorem diduse_spec {type : DdUsed} {used compressed uncompressed : ℤ}
    (done : phys.diduse type used compressed uncompressed = some phys') :
    Charged phys phys' type used compressed uncompressed := by
  simp only [diduse, bind_eq_bind, bind_eq_some_iff] at done
  obtain ⟨usedBytes, used_eq, uncompressedBytes, uncompressed_eq, compressedBytes, compressed_eq,
    breakdown, breakdown_eq, same⟩ := done
  cases same
  have used_eq := resize_eq_some used_eq
  have uncompressed_eq := resize_eq_some uncompressed_eq
  have compressed_eq := resize_eq_some compressed_eq
  have changed : phys.breakdownFlag = true → ∃ new : ℕ,
      breakdown = update phys.ddUsedBreakdown type new ∧
      (new : ℤ) = phys.ddUsedBreakdown type + used := by
    intro flag
    rw [addBreakdown, if_pos flag, map_eq_some_iff] at breakdown_eq
    obtain ⟨new, resized, rfl⟩ := breakdown_eq
    exact ⟨new, rfl, resize_eq_some resized⟩
  constructor
  case terms => exact ⟨rfl, rfl, rfl⟩
  case used_eq => exact used_eq
  case balance_eq =>
    intro account tracks
    cases account with
    | used => exact used_eq
    | compressed => exact compressed_eq
    | uncompressed => exact uncompressed_eq
    | child =>
      obtain ⟨new, rfl, new_eq⟩ := changed tracks
      cases type <;> simp [balance, entry, new_eq]
    | childRsrv =>
      obtain ⟨new, rfl, new_eq⟩ := changed tracks
      cases type <;> simp [balance, entry, new_eq]
  case adds_up =>
    intro adds flag
    obtain ⟨new, rfl, new_eq⟩ := changed flag
    have before := adds flag
    simp only [breakdownSum] at before ⊢
    rw [sum_update, before, used_eq, new_eq]
    ring
  case passed_eq =>
    intro account
    cases account with
    | used =>
      simp only [passed, entry, parentDelta, used_eq]
      omega
    | compressed => simp [passed, entry, compressed_eq]
    | uncompressed => simp [passed, entry, uncompressed_eq]
    | child =>
      simp only [passed, entry, if_true, used_eq]
      ring
    | childRsrv =>
      simp only [passed, entry, parentDelta, used_eq, reduceCtorEq, if_false]
      omega

theorem transfer_spec (done : phys.transfer delta oldtype newtype = some phys') :
    SameTerms phys phys' ∧ phys'.ddUsedBytes = phys.ddUsedBytes ∧
    phys'.passed = phys.passed ∧ (phys.AddsUp → phys'.AddsUp) ∧
    ∀ account, phys.Tracks account → phys'.balance account = phys.balance account +
      (entry newtype delta 0 0 account - entry oldtype delta 0 0 account) := by
  simp only [transfer] at done
  split_ifs at done with nothing
  · cases done
    refine ⟨.refl _, rfl, rfl, id, fun account tracks => ?_⟩
    rcases nothing with rfl | no_flag
    · cases account <;> simp [entry]
    · cases account with
      | used | compressed | uncompressed => simp [entry]
      | child | childRsrv => exact nomatch no_flag.symm.trans tracks
  · simp only [bind_eq_bind, bind_eq_some_iff] at done
    obtain ⟨old, old_eq, new, new_eq, same⟩ := done
    cases same
    have old_eq := resize_eq_some old_eq
    have new_eq := resize_eq_some new_eq
    refine ⟨⟨rfl, rfl, rfl⟩, rfl, rfl, fun adds flag => ?_, fun account tracks => ?_⟩
    · have before := adds flag
      simp only [breakdownSum] at before ⊢
      rw [sum_update, sum_update, before, new_eq, old_eq]
      ring
    · cases account with
      | used | compressed | uncompressed => simp [balance, entry]
      | child | childRsrv => cases oldtype <;> cases newtype <;> simp_all [balance, entry]

end DslDirPhys

namespace DslDirs

open DslDirPhys

variable {dirs dirs' : DslDirs} {ledger ledger' : ℕ → Account → ℤ} {dd : ℕ} {path : List ℕ}

/-- Every account is the entry of a ledger and what the children pass. -/
def Books (dirs : DslDirs) (ledger : ℕ → Account → ℤ) : Prop :=
  ∀ dd ∈ dirs.dirs, (dirs.ddPhys dd).AddsUp ∧ ∀ account, (dirs.ddPhys dd).Tracks account →
    (dirs.ddPhys dd).balance account =
      ledger dd account + dirs.overChildren (fun child => child.passed account) dd

/-- The ledger with a new entry for one directory. -/
def enter (ledger : ℕ → Account → ℤ) (dd : ℕ) (amount : Account → ℤ) : ℕ → Account → ℤ :=
  fun low account => ledger low account + if low = dd then amount account else 0

/-- The same tree with the same terms. -/
structure SameTree (dirs dirs' : DslDirs) : Prop where
  dirs_eq : dirs'.dirs = dirs.dirs
  parent_eq : dirs'.ddParent = dirs.ddParent
  terms : ∀ dd, SameTerms (dirs.ddPhys dd) (dirs'.ddPhys dd)
  size_eq : dirs'.adjustedSize = dirs.adjustedSize
  root_eq : dirs'.root = dirs.root

theorem SameTree.refl (dirs : DslDirs) : SameTree dirs dirs :=
  ⟨rfl, rfl, fun _ => .refl _, rfl, rfl⟩

theorem SameTree.trans {third : DslDirs} (one : SameTree dirs dirs') (two : SameTree dirs' third) :
    SameTree dirs third :=
  ⟨two.dirs_eq.trans one.dirs_eq, two.parent_eq.trans one.parent_eq,
    fun dd => (one.terms dd).trans (two.terms dd), two.size_eq.trans one.size_eq,
    two.root_eq.trans one.root_eq⟩

theorem SameTree.chain_eq (same : SameTree dirs dirs') (dd : ℕ) :
    dirs'.chain dd = dirs.chain dd := by
  simp only [chain, forest, Forest.chain, same.parent_eq, same.dirs_eq]

variable {phys : DslDirPhys}

theorem sameTree_setPhys (terms : SameTerms (dirs.ddPhys dd) phys) :
    SameTree dirs (dirs.setPhys dd phys) := by
  refine ⟨rfl, rfl, fun low => ?_, rfl, rfl⟩
  by_cases same : low = dd
  · rw [same, ddPhys_setPhys_self]
    exact terms
  · rw [ddPhys_setPhys_of_ne _ same]
    exact .refl _

theorem Books.congr (books : dirs.Books ledger)
    (same : ∀ low ∈ dirs.dirs, ∀ account, ledger' low account = ledger low account) :
    dirs.Books ledger' := by
  intro low member
  refine ⟨(books low member).1, fun account tracks => ?_⟩
  rw [same low member, (books low member).2 account tracks]

/-- A change in a directory is an entry for it, and an opposite one for its parent. -/
theorem Books.setPhys (books : dirs.Books ledger) (member : dd ∈ dirs.dirs)
    (flag : phys.breakdownFlag = (dirs.ddPhys dd).breakdownFlag)
    (adds_up : (dirs.ddPhys dd).AddsUp → phys.AddsUp) {own passed : Account → ℤ}
    (own_eq : ∀ account, (dirs.ddPhys dd).Tracks account →
      phys.balance account = (dirs.ddPhys dd).balance account + own account)
    (passed_eq : ∀ account,
      phys.passed account = (dirs.ddPhys dd).passed account + passed account) :
    (dirs.setPhys dd phys).Books (fun low account => enter ledger dd own low account -
      if dirs.ddParent dd = some low then passed account else 0) := by
  intro low low_member
  have sum : ∀ account,
      (dirs.setPhys dd phys).overChildren (fun child => child.passed account) low =
      dirs.overChildren (fun child => child.passed account) low +
        if dirs.ddParent dd = some low then passed account else 0 := by
    intro account
    refine (childSum_update member dirs.ddPhys phys (fun child => child.passed account)
      low).trans ?_
    rw [passed_eq, add_sub_cancel_left]
    rfl
  have kept := books low low_member
  by_cases same : low = dd
  · subst same
    rw [ddPhys_setPhys_self]
    refine ⟨adds_up kept.1, fun account tracks => ?_⟩
    have tracked : (dirs.ddPhys low).Tracks account := by
      cases account with
      | used | compressed | uncompressed => trivial
      | child | childRsrv => exact flag.symm.trans tracks
    rw [own_eq account tracked, kept.2 account tracked, sum]
    simp only [enter, if_true]
    ring
  · rw [ddPhys_setPhys_of_ne _ same]
    refine ⟨kept.1, fun account tracks => ?_⟩
    rw [kept.2 account tracks, sum]
    simp only [enter, if_neg same]
    ring

theorem transferSpace_frame
    (done : dirs.dslDirTransferSpace dd delta oldtype newtype = some dirs') :
    SameTree dirs dirs' ∧ (∀ low, low ≠ dd → dirs'.ddPhys low = dirs.ddPhys low) ∧
    (dirs'.ddPhys dd).ddUsedBytes = (dirs.ddPhys dd).ddUsedBytes := by
  rw [dslDirTransferSpace, map_eq_some_iff] at done
  obtain ⟨phys, moved, rfl⟩ := done
  obtain ⟨terms, used_eq, _⟩ := transfer_spec moved
  refine ⟨sameTree_setPhys terms, fun low other => ddPhys_setPhys_of_ne _ other _, ?_⟩
  rw [ddPhys_setPhys_self]
  exact used_eq

theorem Books.transfer (books : dirs.Books ledger) (member : dd ∈ dirs.dirs)
    (done : dirs.dslDirTransferSpace dd delta oldtype newtype = some dirs') :
    dirs'.Books (enter ledger dd fun account =>
      entry newtype delta 0 0 account - entry oldtype delta 0 0 account) := by
  rw [dslDirTransferSpace, map_eq_some_iff] at done
  obtain ⟨phys, moved, rfl⟩ := done
  obtain ⟨terms, _, passed_eq, adds_up, balance_eq⟩ := transfer_spec moved
  refine (books.setPhys member terms.flag adds_up balance_eq
    (fun account => (congrFun passed_eq account).trans (add_zero _).symm)).congr ?_
  intro low _ account
  split <;> simp

variable {type : DdUsed} {used compressed uncompressed : ℤ}

theorem diduseAlong_root
    (done : dirs.diduseAlong [dd] type used compressed uncompressed = some dirs') :
    ∃ phys, (dirs.ddPhys dd).diduse type used compressed uncompressed = some phys ∧
    dirs' = dirs.setPhys dd phys := by
  simp only [diduseAlong, bind_eq_bind, bind_eq_some_iff] at done
  obtain ⟨phys, charged, same⟩ := done
  exact ⟨phys, charged, (some.inj same).symm⟩

theorem diduseAlong_step {up : ℕ} {above : List ℕ}
    (done : dirs.diduseAlong (dd :: up :: above) type used compressed uncompressed = some dirs') :
    ∃ phys rolled, (dirs.ddPhys dd).diduse type used compressed uncompressed = some phys ∧
    (dirs.setPhys dd phys).diduseAlong (up :: above) .child
      ((dirs.ddPhys dd).parentDelta (dirs.ddPhys dd).ddUsedBytes used) compressed uncompressed =
        some rolled ∧
    rolled.dslDirTransferSpace up
      (used - (dirs.ddPhys dd).parentDelta (dirs.ddPhys dd).ddUsedBytes used) .childRsrv .child =
        some dirs' := by
  rw [diduseAlong] at done
  simp only [bind_eq_bind, bind_eq_some_iff] at done
  obtain ⟨phys, charged, rolled, along, moved⟩ := done
  exact ⟨phys, rolled, charged, along, moved⟩

theorem diduseAlong_frame
    (done : dirs.diduseAlong path type used compressed uncompressed = some dirs') :
    SameTree dirs dirs' ∧ ∀ low, low ∉ path → dirs'.ddPhys low = dirs.ddPhys low := by
  induction path generalizing dirs dirs' type used with
  | nil =>
    cases done
    exact ⟨.refl _, fun _ _ => rfl⟩
  | cons dd above ih =>
    cases above with
    | nil =>
      obtain ⟨phys, charged, rfl⟩ := diduseAlong_root done
      refine ⟨sameTree_setPhys (diduse_spec charged).terms, fun low outside => ?_⟩
      exact ddPhys_setPhys_of_ne _ (fun own => outside (mem_singleton.mpr own)) _
    | cons up above =>
      obtain ⟨phys, rolled, charged, along, moved⟩ := diduseAlong_step done
      obtain ⟨rolled_same, rolled_kept⟩ := ih along
      obtain ⟨moved_same, moved_kept, _⟩ := transferSpace_frame moved
      have charged_same := sameTree_setPhys (diduse_spec charged).terms
      refine ⟨(charged_same.trans rolled_same).trans moved_same, fun low outside => ?_⟩
      rw [mem_cons, not_or] at outside
      rw [moved_kept low (ne_of_mem_of_not_mem mem_cons_self outside.2).symm,
        rolled_kept low outside.2, ddPhys_setPhys_of_ne _ outside.1]

theorem Books.diduseAlong {parent : ℕ → Option ℕ} (found : Path parent dd path) :
    ∀ {dirs dirs' : DslDirs} {ledger : ℕ → Account → ℤ} {type : DdUsed}
      {used compressed uncompressed : ℤ}, dirs.ddParent = parent → (∀ up ∈ path, up ∈ dirs.dirs) →
      dirs.Books ledger → dirs.diduseAlong path type used compressed uncompressed = some dirs' →
      dirs'.Books (enter ledger dd (entry type used compressed uncompressed)) := by
  induction found with
  | @root dd top =>
    intro dirs dirs' ledger type used compressed uncompressed same within books done
    obtain ⟨phys, charged, rfl⟩ := diduseAlong_root done
    have spec := diduse_spec charged
    refine (books.setPhys (within dd mem_cons_self) spec.terms.flag spec.adds_up
      spec.balance_eq spec.passed_eq).congr ?_
    intro low _ account
    rw [same, top, if_neg nofun, sub_zero]
  | @step dd up above rises rest ih =>
    intro dirs dirs' ledger type used compressed uncompressed same within books done
    obtain ⟨higher, rfl⟩ := rest.eq_cons
    obtain ⟨phys, rolled, charged, along, moved⟩ := diduseAlong_step done
    have spec := diduse_spec charged
    have charged_parent : (dirs.setPhys dd phys).ddParent = parent := same
    have charged_books := books.setPhys (within dd mem_cons_self) spec.terms.flag
      spec.adds_up spec.balance_eq spec.passed_eq
    have rolled_books := ih charged_parent
      (fun high member => within high (mem_cons_of_mem dd member)) charged_books along
    have up_member : up ∈ rolled.dirs := by
      rw [(diduseAlong_frame along).1.dirs_eq]
      exact within up (mem_cons_of_mem dd mem_cons_self)
    refine (rolled_books.transfer up_member moved).congr fun low _ account => ?_
    -- what the parent lost to the child it has got back
    simp only [enter, same, rises, some.injEq]
    by_cases own : low = up
    · subst own
      cases account <;> simp [entry]
    · simp only [if_neg own, if_neg (Ne.symm own)]
      ring

theorem Books.diduse (books : dirs.Books ledger) (member : dd ∈ dirs.dirs)
    (done : dirs.dslDirDiduseSpace dd type used compressed uncompressed = some dirs') :
    dirs'.Books (enter ledger dd (entry type used compressed uncompressed)) := by
  obtain ⟨found, within⟩ := dirs.path_chain member
  exact Books.diduseAlong found rfl within books done

variable {parent : ℕ}

theorem parent_mem (member : dd ∈ dirs.dirs) (rises : dirs.ddParent dd = some parent) :
    parent ∈ dirs.dirs ∧ dd ∉ dirs.chain parent := by
  obtain ⟨path, found, within⟩ := dirs.rooted dd member
  cases found with
  | root top => exact nomatch top.symm.trans rises
  | step rises' rest =>
    obtain rfl := mem_unique rises rises'
    have inside := within parent (mem_cons_of_mem dd rest.mem_self)
    rw [(dirs.path_chain inside).1.unique rest]
    exact ⟨inside, (nodup_cons.mp (Path.step rises rest).nodup).1⟩

theorem Books.setReservation (books : dirs.Books ledger) (member : dd ∈ dirs.dirs)
    {newReservation : ℕ} (done : dirs.dslDirSetReservationSync dd newReservation = some dirs') :
    dirs'.Books ledger := by
  have balance_eq : ∀ account, (dirs.ddPhys dd).Tracks account →
      ((dirs.ddPhys dd).reserve newReservation).balance account =
        (dirs.ddPhys dd).balance account + 0 := by
    intro account _
    cases account <;> simp [balance, reserve]
  have passed_eq : ∀ account, ((dirs.ddPhys dd).reserve newReservation).passed account =
        (dirs.ddPhys dd).passed account +
          entry .childRsrv (max (dirs.ddPhys dd).ddUsedBytes newReservation -
            max (dirs.ddPhys dd).ddUsedBytes (dirs.ddPhys dd).ddReserved) 0 0 account := by
    intro account
    cases account with
    | used | childRsrv =>
      simp only [DslDirPhys.passed, entry, reserve, if_true]
      omega
    | compressed | uncompressed | child => simp [DslDirPhys.passed, entry, reserve]
  have adds_up : (dirs.ddPhys dd).AddsUp → ((dirs.ddPhys dd).reserve newReservation).AddsUp := id
  have flag : ((dirs.ddPhys dd).reserve newReservation).breakdownFlag =
    (dirs.ddPhys dd).breakdownFlag := rfl
  have reserved_books := books.setPhys member flag adds_up balance_eq passed_eq
  rw [dslDirSetReservationSync] at done
  split at done
  · rename_i top
    cases done
    refine reserved_books.congr fun low _ account => ?_
    simp [enter, top]
  · rename_i parent rises
    have inside := (parent_mem member rises).1
    refine (reserved_books.diduse inside done).congr fun low _ account => ?_
    simp only [enter, rises, some.injEq]
    by_cases own : low = parent
    · subst own
      simp
    · simp [own, Ne.symm own]

variable {newparent : ℕ}

theorem Books.reparent (books : dirs.Books ledger) (member : dd ∈ dirs.dirs)
    (rises : dirs.ddParent dd = some parent) (done : dirs.reparent dd newparent = some dirs') :
    dirs'.Books (fun low account => ledger low account +
      (if low = parent then (dirs.ddPhys dd).passed account else 0) -
        if low = newparent then (dirs.ddPhys dd).passed account else 0) := by
  rw [DslDirs.reparent] at done
  split_ifs at done with legal
  cases done
  intro low low_member
  refine ⟨(books low low_member).1, fun account tracks => ?_⟩
  refine ((books low low_member).2 account tracks).trans ?_
  simp only [overChildren]
  rw [childSum_move member rises]
  simp only [eq_comm (a := low)]
  ring

theorem moveSpace_sameTree (done : dirs.moveSpace dd parent newparent = some dirs') :
    SameTree dirs dirs' := by
  simp only [moveSpace, bind_eq_bind, bind_eq_some_iff] at done
  obtain ⟨taken, taking, given, giving, rest⟩ := done
  have same := (diduseAlong_frame taking).1.trans (diduseAlong_frame giving).1
  split_ifs at rest
  · simp only [bind_eq_some_iff] at rest
    obtain ⟨returned, returning, reserving⟩ := rest
    exact (same.trans (diduseAlong_frame returning).1).trans (diduseAlong_frame reserving).1
  · cases rest
    exact same

/-- The charges of a move to a directory that is not a descendant. -/
theorem moveSpace_cases (below : dd ∉ dirs.chain parent) (legal : dd ∉ dirs.chain newparent)
    (done : dirs.moveSpace dd parent newparent = some dirs') :
    ∃ taken given,
      dirs.dslDirDiduseSpace parent .child (-(dirs.ddPhys dd).ddUsedBytes)
        (-(dirs.ddPhys dd).ddCompressedBytes) (-(dirs.ddPhys dd).ddUncompressedBytes) = some taken ∧
      taken.dslDirDiduseSpace newparent .child (dirs.ddPhys dd).ddUsedBytes
        (dirs.ddPhys dd).ddCompressedBytes (dirs.ddPhys dd).ddUncompressedBytes = some given ∧
      ((dirs.ddPhys dd).ddReserved ≤ (dirs.ddPhys dd).ddUsedBytes ∧ dirs' = given ∨
        (dirs.ddPhys dd).ddUsedBytes < (dirs.ddPhys dd).ddReserved ∧ ∃ returned,
          given.dslDirDiduseSpace parent .childRsrv
            (-((dirs.ddPhys dd).ddReserved - (dirs.ddPhys dd).ddUsedBytes : ℕ)) 0 0 =
              some returned ∧
          returned.dslDirDiduseSpace newparent .childRsrv
            ((dirs.ddPhys dd).ddReserved - (dirs.ddPhys dd).ddUsedBytes : ℕ) 0 0 = some dirs') ∧
      dirs'.ddPhys dd = dirs.ddPhys dd := by
  simp only [moveSpace, bind_eq_bind, bind_eq_some_iff] at done
  obtain ⟨taken, taking, given, giving, rest⟩ := done
  obtain ⟨taken_same, taken_kept⟩ := diduseAlong_frame taking
  obtain ⟨given_same, given_kept⟩ := diduseAlong_frame giving
  have taken_dd := taken_kept dd below
  have given_dd := (given_kept dd (taken_same.chain_eq newparent ▸ legal)).trans taken_dd
  have same := taken_same.trans given_same
  rw [taken_dd] at giving
  rw [given_dd] at rest
  refine ⟨taken, given, taking, giving, ?_⟩
  split_ifs at rest with unused
  · simp only [bind_eq_some_iff] at rest
    obtain ⟨returned, returning, reserving⟩ := rest
    obtain ⟨returned_same, returned_kept⟩ := diduseAlong_frame returning
    obtain ⟨_, final_kept⟩ := diduseAlong_frame reserving
    have returned_dd := returned_kept dd (same.chain_eq parent ▸ below)
    have final_dd := final_kept dd ((same.trans returned_same).chain_eq newparent ▸ legal)
    exact ⟨.inr ⟨unused, returned, returning, reserving⟩,
      (final_dd.trans returned_dd).trans given_dd⟩
  · cases rest
    exact ⟨.inl ⟨not_lt.mp unused, rfl⟩, given_dd⟩

theorem Books.moveSpace (books : dirs.Books ledger) (source : parent ∈ dirs.dirs)
    (below : dd ∉ dirs.chain parent) (target : newparent ∈ dirs.dirs)
    (legal : dd ∉ dirs.chain newparent) (done : dirs.moveSpace dd parent newparent = some dirs') :
    dirs'.Books (fun low account => ledger low account -
      (if low = parent then (dirs.ddPhys dd).passed account else 0) +
        if low = newparent then (dirs.ddPhys dd).passed account else 0) := by
  obtain ⟨taken, given, taking, giving, rest, _⟩ := moveSpace_cases below legal done
  have taken_same := (diduseAlong_frame taking).1
  have given_same := taken_same.trans (diduseAlong_frame giving).1
  have given_books :=
    (books.diduse source taking).diduse (taken_same.dirs_eq ▸ target) giving
  rcases rest with ⟨covered, rfl⟩ | ⟨unused, returned, returning, reserving⟩
  · refine given_books.congr fun low _ account => ?_
    simp only [enter]
    split_ifs <;> cases account <;> simp [entry, DslDirPhys.passed] <;> omega
  · have returned_same := given_same.trans (diduseAlong_frame returning).1
    refine ((given_books.diduse (given_same.dirs_eq ▸ source) returning).diduse
      (returned_same.dirs_eq ▸ target) reserving).congr fun low _ account => ?_
    simp only [enter]
    split_ifs <;> cases account <;> simp [entry, DslDirPhys.passed] <;> omega

theorem reparent_legal (done : dirs.reparent dd newparent = some dirs') :
    newparent ∈ dirs.dirs ∧ dd ∉ dirs.chain newparent := by
  rw [reparent] at done
  split_ifs at done with legal
  exact legal

theorem renameSync_cases (member : dd ∈ dirs.dirs)
    (done : dirs.dslDirRenameSync dd newparent = some dirs') :
    ∃ parent moved, dirs.ddParent dd = some parent ∧ parent ∈ dirs.dirs ∧
    dd ∉ dirs.chain parent ∧ newparent ∈ dirs.dirs ∧ dd ∉ dirs.chain newparent ∧
    (newparent ≠ parent ∧ dirs.moveSpace dd parent newparent = some moved ∨
      newparent = parent ∧ moved = dirs) ∧
    SameTree dirs moved ∧ moved.reparent dd newparent = some dirs' := by
  simp only [dslDirRenameSync, bind_eq_bind, bind_eq_some_iff] at done
  obtain ⟨parent, rises, done⟩ := done
  obtain ⟨source, below⟩ := parent_mem member rises
  have cases : ∃ moved, (newparent ≠ parent ∧ dirs.moveSpace dd parent newparent = some moved ∨
      newparent = parent ∧ moved = dirs) ∧ SameTree dirs moved ∧
        moved.reparent dd newparent = some dirs' := by
    split_ifs at done with apart
    · simp only [bind_eq_some_iff] at done
      obtain ⟨moved, moving, reparented⟩ := done
      exact ⟨moved, .inl ⟨apart, moving⟩, moveSpace_sameTree moving, reparented⟩
    · exact ⟨dirs, .inr ⟨not_not.mp apart, rfl⟩, .refl _, done⟩
  obtain ⟨moved, way, same, reparented⟩ := cases
  have legal := reparent_legal reparented
  rw [same.dirs_eq, same.chain_eq] at legal
  exact ⟨parent, moved, rises, source, below, legal.1, legal.2, way, same, reparented⟩

theorem Books.rename (books : dirs.Books ledger) (member : dd ∈ dirs.dirs)
    (done : dirs.dslDirRenameSync dd newparent = some dirs') : dirs'.Books ledger := by
  obtain ⟨parent, moved, rises, source, below, target, legal, way, same, reparented⟩ :=
    renameSync_cases member done
  have moved_rises : moved.ddParent dd = some parent := same.parent_eq ▸ rises
  have moved_member : dd ∈ moved.dirs := same.dirs_eq ▸ member
  rcases way with ⟨_, moving⟩ | ⟨rfl, rfl⟩
  · have moved_books := books.moveSpace source below target legal moving
    obtain ⟨_, _, _, _, _, kept⟩ := moveSpace_cases below legal moving
    refine (moved_books.reparent moved_member moved_rises reparented).congr fun low _ account => ?_
    rw [kept]
    ring
  · refine (books.reparent member rises reparented).congr fun low _ account => ?_
    ring

/-- The ledger of own use, without anything of the children. -/
def ownLedger (own : ℕ → OwnUse) (dd : ℕ) : Account → ℤ
  | .used => (own dd).used
  | .compressed => (own dd).compressed
  | .uncompressed => (own dd).uncompressed
  | .child | .childRsrv => 0

theorem accounted_iff_books : dirs.Accounted own ↔ dirs.Books (ownLedger own) := by
  constructor
  · intro accounted dd member
    have right := accounted dd member
    refine ⟨fun flag => ?_, fun account tracks => ?_⟩
    · have total := right.total flag
      simp only [breakdownSum]
      exact_mod_cast total
    · cases account with
      | used => exact right.used
      | compressed => exact right.compressed
      | uncompressed => exact right.uncompressed
      | child => exact (right.child tracks).trans (zero_add _).symm
      | childRsrv => exact (right.childRsrv tracks).trans (zero_add _).symm
  · intro books dd member
    obtain ⟨adds_up, balanced⟩ := books dd member
    exact
      { used := balanced .used trivial
        compressed := balanced .compressed trivial
        uncompressed := balanced .uncompressed trivial
        child := fun flag => (balanced .child flag).trans (zero_add _)
        childRsrv := fun flag => (balanced .childRsrv flag).trans (zero_add _)
        total := fun flag => by
          have total := adds_up flag
          simp only [breakdownSum] at total
          exact_mod_cast total }

/-- Every operation keeps the accounts right. -/
theorem Accounted.apply (accounted : dirs.Accounted own) {op : DirOp} (member : op.dd ∈ dirs.dirs)
    (categories : op.OwnCategories) (done : op.apply dirs = some dirs') :
    dirs'.Accounted (op.charge own) := by
  have books := accounted_iff_books.mp accounted
  rw [accounted_iff_books]
  cases op with
  | diduse dd type used compressed uncompressed =>
    refine (books.diduse member done).congr fun low _ account => ?_
    obtain ⟨not_child, not_rsrv⟩ := categories
    by_cases own_entry : low = dd
    · subst own_entry
      cases account <;>
        simp [ownLedger, enter, DirOp.charge, DirOp.dd, entry, not_child, not_rsrv]
    · cases account <;> simp [ownLedger, enter, DirOp.charge, DirOp.dd, own_entry]
  | setReservation dd newReservation => exact books.setReservation member done
  | transfer dd delta oldtype newtype =>
    refine (books.transfer member done).congr fun low _ account => ?_
    obtain ⟨⟨old_child, old_rsrv⟩, new_child, new_rsrv⟩ := categories
    cases account <;> simp [enter, DirOp.charge, entry, old_child, old_rsrv, new_child, new_rsrv]
  | rename dd newparent => exact books.rename member done

end DslDirs

/-- In every run of operations, the sizes of every directory are its own and those of its
children. -/
theorem dsl_dir_accounting {state : DslDirs × (ℕ → OwnUse)}
    (reachable : dslDirSystem.Reachable state) : state.1.Accounted state.2 :=
  reachable.invariant (fun _ start => start) fun state op next accounted step => by
    obtain ⟨member, categories, done, charged⟩ := step
    show next.1.Accounted next.2
    rw [charged]
    exact accounted.apply member categories done

/-- A root with two children, nothing of which is used. -/
def twoChildren : DslDirs where
  dirs := {1, 2, 3}
  ddParent dd := if dd = 2 ∨ dd = 3 then some 1 else none
  ddPhys _ := ⟨0, 0, 0, 0, 0, true, fun _ => 0⟩
  ddSpaceTowrite _ _ := 0
  adjustedSize := 1000
  root := 1
  rooted := by
    simp only [Finset.mem_insert, Finset.mem_singleton]
    rintro dd (rfl | rfl | rfl)
    · exact ⟨[1], .root rfl, by simp⟩
    · exact ⟨[2, 1], .step rfl (.root rfl), by simp⟩
    · exact ⟨[3, 1], .step rfl (.root rfl), by simp⟩
  root_unique := by
    simp only [Finset.mem_insert, Finset.mem_singleton]
    rintro dd (rfl | rfl | rfl) top
    · rfl
    · exact nomatch top
    · exact nomatch top

theorem twoChildren_accounted : twoChildren.Accounted fun _ => ⟨0, 0, 0⟩ := by
  intro dd _
  constructor <;> simp [twoChildren, DslDirs.overChildren, childSum]

/-- The first child uses 10. -/
def usedPool : DslDirs := (DirOp.apply twoChildren (.diduse 2 .head 10 10 10)).get rfl

/-- It reserves 30. -/
def reservedPool : DslDirs := (DirOp.apply usedPool (.setReservation 2 30)).get rfl

/-- The second child moves below it. -/
def movedPool : DslDirs := (DirOp.apply reservedPool (.rename 3 2)).get rfl

theorem dsl_dir_accounting_moved : (movedPool.ddPhys 1).ddUsedBytes = 30 ∧
    movedPool.Accounted (update (fun _ => ⟨0, 0, 0⟩) 2 ⟨10, 10, 10⟩) := by
  have using_ : DirOp.apply twoChildren (.diduse 2 .head 10 10 10) = some usedPool :=
    (some_get rfl).symm
  have reserving : DirOp.apply usedPool (.setReservation 2 30) = some reservedPool :=
    (some_get rfl).symm
  have moving : DirOp.apply reservedPool (.rename 3 2) = some movedPool :=
    (some_get rfl).symm
  have start : dslDirSystem.Reachable (twoChildren, fun _ => ⟨0, 0, 0⟩) :=
    .start twoChildren_accounted
  have used : dslDirSystem.Reachable
      (usedPool, update (fun _ => ⟨0, 0, 0⟩) 2 ⟨10, 10, 10⟩) :=
    start.take (.diduse 2 .head 10 10 10) ⟨by decide, by simp [DirOp.OwnCategories], using_, rfl⟩
  have reserved : dslDirSystem.Reachable
      (reservedPool, update (fun _ => ⟨0, 0, 0⟩) 2 ⟨10, 10, 10⟩) :=
    used.take (.setReservation 2 30) ⟨by decide, trivial, reserving, rfl⟩
  have moved : dslDirSystem.Reachable
      (movedPool, update (fun _ => ⟨0, 0, 0⟩) 2 ⟨10, 10, 10⟩) :=
    reserved.take (.rename 3 2) ⟨by decide, trivial, moving, rfl⟩
  exact ⟨rfl, dsl_dir_accounting moved⟩

/-- A charge to the root in the name of its children is not what they use. -/
theorem dsl_dir_accounting_child : ∃ dirs, twoChildren.Accounted (fun _ => ⟨0, 0, 0⟩) ∧
    DirOp.apply twoChildren (.diduse 1 .child 5 0 0) = some dirs ∧ ∀ own, ¬ dirs.Accounted own := by
  refine ⟨twoChildren.setPhys 1 ⟨5, 0, 0, 0, 0, true, update (fun _ => 0) .child 5⟩,
    twoChildren_accounted, rfl, fun own accounted => ?_⟩
  have child := (accounted 1 (by decide)).child rfl
  revert child
  decide

end Zfs
