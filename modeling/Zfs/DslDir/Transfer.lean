import Zfs.DslDir.Accounting
import Zfs.Library.ReservedCharge

/-!
# Moving a directory keeps the quotas

The space available at the new parent bounds what a move charges to each of its ancestors.  The two
charges change the common ancestors as one charge of both, and the space available there counts what
the old parent gives back.
-/

namespace Zfs

open ParentTree ReservedCharge Function List Option

variable {type : DdUsed} {used compressed uncompressed space : ℤ} {size sdd : ℕ}

namespace DslDirs

variable {dirs dirs' : DslDirs} {dd : ℕ} {path above : List ℕ}

/-- The space in use, by directory. -/
def usedOf (dirs : DslDirs) (dd : ℕ) : ℤ := (dirs.ddPhys dd).ddUsedBytes

/-- The reservation, by directory. -/
def reservedOf (dirs : DslDirs) (dd : ℕ) : ℤ := (dirs.ddPhys dd).ddReserved

theorem parentDelta_eq (dirs : DslDirs) (dd : ℕ) (delta : ℤ) :
    (dirs.ddPhys dd).parentDelta (dirs.ddPhys dd).ddUsedBytes delta =
      passOn dirs.usedOf dirs.reservedOf dd delta := by
  simp [DslDirPhys.parentDelta, passOn, usedOf, reservedOf]

theorem SameTree.reservedOf_eq (same : SameTree dirs dirs') :
    dirs'.reservedOf = dirs.reservedOf := by
  funext low
  rw [reservedOf, reservedOf, (same.terms low).reserved]

theorem diduseAlong_used (once : path.Nodup)
    (done : dirs.diduseAlong path type used compressed uncompressed = some dirs') :
    dirs'.usedOf = raised dirs.usedOf dirs.reservedOf path used := by
  induction path generalizing dirs dirs' type used with
  | nil =>
    cases done
    rfl
  | cons dd above ih =>
    obtain ⟨outside, above_once⟩ := nodup_cons.mp once
    cases above with
    | nil =>
      obtain ⟨phys, charged, rfl⟩ := diduseAlong_root done
      funext low
      by_cases own : low = dd
      · rw [own, raised, update_self, usedOf, ddPhys_setPhys_self]
        exact (DslDirPhys.diduse_spec charged).used_eq
      · rw [raised, update_of_ne own, usedOf, ddPhys_setPhys_of_ne _ own]
        rfl
    | cons up above =>
      obtain ⟨phys, rolled, charged, along, moved⟩ := diduseAlong_step done
      have spec := DslDirPhys.diduse_spec charged
      have charged_used : ∀ low, low ≠ dd →
          (dirs.setPhys dd phys).usedOf low = dirs.usedOf low := fun low other => by
        rw [usedOf, ddPhys_setPhys_of_ne _ other, usedOf]
      obtain ⟨_, moved_kept, moved_used⟩ := transferSpace_frame moved
      have transfer_used : dirs'.usedOf = rolled.usedOf := by
        funext low
        by_cases own : low = up
        · rw [own, usedOf, usedOf, moved_used]
        · rw [usedOf, usedOf, moved_kept low own]
      rw [transfer_used, ih above_once along, (sameTree_setPhys spec.terms).reservedOf_eq,
        parentDelta_eq]
      funext low
      by_cases own : low = dd
      · rw [own, raised_of_not_mem outside, raised.eq_def, usedOf, ddPhys_setPhys_self]
        simp only [update_self]
        exact spec.used_eq
      · conv_rhs => rw [raised, update_of_ne own]
        by_cases member : low ∈ up :: above
        · exact raised_congr (fun high inside =>
            charged_used high (ne_of_mem_of_not_mem inside outside)) member _
        · rw [raised_of_not_mem member, raised_of_not_mem member, charged_used low own]

end DslDirs

variable {delta : ℤ}

theorem addSigned64_le (nonneg : 0 ≤ size + delta) : addSigned64 size delta ≤ size + delta := by
  rw [addSigned64, Int.toNat_of_nonneg (Int.emod_nonneg _ (by decide))]
  omega

theorem le_addSigned64 (small : size + delta < 2 ^ 64) : size + delta ≤ addSigned64 size delta := by
  rw [addSigned64, Int.toNat_of_nonneg (Int.emod_nonneg _ (by decide))]
  omega

/-- A charge that fits the space of a directory fits its quota and, passed on, the parent. -/
theorem DslDirPhys.le_myspace {phys : DslDirPhys} {quota used parentspace : ℕ}
    {atAncestor : Bool} {charge : ℤ} (within : used ≤ quota) (small : used < 2 ^ 64)
    (gives_back : delta ≤ 0)
    (fits : charge ≤ phys.myspace quota used parentspace atAncestor delta) :
    used + (charge + if atAncestor then delta else 0) ≤ quota ∧
    max (used + (charge + if atAncestor then delta else 0)) phys.ddReserved -
      max used phys.ddReserved ≤ parentspace := by
  -- neither step of the code overestimates the space
  have credit : ∃ credited : ℕ, credited ≤ parentspace + (phys.ddReserved - used) ∧
      phys.myspace quota used parentspace atAncestor delta =
        if quota < (if atAncestor then addSigned64 used delta else used) then 0
        else min (if atAncestor ∧ credited ≠ uint64Max then addSigned64 credited (-delta)
          else credited) (quota - if atAncestor then addSigned64 used delta else used) := by
    refine ⟨if used < phys.ddReserved ∧ parentspace ≠ uint64Max then
      add64 parentspace (phys.ddReserved - used) else parentspace, ?_, rfl⟩
    split
    · exact Nat.mod_le _ _
    · exact Nat.le_add_right _ _
  obtain ⟨credited, credited_le, space_eq⟩ := credit
  rw [space_eq] at fits
  have returned : addSigned64 credited (-delta) ≤ credited + -delta := addSigned64_le (by omega)
  have used_ge : used + delta ≤ addSigned64 used delta := le_addSigned64 (by omega)
  cases atAncestor with
  | false =>
    simp only [Bool.false_eq_true, false_and, if_false] at fits ⊢
    split at fits <;> omega
  | true =>
    simp only [true_and, if_true] at fits ⊢
    split at fits
    · omega
    · split at fits <;> omega

namespace DslDirs

variable {dirs dirs' : DslDirs} {dd ancestor : ℕ} {path above low : List ℕ} {adelta : ℤ}

/-- Every directory of a list is within the quota that holds for it. -/
def InQuota (dirs : DslDirs) (amount : ℕ → ℤ) : List ℕ → List ℕ → Prop
  | [], _ => True
  | dd :: path, above =>
    amount dd ≤ dirs.effectiveQuota dd (path ++ above) ∧ InQuota dirs amount path above

variable {amount : ℕ → ℤ}

theorem InQuota.congr {amount' : ℕ → ℤ} (within : dirs.InQuota amount path above)
    (same : ∀ dd ∈ path, amount' dd = amount dd) : dirs.InQuota amount' path above := by
  induction path with
  | nil => trivial
  | cons dd path ih =>
    refine ⟨(same dd mem_cons_self).trans_le within.1, ih within.2 fun up inside => ?_⟩
    exact same up (mem_cons_of_mem dd inside)

/-- No pending writes, and the sizes are 64-bit numbers. -/
def Idle (dirs : DslDirs) (path : List ℕ) : Prop :=
  ∀ dd ∈ path, (dirs.ddPhys dd).ddUsedBytes < 2 ^ 64 ∧ dirs.dslDirSpaceTowrite dd = 0

variable {charge : ℤ}

theorem node_fits (idle : dirs.Idle [dd]) (gives_back : adelta ≤ 0)
    (within : dirs.usedOf dd ≤ dirs.effectiveQuota dd above)
    (fits : charge ≤ dirs.spaceAvailable ancestor adelta false (dd :: above)) :
    dirs.usedOf dd + (charge + if dd = ancestor then adelta else 0) ≤
        dirs.effectiveQuota dd above ∧
      passOn dirs.usedOf dirs.reservedOf dd (charge + if dd = ancestor then adelta else 0) ≤
        dirs.spaceAvailable ancestor adelta false above := by
  obtain ⟨small, settled⟩ := idle dd mem_cons_self
  have used_eq : add64 (dirs.ddPhys dd).ddUsedBytes (dirs.dslDirSpaceTowrite dd) =
      (dirs.ddPhys dd).ddUsedBytes := by
    rw [settled, add64, add_zero, Nat.mod_eq_of_lt small]
  rw [spaceAvailable] at fits
  simp only [Bool.false_eq_true, if_false, used_eq] at fits
  have bounds := DslDirPhys.le_myspace (Int.ofNat_le.mp within) small gives_back fits
  simp only [decide_eq_true_eq] at bounds
  rw [← parentDelta_eq]
  exact bounds

/-- What fits the available space fits the quotas on the way up. -/
theorem charge_fits (once : low.Nodup) (outside : ancestor ∉ low) (idle : dirs.Idle low)
    (gives_back : adelta ≤ 0) (within : dirs.InQuota dirs.usedOf low above)
    (fits : charge ≤ dirs.spaceAvailable ancestor adelta false (low ++ above)) :
    dirs.InQuota (raised dirs.usedOf dirs.reservedOf low charge) low above ∧
    through dirs.usedOf dirs.reservedOf low charge ≤
      dirs.spaceAvailable ancestor adelta false above := by
  induction low generalizing charge with
  | nil => exact ⟨trivial, fits⟩
  | cons dd low ih =>
    obtain ⟨dd_outside, low_once⟩ := nodup_cons.mp once
    rw [mem_cons, not_or] at outside
    have dd_idle : dirs.Idle [dd] := forall_mem_singleton.mpr (idle dd mem_cons_self)
    obtain ⟨own_fits, passed_fits⟩ := node_fits dd_idle gives_back within.1 fits
    rw [if_neg (Ne.symm outside.1), add_zero] at own_fits passed_fits
    obtain ⟨above_fits, left_fits⟩ := ih low_once outside.2
      (fun up inside => idle up (mem_cons_of_mem dd inside)) within.2 passed_fits
    refine ⟨⟨?_, above_fits.congr fun up inside => ?_⟩, left_fits⟩
    · rw [raised, update_self]
      exact own_fits
    · rw [raised, update_of_ne (ne_of_mem_of_not_mem inside dd_outside)]

theorem inQuota_append : dirs.InQuota amount (low ++ path) above ↔
    dirs.InQuota amount low (path ++ above) ∧ dirs.InQuota amount path above := by
  induction low with
  | nil => simp [InQuota]
  | cons dd low ih => simp only [cons_append, InQuota, ih, append_assoc, and_assoc]

/-- No writes are pending, and the directories above are within their quotas. -/
structure Settled (dirs : DslDirs) (tdd : ℕ) : Prop where
  /-- The sizes are 64-bit numbers. -/
  sized : ∀ dd ∈ dirs.dirs, (dirs.ddPhys dd).ddUsedBytes < 2 ^ 64
  /-- No writes are pending. -/
  idle : ∀ dd ∈ dirs.dirs, ∀ txg, dirs.ddSpaceTowrite dd txg = 0
  /-- The directories above are within their quotas. -/
  quota : ∀ dd ∈ dirs.chain tdd, (dirs.ddPhys dd).ddQuota ≠ 0 →
    (dirs.ddPhys dd).ddUsedBytes ≤ (dirs.ddPhys dd).ddQuota
  /-- The pool is not overfull. -/
  pool : (dirs.ddPhys dirs.root).ddUsedBytes ≤ dirs.adjustedSize

variable {tdd : ℕ}

theorem Settled.inQuota (settled : dirs.Settled tdd) (found : Path dirs.ddParent dd path)
    (within : ∀ up ∈ path, up ∈ dirs.dirs) (part : path ⊆ dirs.chain tdd) :
    dirs.InQuota dirs.usedOf path [] := by
  have own_quota : ∀ up ∈ path, (dirs.ddPhys up).ddUsedBytes ≤
      if (dirs.ddPhys up).ddQuota ≠ 0 then (dirs.ddPhys up).ddQuota else uint64Max := by
    intro up member
    split
    · exact settled.quota up (part member) ‹_›
    · exact Nat.le_pred_of_lt (settled.sized up (within up member))
  induction found with
  | @root dd top =>
    refine ⟨Int.ofNat_le.mpr (le_min (own_quota dd mem_cons_self) ?_), trivial⟩
    rw [dirs.root_unique dd (within dd mem_cons_self) top]
    exact settled.pool
  | @step dd up above _ rest ih =>
    obtain ⟨higher, rfl⟩ := rest.eq_cons
    refine ⟨?_, ih (fun high member => within high (mem_cons_of_mem dd member))
      (fun high member => part (mem_cons_of_mem dd member))
      fun high member => own_quota high (mem_cons_of_mem dd member)⟩
    rw [effectiveQuota, if_neg (by simp)]
    exact Int.ofNat_le.mpr (own_quota dd mem_cons_self)

theorem InQuota.le_quota (within : dirs.InQuota amount path above) (member : dd ∈ path)
    (limited : (dirs.ddPhys dd).ddQuota ≠ 0) :
    amount dd ≤ (dirs.ddPhys dd).ddQuota := by
  induction path with
  | nil => exact nomatch member
  | cons first path ih =>
    rcases mem_cons.mp member with rfl | rest
    · refine within.1.trans ?_
      rw [effectiveQuota, if_pos limited]
      split
      · exact Int.ofNat_le.mpr (min_le_left _ _)
      · exact le_rfl
    · exact ih within.2 rest

theorem InQuota.le_size (found : Path dirs.ddParent dd path)
    (inside : ∀ up ∈ path, up ∈ dirs.dirs) (within : dirs.InQuota amount path []) :
    amount dirs.root ≤ dirs.adjustedSize := by
  induction found with
  | @root dd top =>
    rw [← dirs.root_unique dd (inside dd mem_cons_self) top]
    refine within.1.trans ?_
    rw [effectiveQuota, if_pos (by simp)]
    exact Int.ofNat_le.mpr (min_le_right _ _)
  | @step dd up above _ rest ih =>
    exact ih (fun high member => inside high (mem_cons_of_mem dd member)) within.2

theorem wouldChange_eq (outside : ancestor ∉ low) (delta : ℤ) :
    dirs.wouldChange ancestor (low ++ ancestor :: above) delta =
      through dirs.usedOf dirs.reservedOf low delta := by
  induction low generalizing delta with
  | nil => rw [nil_append, wouldChange, if_pos rfl, through]
  | cons dd low ih =>
    rw [mem_cons, not_or] at outside
    rw [cons_append, wouldChange, if_neg (Ne.symm outside.1), through]
    dsimp only
    rw [parentDelta_eq, ih outside.2]

variable {left right : List ℕ}

/-- A charge along one of two paths that join. -/
theorem diduse_joined {base : DslDirs} {atLeft atRight atAbove : ℤ} (same : SameTree base dirs)
    (use : dirs.usedOf = joined base.usedOf base.reservedOf left right above atLeft atRight atAbove)
    (chain_eq : base.chain dd = left ++ above) (once : (left ++ above).Nodup)
    (apart : ∀ node ∈ right, node ∉ left ++ above)
    (done : dirs.dslDirDiduseSpace dd type used compressed uncompressed = some dirs') :
    SameTree base dirs' ∧ dirs'.usedOf =
      joined base.usedOf base.reservedOf left right above (atLeft + used) atRight
        (atAbove + (through base.usedOf base.reservedOf left (atLeft + used) -
          through base.usedOf base.reservedOf left atLeft)) := by
  have along : dirs.diduseAlong (left ++ above) type used compressed uncompressed = some dirs' := by
    rw [← chain_eq, ← same.chain_eq]
    exact done
  refine ⟨same.trans (diduseAlong_frame along).1, ?_⟩
  rw [diduseAlong_used once along, use, same.reservedOf_eq, raised_joined once apart]

/-- A move charges the new parent with what it takes from the old one. -/
theorem moveSpace_used (below : dd ∉ dirs.chain sdd) (legal : dd ∉ dirs.chain tdd)
    (source : dirs.chain sdd = left ++ above) (target : dirs.chain tdd = right ++ above)
    (source_once : (left ++ above).Nodup) (target_once : (right ++ above).Nodup)
    (left_apart : ∀ node ∈ left, node ∉ right ++ above)
    (right_apart : ∀ node ∈ right, node ∉ left ++ above)
    (space_eq : space = max (dirs.usedOf dd) (dirs.reservedOf dd))
    (done : dirs.moveSpace dd sdd tdd = some dirs') :
    dirs'.usedOf = joined dirs.usedOf dirs.reservedOf left right above (-space) space
      (through dirs.usedOf dirs.reservedOf left (-space) +
        through dirs.usedOf dirs.reservedOf right space) := by
  have disjoint : ∀ node ∈ left, node ∉ right := fun node member inside =>
    left_apart node member (mem_append_left _ inside)
  obtain ⟨taken, given, taking, giving, rest, _⟩ := moveSpace_cases below legal done
  obtain ⟨taken_same, taken_use⟩ :=
    diduse_joined (.refl dirs) joined_zero.symm source source_once right_apart taking
  rw [joined_comm disjoint] at taken_use
  obtain ⟨given_same, given_use⟩ :=
    diduse_joined taken_same taken_use target target_once left_apart giving
  rcases rest with ⟨covered, rfl⟩ | ⟨unused, returned, returning, reserving⟩
  · have space_used : space = (dirs.ddPhys dd).ddUsedBytes := by
      rw [space_eq]
      exact max_eq_left (Int.ofNat_le.mpr covered)
    rw [given_use, ← joined_comm disjoint, space_used, through_zero, through_zero]
    simp only [zero_add, sub_zero]
  · rw [← joined_comm disjoint] at given_use
    obtain ⟨returned_same, returned_use⟩ :=
      diduse_joined given_same given_use source source_once right_apart returning
    rw [joined_comm disjoint] at returned_use
    obtain ⟨_, final_use⟩ :=
      diduse_joined returned_same returned_use target target_once left_apart reserving
    have space_reserved : space = (dirs.ddPhys dd).ddUsedBytes +
        ((dirs.ddPhys dd).ddReserved - (dirs.ddPhys dd).ddUsedBytes : ℕ) := by
      simp only [space_eq, usedOf, reservedOf]
      omega
    have back : -space = -(dirs.ddPhys dd).ddUsedBytes +
        -((dirs.ddPhys dd).ddReserved - (dirs.ddPhys dd).ddUsedBytes : ℕ) := by omega
    rw [final_use, ← joined_comm disjoint, back, space_reserved, through_zero, through_zero]
    simp only [zero_add, sub_zero]
    congr 1
    ring

/-- The amounts after a move are within the quotas up from the new parent. -/
theorem joined_fits (once : (right ++ ancestor :: above).Nodup)
    (left_apart : ∀ node ∈ left, node ∉ right ++ ancestor :: above)
    (idle : dirs.Idle (right ++ ancestor :: above)) (gives_back : adelta ≤ 0)
    (within : dirs.InQuota dirs.usedOf (right ++ ancestor :: above) [])
    (fits : charge ≤ dirs.spaceAvailable ancestor adelta false (right ++ ancestor :: above)) :
    dirs.InQuota (joined dirs.usedOf dirs.reservedOf left right (ancestor :: above) (-charge) charge
      (adelta + through dirs.usedOf dirs.reservedOf right charge))
      (right ++ ancestor :: above) [] := by
  obtain ⟨right_once, high_once, apart⟩ := nodup_append'.mp once
  obtain ⟨outside, above_once⟩ := nodup_cons.mp high_once
  have idle_of : ∀ {part}, part ⊆ right ++ ancestor :: above → dirs.Idle part :=
    fun part_le dd member => idle dd (part_le member)
  rw [inQuota_append, append_nil] at within ⊢
  obtain ⟨right_fits, left_fits⟩ := charge_fits right_once
    (fun member => apart member mem_cons_self) (idle_of (by simp)) gives_back within.1 fits
  obtain ⟨own_fits, passed_fits⟩ := node_fits (idle_of (by simp)) gives_back
    (by simpa using within.2.1) left_fits
  rw [if_pos rfl] at own_fits passed_fits
  rw [← append_nil above] at passed_fits
  obtain ⟨above_fits, _⟩ := charge_fits above_once outside (idle_of (by intro dd; simp +contextual))
    gives_back within.2.2 passed_fits
  have use : ∀ dd ∈ ancestor :: above, joined dirs.usedOf dirs.reservedOf left right
      (ancestor :: above) (-charge) charge
      (adelta + through dirs.usedOf dirs.reservedOf right charge) dd =
      raised dirs.usedOf dirs.reservedOf (ancestor :: above)
        (through dirs.usedOf dirs.reservedOf right charge + adelta) dd := fun dd member => by
    rw [joined, if_neg fun inside => left_apart dd inside (mem_append_right _ member),
      if_neg fun inside => apart inside member, add_comm adelta]
  refine ⟨right_fits.congr fun dd member => ?_, ?_, above_fits.congr fun up inside => ?_⟩
  · rw [joined, if_neg fun inside => left_apart dd inside (mem_append_left _ member),
      if_pos member]
  · rw [use _ mem_cons_self, raised, update_self, append_nil]
    exact own_fits
  · rw [use _ (mem_cons_of_mem _ inside), raised,
      update_of_ne (ne_of_mem_of_not_mem inside outside)]

/-- The space available at the new parent keeps a move within the quotas. -/
theorem moveSpace_inQuota {space : ℕ} (settled : dirs.Settled tdd) (source : sdd ∈ dirs.dirs)
    (below : dd ∉ dirs.chain sdd) (target : tdd ∈ dirs.dirs) (legal : dd ∉ dirs.chain tdd)
    (space_eq : space = max (dirs.ddPhys dd).ddUsedBytes (dirs.ddPhys dd).ddReserved)
    (possible : dirs.dslDirTransferPossible sdd tdd space = some 0)
    (done : dirs.moveSpace dd sdd tdd = some dirs') :
    dirs.InQuota dirs'.usedOf (dirs.chain tdd) [] := by
  obtain ⟨source_path, _⟩ := dirs.path_chain source
  obtain ⟨target_path, target_within⟩ := dirs.path_chain target
  have idle : dirs.Idle (dirs.chain tdd) := fun up inside => by
    refine ⟨settled.sized up (target_within up inside), ?_⟩
    simp [dslDirSpaceTowrite, settled.idle up (target_within up inside)]
  have within := settled.inQuota target_path target_within (Subset.refl _)
  simp only [dslDirTransferPossible, bind_eq_bind, bind_eq_some_iff] at possible
  obtain ⟨ancestor, common, answer⟩ := possible
  obtain ⟨left, right, above, left_eq, right_eq, left_apart, right_apart⟩ :=
    source_path.meet target_path common
  have source_once := left_eq ▸ source_path.nodup
  have target_once := right_eq ▸ target_path.nodup
  rw [right_eq] at left_apart idle within ⊢
  rw [left_eq] at right_apart
  have not_left : ancestor ∉ left := fun inside =>
    left_apart ancestor inside (mem_append_right _ mem_cons_self)
  rw [left_eq, wouldChange_eq not_left, dslDirSpaceAvailable, right_eq] at answer
  have fits : (space : ℤ) ≤ dirs.spaceAvailable ancestor
      (through dirs.usedOf dirs.reservedOf left (-space)) false (right ++ ancestor :: above) := by
    by_contra short
    rw [if_pos (by exact_mod_cast not_le.mp short)] at answer
    exact nomatch answer
  have gives_back : through dirs.usedOf dirs.reservedOf left (-space) ≤ 0 :=
    through_nonpos (by omega)
  have space_max : (space : ℤ) = max (dirs.usedOf dd) (dirs.reservedOf dd) := by
    rw [space_eq, Nat.cast_max]
    rfl
  rw [moveSpace_used below legal left_eq right_eq source_once target_once left_apart right_apart
    space_max done]
  exact joined_fits target_once left_apart idle gives_back within fits

/-- A move in the tree keeps the contents and the ancestors of the new parent. -/
theorem reparent_frame {newparent : ℕ} (done : dirs.reparent dd newparent = some dirs') :
    dirs'.ddPhys = dirs.ddPhys ∧ dirs'.root = dirs.root ∧
    dirs'.adjustedSize = dirs.adjustedSize ∧ dirs'.chain newparent = dirs.chain newparent := by
  obtain ⟨target, legal⟩ := reparent_legal done
  have kept : Path (update dirs.ddParent dd (some newparent)) newparent
      (dirs.chain newparent) := (dirs.path_chain target).1.update_of_not_mem legal
  have chain_eq : ∀ moved : DslDirs, newparent ∈ moved.dirs →
      moved.ddParent = update dirs.ddParent dd (some newparent) →
      moved.chain newparent = dirs.chain newparent := by
    intro moved inside parent_eq
    exact (moved.path_chain inside).1.unique (parent_eq ▸ kept)
  rw [reparent, dif_pos ⟨target, legal⟩] at done
  cases done
  exact ⟨rfl, rfl, rfl, chain_eq _ target rfl⟩

end DslDirs

/-- If `dsl_dir_transfer_possible` returns 0, no ancestor is over its quota after the move. -/
theorem dsl_dir_transfer_quota {dirs dirs' : DslDirs} {dd sdd tdd : ℕ} (settled : dirs.Settled tdd)
    (member : dd ∈ dirs.dirs) (rises : dirs.ddParent dd = some sdd)
    (possible : dirs.dslDirTransferPossible sdd tdd
      (max (dirs.ddPhys dd).ddUsedBytes (dirs.ddPhys dd).ddReserved) = some 0)
    (moved : dirs.dslDirRenameSync dd tdd = some dirs') :
    (∀ up ∈ dirs'.chain tdd, (dirs'.ddPhys up).ddQuota ≠ 0 →
      (dirs'.ddPhys up).ddUsedBytes ≤ (dirs'.ddPhys up).ddQuota) ∧
    (dirs'.ddPhys dirs'.root).ddUsedBytes ≤ dirs'.adjustedSize := by
  obtain ⟨parent, charged, rises', source, below, target, legal, way, same, reparented⟩ :=
    DslDirs.renameSync_cases member moved
  obtain rfl := mem_unique rises rises'
  obtain ⟨phys_eq, root_eq, size_eq, chain_eq⟩ := DslDirs.reparent_frame reparented
  obtain ⟨path, within⟩ := dirs.path_chain target
  have in_quota : dirs.InQuota charged.usedOf (dirs.chain tdd) [] := by
    rcases way with ⟨_, moving⟩ | ⟨_, rfl⟩
    · exact DslDirs.moveSpace_inQuota settled source below target legal rfl possible moving
    · exact settled.inQuota path within (Subset.refl _)
  rw [phys_eq, root_eq, size_eq, chain_eq, same.chain_eq, same.root_eq, same.size_eq]
  refine ⟨fun up inside limited => ?_, Int.ofNat_le.mp (in_quota.le_size path within)⟩
  rw [(same.terms up).quota] at limited ⊢
  exact Int.ofNat_le.mp (in_quota.le_quota inside limited)

/-- The first child uses 10, the second one has a quota of 50. -/
def quotaPool : DslDirs := usedPool.setPhys 3 ⟨0, 0, 0, 50, 0, true, fun _ => 0⟩

/-- The first child moves below the second one. -/
def quotaMoved : DslDirs := (quotaPool.dslDirRenameSync 2 3).get rfl

theorem dsl_dir_transfer_quota_moved : quotaPool.dslDirTransferPossible 1 3 10 = some 0 ∧
    (quotaMoved.ddPhys 3).ddUsedBytes = 10 ∧
    (∀ up ∈ quotaMoved.chain 3, (quotaMoved.ddPhys up).ddQuota ≠ 0 →
      (quotaMoved.ddPhys up).ddUsedBytes ≤ (quotaMoved.ddPhys up).ddQuota) ∧
    (quotaMoved.ddPhys quotaMoved.root).ddUsedBytes ≤ quotaMoved.adjustedSize := by
  have settled : quotaPool.Settled 3 := ⟨by decide, fun _ _ _ => rfl, by decide, by decide⟩
  have moved : quotaPool.dslDirRenameSync 2 3 = some quotaMoved := (some_get rfl).symm
  have member : 2 ∈ quotaPool.dirs := by decide
  exact ⟨rfl, rfl, dsl_dir_transfer_quota settled member rfl rfl moved⟩

/-- A root that uses more than the adjusted size of the pool. -/
def overfullPool : DslDirs := twoChildren.setPhys 1 ⟨2000, 0, 0, 0, 0, false, fun _ => 0⟩

/-- An empty directory may move although the root uses more than the pool has. -/
theorem dsl_dir_transfer_overfull : ∃ moved,
    (∀ dd txg, overfullPool.ddSpaceTowrite dd txg = 0) ∧
    (∀ dd ∈ overfullPool.chain 2, (overfullPool.ddPhys dd).ddQuota ≠ 0 →
      (overfullPool.ddPhys dd).ddUsedBytes ≤ (overfullPool.ddPhys dd).ddQuota) ∧
    overfullPool.ddParent 3 = some 1 ∧ overfullPool.dslDirTransferPossible 1 2
      (max (overfullPool.ddPhys 3).ddUsedBytes (overfullPool.ddPhys 3).ddReserved) = some 0 ∧
    overfullPool.dslDirRenameSync 3 2 = some moved ∧
    moved.adjustedSize < (moved.ddPhys moved.root).ddUsedBytes :=
  ⟨(overfullPool.dslDirRenameSync 3 2).get rfl, fun _ _ => rfl, by decide, rfl, rfl,
    (some_get rfl).symm, by decide⟩

end Zfs
