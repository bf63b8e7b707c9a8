import Zfs.Acl.Code
import Zfs.Library.FirstMatch

/-!
# The evaluation of an access control list

The loop of `zfs_zaccess_common` lets the first entry with a bit decide it.  It counts every entry
that is not a denial as a grant and skips inherit-only entries in directories alone, so it follows
the rule for access entries where no other entry comes first.
-/

namespace Zfs

namespace Acl

open FirstMatch

variable {version : AclVersion}

namespace Ace

variable (vType : Vtype) (cr : Cred) (ace : Ace version) (bit : ℕ)

/-- The mask of the entry has the bit. -/
def mentions : Bool := ace.hdr.zAccessMask.getLsbD bit

/-- The entry applies to the credential. -/
def applies : Bool := cr.checkit ace.hdr.entryType ace.aceWhoGet == some true

/-- The entry is for inheritance only. -/
def inheritOnly : Bool := ace.hdr.zFlags &&& aceInheritOnlyAce != 0#16

/-- The entry is an access-allowed or access-denied one. -/
def isAccess : Bool := ace.hdr.zType == allow || ace.hdr.zType == deny

/-- The loop counts the entry. -/
def counts : Bool := !(vType == .vdir && ace.inheritOnly) && ace.applies cr

/-- The rule lets the entry decide the bit. -/
def decides : Bool :=
  ace.mentions bit && ace.isAccess && !ace.inheritOnly && ace.applies cr

theorem counts_of_decides {vType : Vtype} {cr : Cred} {ace : Ace version} {bit : ℕ}
    (decides : ace.decides cr bit = true) : (ace.counts vType cr && ace.mentions bit) = true := by
  simp only [Ace.decides, Bool.and_eq_true] at decides
  simp only [counts, decides, Bool.and_true]
  have kept := decides.1.2
  simp only [Bool.not_eq_true'] at kept
  simp [kept]

end Ace

variable (vType : Vtype) (cr : Cred) (aces : List (Ace version))

/-- The entry that decides a bit in the loop. -/
def firstCounted (bit : ℕ) :
    Option (Ace version) :=
  aces.find? fun ace => ace.counts vType cr && ace.mentions bit

/-- The entry that decides a bit by the rule. -/
def firstAccess (bit : ℕ) : Option (Ace version) := aces.find? (·.decides cr bit)

/-- The rule grants a bit. -/
def Granted (bit : ℕ) : Prop :=
  ∃ ace, firstAccess cr aces bit = some ace ∧ ace.hdr.zType = allow

/-- The loop passes a bit: some entry counts for it, and the first is no denial. -/
def Passed (bit : ℕ) : Prop :=
  ∃ ace, firstCounted vType cr aces bit = some ace ∧ ace.hdr.zType ≠ deny

/-- No entry before the one that decides by the rule counts for the bit. -/
def AccessFirst (bit : ℕ) : Prop :=
  ∀ ace ∈ aces.takeWhile fun ace => !ace.decides cr bit,
    (ace.counts vType cr && ace.mentions bit) = false

theorem exists_checkit {objType : Vtype} {zHints : BitVec 64} {ace : Ace version}
    (valid : (zfsAceValid objType version zHints ace.hdr.zType ace.hdr.zFlags).2 = true) :
    ∃ checkit, cr.checkit ace.hdr.entryType ace.aceWhoGet = some checkit := by
  have kind : ace.hdr.entryType = aceOwner ∨ ace.hdr.entryType = owningGroup ∨
      ace.hdr.entryType = aceIdentifierGroup ∨ ace.hdr.entryType = aceEveryone ∨
      ace.hdr.entryType = 0 := by
    by_contra none
    have refused : (zfsAceValid objType version zHints ace.hdr.zType ace.hdr.zFlags).2 = false := by
      unfold AceUnit.entryType at none
      rw [zfsAceValid, if_pos none]
    rw [refused] at valid
    exact Bool.false_ne_true valid
  unfold Cred.checkit
  split_ifs with owner group identifier everyone user
  · exact ⟨_, rfl⟩
  · exact ⟨_, rfl⟩
  · exact ⟨_, rfl⟩
  · exact ⟨_, rfl⟩
  · exact ⟨_, rfl⟩
  · rcases kind with is | is | is | is | is <;> contradiction

/-- The masks and types that the loop counts. -/
def countedEntries :
    List (BitVec 32 × BitVec 16) :=
  (aces.filter (·.counts vType cr)).map fun ace => (ace.hdr.zAccessMask, ace.hdr.zType)

theorem verdict_countedEntries (bit : ℕ) :
    verdict (countedEntries vType cr aces) bit =
      (firstCounted vType cr aces bit).map (·.hdr.zType) := by
  have both (ace : Ace version) : decide (ace.counts vType cr = true ∧
      ((fun entry => entry.1.getLsbD bit) ∘ fun ace : Ace version =>
        (ace.hdr.zAccessMask, ace.hdr.zType)) ace = true) =
      (ace.counts vType cr && ace.mentions bit) := Bool.decide_and _ _ |>.trans (by simp; rfl)
  rw [verdict, countedEntries, List.find?_map, List.find?_filter, Option.map_map]
  simp only [both]
  rfl

/-- The bits that the loop has open, and the denied ones. -/
def sweepOf (workingMode denyMask : BitVec 32) : Sweep 32 :=
  (countedEntries vType cr aces).foldl (Sweep.step (· == deny)) ⟨workingMode, denyMask⟩

section Loop

variable {vType : Vtype} {cr : Cred} {ace : Ace version} {aces : List (Ace version)}
variable {workingMode denyMask : BitVec 32}

theorem sweepOf_cons_of_counts (counts : ace.counts vType cr = true) :
    sweepOf vType cr (ace :: aces) workingMode denyMask =
      sweepOf vType cr aces (workingMode &&& ~~~(ace.hdr.zAccessMask &&& workingMode))
        (if ace.hdr.zType = deny then denyMask ||| (ace.hdr.zAccessMask &&& workingMode)
          else denyMask) := by
  simp [sweepOf, countedEntries, counts, Sweep.step]

theorem sweepOf_cons_of_not_counts (passed : ace.counts vType cr = false) :
    sweepOf vType cr (ace :: aces) workingMode denyMask =
      sweepOf vType cr aces workingMode denyMask := by
  simp [sweepOf, countedEntries, passed]

theorem sweepOf_of_closed : sweepOf vType cr aces 0#32 denyMask = ⟨0#32, denyMask⟩ :=
  Sweep.foldl_of_closed _ rfl

theorem zaccessLoop_eq (kinds : ∀ ace ∈ aces, ∃ checkit,
      cr.checkit ace.hdr.entryType ace.aceWhoGet = some checkit) :
    ∀ workingMode denyMask, workingMode ≠ 0#32 → zaccessLoop vType cr aces workingMode denyMask =
      .ok ((sweepOf vType cr aces workingMode denyMask).open_,
        (sweepOf vType cr aces workingMode denyMask).marked) := by
  induction aces with
  | nil =>
    intro workingMode denyMask opened
    rfl
  | cons ace aces ih =>
    intro workingMode denyMask opened
    have rest := ih fun ace mem => kinds ace (List.mem_cons_of_mem _ mem)
    by_cases looked : vType = .vdir ∧ ace.hdr.zFlags &&& aceInheritOnlyAce ≠ 0#16
    · have passed : ace.counts vType cr = false := by
        simpa [Ace.counts, Ace.inheritOnly, looked.1] using fun none => absurd none looked.2
      rw [zaccessLoop, if_pos looked, sweepOf_cons_of_not_counts passed, rest _ _ opened]
    · obtain ⟨checkit, kind⟩ := kinds ace List.mem_cons_self
      have counts : ace.counts vType cr = checkit := by
        have looked' : (vType == .vdir && ace.inheritOnly) = false := by
          simpa [Ace.inheritOnly] using looked
        simp [Ace.counts, looked', Ace.applies, kind]
      rw [zaccessLoop, if_neg looked, kind]
      cases checkit with
      | false =>
        rw [sweepOf_cons_of_not_counts counts]
        simpa [opened] using rest workingMode denyMask opened
      | true =>
        rw [sweepOf_cons_of_counts counts]
        by_cases matched : ace.hdr.zAccessMask &&& workingMode = 0#32
        · have same : workingMode &&& ~~~0#32 = workingMode := BitVec.and_allOnes
          rw [matched, same]
          simpa [opened] using rest workingMode denyMask opened
        · by_cases done : workingMode &&& ~~~(ace.hdr.zAccessMask &&& workingMode) = 0#32
          · simp [matched, done, sweepOf_of_closed]
          · simpa [matched, done] using rest _ _ done

/-- No bit is left and none is denied exactly when all are passed. -/
theorem sweepOf_clear_iff (request : BitVec 32) :
    (sweepOf vType cr aces request 0#32).marked = 0#32 ∧
    (sweepOf vType cr aces request 0#32).open_ = 0#32 ↔
    ∀ bit, request.getLsbD bit = true → Passed vType cr aces bit := by
  have passed_iff (bit : ℕ) : Passed vType cr aces bit ↔
      ∃ type, verdict (countedEntries vType cr aces) bit = some type ∧ (type == deny) = false := by
    rw [verdict_countedEntries, Passed]
    cases firstCounted vType cr aces bit <;> simp
  rw [sweepOf, Sweep.foldl_clear_iff]
  simp only [← passed_iff]

theorem firstCounted_eq_firstAccess {bit : ℕ} (first : AccessFirst vType cr aces bit) :
    firstCounted vType cr aces bit = firstAccess cr aces bit := by
  unfold AccessFirst at first
  unfold firstCounted firstAccess
  induction aces with
  | nil => rfl
  | cons ace aces ih =>
    by_cases decides : ace.decides cr bit = true
    · simp only [List.find?_cons, Ace.counts_of_decides decides, decides]
    · rw [List.takeWhile_cons_of_pos (by simpa using decides)] at first
      obtain ⟨passed, rest⟩ := List.forall_mem_cons.mp first
      simp only [List.find?_cons, passed, Bool.eq_false_iff.mpr decides]
      exact ih rest

/-- Where no other entry comes first, the loop passes what the rule grants. -/
theorem passed_iff_granted {bit : ℕ} (first : AccessFirst vType cr aces bit) :
    Passed vType cr aces bit ↔ Granted cr aces bit := by
  rw [Passed, Granted, firstCounted_eq_firstAccess first]
  refine exists_congr fun ace => and_congr_right fun found => ?_
  have kind : ace.hdr.zType = allow ∨ ace.hdr.zType = deny := by
    have decides := List.find?_some found
    simp only [Ace.decides, Bool.and_eq_true] at decides
    simpa [Ace.isAccess] using decides.1.1.2
  rcases kind with is | is <;> simp [is, allow, deny]

end Loop

/-- A file without restricting attributes on a writable file system. -/
structure Unrestricted (zp : Znode) : Prop where
  /-- None of the attributes that `zfs_zaccess_common` looks at is set. -/
  flags : zp.zpFlags &&& (zfsReadonly ||| zfsImmutable ||| zfsNounlink ||| zfsAvQuarantined) = 0
  writable : zp.vfsRdonly = false

theorem Unrestricted.and_eq_zero {zp : Znode} (unrestricted : Unrestricted zp) {mask : BitVec 64}
    (within : mask &&& (zfsReadonly ||| zfsImmutable ||| zfsNounlink ||| zfsAvQuarantined) = mask) :
    zp.zpFlags &&& mask = 0#64 := by
  rw [← within, BitVec.and_comm mask, ← BitVec.and_assoc, unrestricted.flags]
  simp

section Answer

variable {zp : Znode} {aces : List (Ace zp.version)} {v4Mode workingMode : BitVec 32}
variable {checkPrivs skipaclchk : Bool} {cr : Cred} {zHints : BitVec 64}

/-- A writable file passes the checks before the list. -/
theorem zfsZaccessCommon_eq (unrestricted : Unrestricted zp) (request : v4Mode ≠ 0#32) :
    zfsZaccessCommon zp v4Mode workingMode checkPrivs skipaclchk cr =
      if txgSize ≤ zp.zAssign ∨ skipaclchk = true then ⟨0, 0#32, true⟩
      else zaccessAcl zp v4Mode cr := by
  have readonly : zp.zpFlags &&& (zfsReadonly ||| zfsImmutable) = 0#64 :=
    unrestricted.and_eq_zero (by decide)
  have immutable : zp.zpFlags &&& zfsImmutable = 0#64 := unrestricted.and_eq_zero (by decide)
  have nounlink : zp.zpFlags &&& zfsNounlink = 0#64 := unrestricted.and_eq_zero (by decide)
  have quarantined : zp.zpFlags &&& zfsAvQuarantined = 0#64 := unrestricted.and_eq_zero (by decide)
  rw [zfsZaccessCommon, if_neg request]
  by_cases replay : txgSize ≤ zp.zAssign
  · rw [if_pos replay, if_pos (.inl replay)]
  · rw [if_neg replay, if_neg (by simp [unrestricted.writable]),
      if_neg (by simp [readonly, immutable]), if_neg (by simp [nounlink]),
      if_neg (by simp [quarantined])]
    simp [replay]

/-- The list grants a request when it passes every bit of it. -/
theorem zaccessAcl_error_eq_zero_iff (read : zp.zfsAclNodeRead = .ok aces)
    (valid : ∀ ace ∈ aces,
      (zfsAceValid zp.vType zp.version zHints ace.hdr.zType ace.hdr.zFlags).2 = true)
    (request : v4Mode ≠ 0#32) : (zaccessAcl zp v4Mode cr).error = 0 ↔
      ∀ bit, v4Mode.getLsbD bit = true → Passed zp.vType cr aces bit := by
  have loop : zaccessLoop zp.vType cr aces v4Mode 0#32 = _ :=
    zaccessLoop_eq (fun ace mem => exists_checkit cr (valid ace mem)) v4Mode 0#32 request
  rw [← sweepOf_clear_iff, zaccessAcl, read]
  simp only [loop]
  by_cases denied : (sweepOf zp.vType cr aces v4Mode 0#32).marked = 0#32
  · by_cases left : (sweepOf zp.vType cr aces v4Mode 0#32).open_ = 0#32
    · simp [denied, left]
    · simp [denied, left]
  · simp [denied, eacces]

section Evaluated

variable (unrestricted : Unrestricted zp) (read : zp.zfsAclNodeRead = .ok aces)
  (valid : ∀ ace ∈ aces,
    (zfsAceValid zp.vType zp.version zHints ace.hdr.zType ace.hdr.zFlags).2 = true)
  (request : v4Mode ≠ 0#32) (early : zp.zAssign < txgSize)

include unrestricted read valid request early

theorem error_eq_zero_iff :
    (zfsZaccessCommon zp v4Mode workingMode checkPrivs false cr).error = 0 ↔
      ∀ bit, v4Mode.getLsbD bit = true → Passed zp.vType cr aces bit := by
  rw [zfsZaccessCommon_eq unrestricted request, if_neg (by simp [early]),
    zaccessAcl_error_eq_zero_iff read valid request]

/-- The answer follows the rule where for each bit of the request no other entry that counts comes
before the deciding one. -/
theorem zfs_zaccess_common_of_accessFirst
    (first : ∀ bit, v4Mode.getLsbD bit = true → AccessFirst zp.vType cr aces bit) :
    (zfsZaccessCommon zp v4Mode workingMode checkPrivs false cr).error = 0 ↔
      ∀ bit, v4Mode.getLsbD bit = true → Granted cr aces bit := by
  rw [error_eq_zero_iff unrestricted read valid request early]
  exact forall₂_congr fun bit requested => passed_iff_granted (first bit requested)

/-- What any list does: each bit of the request must have an entry that counts, and the first of
them must be no denial. -/
theorem zfs_zaccess_common_counted :
    (zfsZaccessCommon zp v4Mode workingMode checkPrivs false cr).error = 0 ↔
      ∀ bit, v4Mode.getLsbD bit = true →
        ∃ ace, firstCounted zp.vType cr aces bit = some ace ∧ ace.hdr.zType ≠ deny :=
  error_eq_zero_iff unrestricted read valid request early

end Evaluated

end Answer

theorem oldace_sized (hdr : AceUnit) :
    (([] : List AceUnit).length + 1) * AclVersion.initial.aceAbstractSize =
      AclVersion.initial.aceSize hdr := rfl

/-- An entry for everyone about reading, in the initial format. -/
def everyoneReads (type : BitVec 16) : Ace .initial where
  hdr := ⟨0, aceReadData, aceEveryone, type⟩
  rest := []
  sized := oldace_sized _

/-- A plain file with entries for everyone. -/
def everyoneFile (types : List (BitVec 16)) : Znode where
  vType := .vreg
  zpFlags := 0
  zAssign := 0
  vfsRdonly := false
  version := .initial
  zfsAclNodeRead := .ok (types.map everyoneReads)

/-- Somebody who neither owns the file nor is in a group. -/
def stranger : Cred where
  uid := 1
  fowner := 0
  gowner := 0
  zfsGroupmember := fun _ => false
  zfsFuidMapId := BitVec.setWidth 32

theorem everyoneFile_unrestricted (types : List (BitVec 16)) :
    Unrestricted (everyoneFile types) :=
  ⟨by simp [everyoneFile], rfl⟩

theorem everyoneReads_valid (types : List (BitVec 16))
    (valid : types.all fun type => (zfsAceValid .vreg .initial 0 type aceEveryone).2) :
    ∀ ace ∈ types.map everyoneReads,
      (zfsAceValid .vreg .initial 0 ace.hdr.zType ace.hdr.zFlags).2 = true :=
  List.forall_mem_map.mpr (List.all_eq_true.mp valid)

theorem eq_zero_of_aceReadData {bit : ℕ} (requested : aceReadData.getLsbD bit = true) :
    bit = 0 := by
  have inside : bit < 32 := BitVec.lt_of_getLsbD requested
  interval_cases bit <;> first | rfl | exact absurd requested (by decide)

/-- An entry that allows reading grants it, whatever is audited behind it. -/
theorem zfs_zaccess_common_allowed :
    (zfsZaccessCommon (everyoneFile [allow, aceSystemAuditAceType]) aceReadData 0 false false
      stranger).error = 0 ↔ ∀ bit, aceReadData.getLsbD bit = true →
        Granted stranger ([allow, aceSystemAuditAceType].map everyoneReads) bit := by
  refine zfs_zaccess_common_of_accessFirst (everyoneFile_unrestricted _) rfl
    (everyoneReads_valid [allow, aceSystemAuditAceType] (by decide)) (by decide)
    (by decide) fun bit requested => ?_
  obtain rfl := eq_zero_of_aceReadData requested
  have none_before : ([allow, aceSystemAuditAceType].map everyoneReads).takeWhile
      (fun ace => !ace.decides stranger 0) = [] := rfl
  exact fun ace before => absurd before (none_before ▸ List.not_mem_nil)

/-- An entry that has reading audited comes before a denial of it. -/
theorem zfs_zaccess_common_audit_first :
    (zfsZaccessCommon (everyoneFile [aceSystemAuditAceType, deny]) aceReadData 0 false false
      stranger).error = 0 := by
  refine (zfs_zaccess_common_counted (everyoneFile_unrestricted _) rfl
    (everyoneReads_valid [aceSystemAuditAceType, deny] (by decide)) (by decide) (by decide)).mpr
      fun bit requested => ?_
  obtain rfl := eq_zero_of_aceReadData requested
  exact ⟨_, rfl, by decide⟩

/-- An entry that has reading audited grants it too. -/
theorem zfs_zaccess_common_audited :
    Unrestricted (everyoneFile [aceSystemAuditAceType]) ∧
    (∀ ace ∈ [everyoneReads aceSystemAuditAceType],
      (zfsAceValid .vreg .initial 0 ace.hdr.zType ace.hdr.zFlags).2 = true) ∧
    (zfsZaccessCommon (everyoneFile [aceSystemAuditAceType]) aceReadData 0 false false
      stranger).error = 0 ∧
    ¬ ((zfsZaccessCommon (everyoneFile [aceSystemAuditAceType]) aceReadData 0 false false
        stranger).error = 0 ↔
      ∀ bit, aceReadData.getLsbD bit = true →
        Granted stranger [everyoneReads aceSystemAuditAceType] bit) := by
  have granted : (zfsZaccessCommon (everyoneFile [aceSystemAuditAceType]) aceReadData 0 false false
      stranger).error = 0 := by decide
  refine ⟨everyoneFile_unrestricted _, everyoneReads_valid [_] (by decide), granted, ?_⟩
  intro rule
  obtain ⟨ace, first, -⟩ := rule.mp granted 0 (by decide)
  have none : firstAccess stranger [everyoneReads aceSystemAuditAceType] 0 = none := rfl
  rw [none] at first
  cases first

end Acl

end Zfs
