import Zfs.Gang.RoundTrip

/-!
# Gang blocks that cannot be completed

A write that runs out of space in the middle of a gang block does not write the header and frees
nothing.  The block pointer names the region of the header; what the members were given is lost.
-/

namespace Zfs

namespace Gang

open KeyedWrites List Option

variable {α : Type} {spa : Spa} {slots : List BlkPtr} {freed : List Region} {region : Region}
  {disk : Disk α} {copy : BlkPtr → ℕ} {bp : BlkPtr}

/-- A region that a block pointer names, perhaps through headers. -/
inductive Reachable (spa : Spa) (disk : Disk α) : BlkPtr → Region → Prop
  | named {bp : BlkPtr} {region : Region} (mem : region ∈ metaslabFree spa bp) :
    Reachable spa disk bp region
  | member {bp gbp : BlkPtr} {dva : Dva} {slots : List BlkPtr} {region : Region}
    (gang : bp.isGang = true) (copy : dva ∈ bp.blkDva)
    (header : disk dva.address = some (.header bp.gangVerifier slots)) (mem : gbp ∈ slots)
    (used : gbp.isHole = false) (below : Reachable spa disk gbp region) :
    Reachable spa disk bp region

theorem exists_of_mem_zioFreeGangMembers {free : BlkPtr → Option (List Region)}
    (done : zioFreeGangMembers free slots = some freed) (mem : region ∈ freed) :
    ∃ gbp ∈ slots, gbp.isHole = false ∧ ∃ regions, free gbp = some regions ∧ region ∈ regions := by
  induction slots generalizing freed with
  | nil =>
    obtain rfl : [] = freed := some.inj done
    exact absurd mem not_mem_nil
  | cons gbp slots ih =>
    rw [zioFreeGangMembers] at done
    by_cases hole : gbp.isHole = true
    · rw [if_pos hole] at done
      obtain ⟨other, at_, used, found⟩ := ih done mem
      exact ⟨other, mem_cons_of_mem _ at_, used, found⟩
    · rw [if_neg hole] at done
      obtain ⟨regions, first, done⟩ := bind_eq_some_iff.mp done
      obtain ⟨rest, later, same⟩ := bind_eq_some_iff.mp done
      obtain rfl : regions ++ rest = freed := some.inj same
      rcases mem_append.mp mem with here | there
      · exact ⟨gbp, mem_cons_self, Bool.eq_false_iff.mpr hole, regions, first, here⟩
      · obtain ⟨other, at_, used, found⟩ := ih later there
        exact ⟨other, mem_cons_of_mem _ at_, used, found⟩

theorem exists_of_zioGetGangHeader (found : zioGetGangHeader disk copy bp = some slots) :
    ∃ dva ∈ bp.blkDva, disk dva.address = some (.header bp.gangVerifier slots) := by
  unfold zioGetGangHeader at found
  split at found
  · rename_i verifier slots' stored
    split_ifs at found with verified
    obtain rfl : slots' = slots := some.inj found
    obtain ⟨dva, at_copy, content⟩ := bind_eq_some_iff.mp stored
    exact ⟨dva, mem_of_getElem? at_copy, verified ▸ content⟩
  · cases found

theorem reachable_of_mem_zioFree {fuel : ℕ} (done : zioFree disk copy spa fuel bp = some freed)
    (mem : region ∈ freed) : Reachable spa disk bp region := by
  induction fuel generalizing bp freed with
  | zero => cases done
  | succ fuel ih =>
    rw [zioFree] at done
    by_cases gang : bp.isGang = true
    · rw [if_pos gang] at done
      obtain ⟨slots, header, done⟩ := bind_eq_some_iff.mp done
      obtain ⟨regions, members, same⟩ := bind_eq_some_iff.mp done
      obtain rfl : regions ++ metaslabFree spa bp = freed := some.inj same
      rcases mem_append.mp mem with below | own
      · obtain ⟨gbp, at_, used, regions, found, inside⟩ :=
          exists_of_mem_zioFreeGangMembers members below
        obtain ⟨dva, at_copy, stored⟩ := exists_of_zioGetGangHeader header
        exact .member gang at_copy stored at_ used (ih found inside)
      · exact .named own
    · rw [if_neg gang] at done
      obtain rfl : metaslabFree spa bp = freed := some.inj done
      exact .named mem

/-- No header on the disk is one of a region that the allocator gives. -/
def Fresh (spa : Spa) (txg : ℕ) (before : Disk α) : Prop :=
  ∀ call, ∀ address ∈ spa.addresses call, ∀ location slots,
    before location ≠ some (.header (some address, txg) slots)

theorem mem_addresses_of_mem_allocated {call : Call} (mem : region ∈ spa.allocated call) :
    region.address ∈ spa.addresses call := by
  obtain ⟨address, given, rfl⟩ := mem_map.mp mem
  exact given

theorem not_mem_addresses {call other : Call} {address : Address}
    (differ : (call.zio, call.number) ≠ (other.zio, other.number))
    (mine : address ∈ spa.addresses call) : address ∉ spa.addresses other := by
  unfold Spa.addresses at *
  cases given : spa.metaslabAlloc call with
  | none => simp [given] at mine
  | some addresses =>
    cases taken : spa.metaslabAlloc other with
    | none => simp
    | some others =>
      rw [given] at mine
      exact fun theirs => spa.disjoint_alloc given taken differ mine theirs

namespace Unlinked

variable {props : ZioProps spa} {header : Call} {done : Zio α}
  (unlinked : Unlinked props header done)

include unlinked

theorem metaslabFree_eq : metaslabFree spa done.ioBp = spa.allocated header := by
  cases given : spa.metaslabAlloc header with
  | none =>
    have isGangBp := unlinked.isGangBp
    rw [Spa.addresses, given] at isGangBp
    rw [Spa.allocated, given, metaslabFree, eq_nil_of_map_eq_nil isGangBp.addresses]
    rfl
  | some addresses =>
    refine IsGangBp.metaslabFree_eq ?_ given unlinked.psize
    have isGangBp := unlinked.isGangBp
    rwa [Spa.addresses, given] at isGangBp

/-- Through the header that is not written, nothing is reached. -/
theorem reachable_iff {scope : List ℕ × ℕ → Prop} (books : Books spa scope done.calls done.writes)
    {before : Disk α} (fresh : Fresh spa props.ioTxg before) {order : List (Address × Content α)}
    (perm : order.Perm done.writes) :
    Reachable spa (perform before order) done.ioBp region ↔ region ∈ spa.allocated header := by
  rw [← unlinked.metaslabFree_eq]
  constructor
  · intro reachable
    cases reachable with
    | named mem => exact mem
    | member gang copy stored mem used below =>
      exfalso
      rename_i gbp dva slots
      have copies : 0 < (spa.addresses header).length :=
        length_pos_of_mem (unlinked.isGangBp.mem_addresses copy)
      obtain ⟨first, of_header, verifier⟩ := unlinked.isGangBp.exists_gangVerifier copies
      have verifier_eq : done.ioBp.gangVerifier = (some first, props.ioTxg) :=
        Prod.ext verifier (unlinked.birth (ne_nil_of_length_pos copies))
      rcases perform_cases dva.address with same | ⟨value, written, new⟩
      · rw [same, verifier_eq] at stored
        exact fresh header first of_header dva.address slots stored
      · obtain rfl : value = .header done.ioBp.gangVerifier slots :=
          mem_unique new stored
        obtain ⟨refused, more, -, calls, headers⟩ := unlinked.calls
        obtain ⟨other, of_more, same⟩ := headers _ _ _ (perm.mem_iff.mp written)
        obtain rfl : first = other := mem_unique verifier same
        obtain ⟨call, later, given⟩ := mem_flatMap.mp of_more
        have distinct := books.distinct
        rw [calls, callIds, map_append, map_cons] at distinct
        have apart := (nodup_cons.mp (nodup_append.mp distinct).2.1).1
        refine not_mem_addresses (fun same => apart ?_) of_header given
        rw [same]
        exact mem_map_of_mem later
  · exact .named

end Unlinked

/-- Of some requests, every one for a single sector is granted, or none but that for the header of
the block itself is given a region. -/
def Lossless (spa : Spa) (asked : Call → Prop) : Prop :=
  (∀ call, asked call → spa.SectorGranted call) ∨
    ∀ call, asked call → (call.zio, call.number) ≠ ([], 1) → spa.allocated call = []

theorem Lossless.mono {asked fewer : Call → Prop} (lossless : Lossless spa asked)
    (among : ∀ call, fewer call → asked call) : Lossless spa fewer :=
  lossless.imp (fun granted call mem => granted call (among call mem))
    fun refused call mem => refused call (among call mem)

/-- What one attempt of a write has been given can be reached if the answers are lossless; of the
answers to the requests that it makes, none can be missed. -/
theorem gang_block_reachable_iff (props : ZioProps spa) {ioData : List α}
    (unit : spaMinblocksize ∣ ioData.length) (lower : 1024 ≤ ioData.length)
    (upper : ioData.length ≤ 131072) {fuel : ℕ}
    (enough : ioData.length ≤ fuel) {before : Disk α} (fresh : Fresh spa props.ioTxg before) :
    ∃ done, props.zioDvaAllocate fuel [] ioData = .ok done ∧
    ∀ order, order.Perm done.writes →
      (Lossless spa (fun _ => True) → ∀ region ∈ done.calls.flatMap spa.allocated,
        Reachable spa (perform before order) done.ioBp region) ∧
      ((∀ region ∈ done.calls.flatMap spa.allocated,
        Reachable spa (perform before order) done.ioBp region) ↔
          Lossless spa (· ∈ done.calls)) := by
  obtain ⟨done, run, spec⟩ : ∃ done, props.zioDvaAllocate fuel [] ioData = .ok done ∧
      ZioSpec props fuel [] ioData done :=
    props.exists_zioDvaAllocate enough (by omega) unit (by omega)
  refine ⟨done, run, fun order perm => ?_⟩
  suffices reached : (∀ region ∈ done.calls.flatMap spa.allocated,
      Reachable spa (perform before order) done.ioBp region) ↔ Lossless spa (· ∈ done.calls) from
    ⟨fun lossless => reached.mpr (lossless.mono fun _ _ => trivial), reached⟩
  by_cases fine : done.ioError = 0
  · refine iff_of_true (fun region mem => ?_) (.inl (spec.sectors.mpr fine))
    obtain ⟨freed, free, freed_perm⟩ := (spec.stored fine (perform before order) (fun _ => 0)
      (fun bp copies => copies) (holds_perform_of_perm perm spec.books.nodup_writes)).free
    exact reachable_of_mem_zioFree free (freed_perm.mem_iff.mpr mem)
  · have large : spaMinblocksize < ioData.length := by
      have : spaMinblocksize = 512 := rfl
      omega
    obtain ⟨header, of_zio, unlinked⟩ := spec.unlinked fine large
    have id : (header.zio, header.number) = ([], 1) := Prod.ext of_zio unlinked.number
    rw [Lossless, spec.sectors, or_iff_right fine]
    simp only [unlinked.reachable_iff spec.books fresh perm]
    constructor
    · intro reached call mem differ
      rw [eq_nil_iff_forall_not_mem]
      intro region given
      have of_header := reached region (mem_flatMap.mpr ⟨call, mem, given⟩)
      exact not_mem_addresses (fun same => differ (same.trans id))
        (mem_addresses_of_mem_allocated given) (mem_addresses_of_mem_allocated of_header)
    · intro others region mem
      obtain ⟨call, made, given⟩ := mem_flatMap.mp mem
      by_cases is_header : (call.zio, call.number) = ([], 1)
      · have made_header : header ∈ done.calls := by
          obtain ⟨_, _, -, calls, -⟩ := unlinked.calls
          simp [calls]
        obtain rfl : call = header :=
          inj_on_of_nodup_map spec.books.distinct made made_header (is_header.trans id.symm)
        exact given
      · rw [others call made is_header] at given
        exact absurd given not_mem_nil

theorem fresh_empty (txg : ℕ) : Fresh spa txg (fun _ => none : Disk α) :=
  fun _ _ _ _ _ => (some_ne_none _).symm

/-- Two sectors of data in two members: all three regions can be reached. -/
theorem gang_block_reachable_two_members :
    ∃ done, (singleCopy fun _ => true).zioDvaAllocate 1024 [] twoSectors = .ok done ∧
    done.calls.length = 4 ∧ ∀ region ∈ done.calls.flatMap (sectors fun _ => true).allocated,
      Reachable (sectors fun _ => true) (perform (fun _ => none) done.writes) done.ioBp
        region := by
  have length : twoSectors.length = 1024 := length_replicate
  have unit : spaMinblocksize ∣ twoSectors.length := ⟨2, length⟩
  obtain ⟨done, run, reachable⟩ := gang_block_reachable_iff (singleCopy fun _ => true) unit
    length.ge (length.le.trans (by decide)) length.le (fresh_empty _)
  have computed : ((singleCopy fun _ => true).zioDvaAllocate 1024 [] twoSectors).map (·.calls) =
      .ok [⟨[], 0, 1024, 1⟩, ⟨[], 1, 512, 2⟩, ⟨[], 2, 512, 1⟩, ⟨[], 3, 512, 1⟩] := by
    decide +kernel
  rw [run] at computed
  have calls : done.calls = _ := Except.ok.inj computed
  refine ⟨done, run, congrArg List.length calls,
    (reachable done.writes (Perm.refl _)).2.mpr (.inl ?_)⟩
  rw [calls]
  unfold Spa.SectorGranted
  decide

/-- The second member gets no sector: the region of the first is lost. -/
theorem gang_block_leak :
    ∃ done, (singleCopy (· < 3)).zioDvaAllocate 1024 [] twoSectors = .ok done ∧
    done.ioError = enospc ∧ ∃ region ∈ done.calls.flatMap (sectors (· < 3)).allocated,
      ¬ Reachable (sectors (· < 3)) (perform (fun _ => none) done.writes) done.ioBp region := by
  have length : twoSectors.length = 1024 := length_replicate
  have unit : spaMinblocksize ∣ twoSectors.length := ⟨2, length⟩
  obtain ⟨done, run, spec⟩ : ∃ done, (singleCopy (· < 3)).zioDvaAllocate 1024 [] twoSectors =
      .ok done ∧ ZioSpec (singleCopy (· < 3)) 1024 [] twoSectors done :=
    (singleCopy (· < 3)).exists_zioDvaAllocate length.le (by omega) unit (by omega)
  have computed : ((singleCopy (· < 3)).zioDvaAllocate 1024 [] twoSectors).map
      (fun done => (done.ioError, done.calls)) = .ok (enospc,
        [⟨[], 0, 1024, 1⟩, ⟨[], 1, 512, 2⟩, ⟨[], 2, 512, 1⟩, ⟨[], 3, 512, 1⟩]) := by
    decide +kernel
  rw [run] at computed
  have failed : done.ioError = enospc := congrArg Prod.fst (Except.ok.inj computed)
  have calls : done.calls = _ := congrArg Prod.snd (Except.ok.inj computed)
  obtain ⟨header, of_zio, unlinked⟩ := spec.unlinked (failed ▸ enospc_ne_zero)
    (length.symm ▸ by decide)
  refine ⟨done, run, failed, ⟨(0, 2), 512⟩, ?_, ?_⟩
  · rw [calls]
    decide
  · rw [unlinked.reachable_iff spec.books (fresh_empty _) (Perm.refl _)]
    intro of_header
    have of_member : ((0, 2) : Address) ∈ (sectors (· < 3)).addresses ⟨[], 2, 512, 1⟩ := by decide
    refine not_mem_addresses ?_ of_member (mem_addresses_of_mem_allocated of_header)
    rw [of_zio, unlinked.number]
    decide

end Gang

end Zfs
