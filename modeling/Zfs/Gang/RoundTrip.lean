import Zfs.Gang.Write

/-!
# Gang blocks are read and freed as they were written

Whatever `metaslab_alloc` answers, the write of a block ends; when it reports no error, reading
returns the data, and freeing gives back each allocated region once.
-/

namespace Zfs

namespace Gang

open KeyedWrites Function List Nat

variable {α : Type} {spa : Spa} {bytes : List α} {slot gbpsLeft ndvas : ℕ}
  {writes : List (Address × Content α)} {rest : Members α}

/-- A copy of every block pointer with one. -/
def IsCopy (copy : BlkPtr → ℕ) : Prop :=
  ∀ bp : BlkPtr, 0 < bp.blkDva.length → copy bp < bp.blkDva.length

theorem isGang_dvas (psize size birth : ℕ) (addresses : List Address) :
    (⟨spa.dvas psize addresses, size, birth⟩ : BlkPtr).isGang = false := by
  cases addresses <;> rfl

theorem map_address_allocated (calls : List Call) :
    (calls.flatMap spa.allocated).map (·.address) = calls.flatMap spa.addresses := by
  rw [map_flatMap]
  simp only [Spa.allocated, map_map, comp_def, map_id']
  rfl

theorem flatMap_allocated_of_refused {calls : List Call}
    (refused : ∀ call ∈ calls, spa.metaslabAlloc call = none) :
    calls.flatMap spa.allocated = [] := by
  rw [flatMap_eq_nil_iff]
  intro call mem
  rw [Spa.allocated, refused call mem]
  rfl

variable {disk : Disk α} {copy : BlkPtr → ℕ} {call : Call}

/-- Data in regions of its own is stored. -/
theorem Stored.block (isCopy : IsCopy copy) (fuel : ℕ) {addresses : List Address} {birth : ℕ}
    (born : 0 < birth) (given : spa.metaslabAlloc call = some addresses) (copies : 0 < call.ndvas)
    (psize : call.psize = bytes.length) (unit : spaMinblocksize ∣ bytes.length)
    (nonempty : 0 < bytes.length)
    (holds : ∀ address ∈ addresses, disk address = some (.data bytes)) :
    Stored spa disk copy (fuel + 1) ⟨spa.dvas bytes.length addresses, bytes.length, birth⟩ bytes
      (spa.allocated call) where
  psize := rfl
  birth := beq_eq_false_iff_ne.mpr born.ne'
  tiled := .block (isGang_dvas _ _ _ _) unit nonempty
  read := by
    have length : addresses.length = call.ndvas := spa.length_alloc given
    have valid := isCopy ⟨spa.dvas bytes.length addresses, bytes.length, birth⟩
      (by simp [Spa.dvas]; omega)
    rw [zioRead, isGang_dvas, if_neg Bool.false_ne_true]
    simp only [Spa.dvas, length_map] at valid ⊢
    rw [getElem?_map, getElem?_eq_getElem valid]
    simp [holds _ (getElem_mem valid)]
  free := by
    refine ⟨_, by rw [zioFree, isGang_dvas, if_neg Bool.false_ne_true], ?_⟩
    simp [metaslabFree, Spa.dvas, Spa.allocated, given, psize, comp_def]

theorem addAsize_fields (pdvas cdvas : List Dva) :
    (BlkPtr.addAsize pdvas cdvas).map (fun dva => (dva.address, dva.gang)) =
      pdvas.map fun dva => (dva.address, dva.gang) := by
  induction pdvas generalizing cdvas with
  | nil => cases cdvas <;> rfl
  | cons pdva pdvas ih =>
    cases cdvas with
    | nil => rfl
    | cons cdva cdvas => exact congrArg (_ :: ·) (ih cdvas)

theorem foldl_addAsize_fields (pdvas : List Dva) (children : List (List Dva)) :
    (children.foldl BlkPtr.addAsize pdvas).map (fun dva => (dva.address, dva.gang)) =
      pdvas.map fun dva => (dva.address, dva.gang) := by
  induction children generalizing pdvas with
  | nil => rfl
  | cons cdvas children ih => rw [foldl_cons, ih, addAsize_fields]

/-- The block pointer of a gang block. -/
structure IsGangBp (bp : BlkPtr) (addresses : List Address) : Prop where
  addresses : bp.blkDva.map (·.address) = addresses
  gang : ∀ dva ∈ bp.blkDva, dva.gang = true

theorem isGangBp_foldl (spa : Spa) (psize size birth : ℕ) (addresses : List Address)
    (children : List (List Dva)) :
    IsGangBp ⟨children.foldl BlkPtr.addAsize
      ((spa.dvas psize addresses).map fun dva => { dva with gang := true }), size, birth⟩
      addresses := by
  have fields : (children.foldl BlkPtr.addAsize
      ((spa.dvas psize addresses).map fun dva => { dva with gang := true })).map
        (fun dva => (dva.address, dva.gang)) = addresses.map (·, true) := by
    rw [foldl_addAsize_fields]
    simp [Spa.dvas, comp_def]
  constructor
  · have first := congrArg (map Prod.fst) fields
    simpa [comp_def] using first
  · intro dva mem
    have flagged : (dva.address, dva.gang) ∈ addresses.map (·, true) := by
      rw [← fields]
      exact mem_map_of_mem mem
    obtain ⟨address, -, same⟩ := mem_map.mp flagged
    exact (congrArg Prod.snd same).symm

namespace IsGangBp

variable {bp : BlkPtr} {addresses : List Address} (isGangBp : IsGangBp bp addresses)

include isGangBp

theorem isGang (copies : 0 < addresses.length) : bp.isGang = true := by
  rw [← isGangBp.addresses, length_map] at copies
  obtain ⟨dva, dvas, shape⟩ := exists_cons_of_length_pos copies
  rw [BlkPtr.isGang, shape]
  exact isGangBp.gang dva (shape ▸ mem_cons_self)

theorem mem_addresses {dva : Dva} (mem : dva ∈ bp.blkDva) : dva.address ∈ addresses :=
  isGangBp.addresses ▸ mem_map_of_mem mem

theorem exists_gangVerifier (copies : 0 < addresses.length) :
    ∃ first ∈ addresses, bp.gangVerifier.1 = some first := by
  refine ⟨addresses.head (ne_nil_of_length_pos copies), head_mem _, ?_⟩
  rw [← head?_eq_some_head, BlkPtr.gangVerifier, ← isGangBp.addresses, head?_map]

theorem metaslabFree_eq {call : Call} (given : spa.metaslabAlloc call = some addresses)
    (psize : call.psize = spaGangblocksize) : metaslabFree spa bp = spa.allocated call := by
  rw [Spa.allocated, given, psize, metaslabFree, ← isGangBp.addresses, Option.getD_some,
    map_map]
  refine map_congr_left fun dva mem => ?_
  rw [isGangBp.gang dva mem]
  rfl

end IsGangBp

/-- A header is read from any copy. -/
theorem zioGetGangHeader_eq (isCopy : IsCopy copy) {bp : BlkPtr} {slots : List BlkPtr}
    (copies : 0 < bp.blkDva.length)
    (header : ∀ dva ∈ bp.blkDva, disk dva.address = some (.header bp.gangVerifier slots)) :
    zioGetGangHeader disk copy bp = some slots := by
  have valid := isCopy bp copies
  rw [zioGetGangHeader, getElem?_eq_getElem valid]
  simp [header _ (getElem_mem valid)]

/-- Members and a header that points to them are stored. -/
theorem Stored.gang (isCopy : IsCopy copy) {fuel : ℕ} {bp : BlkPtr} {addresses : List Address}
    {gbps : List BlkPtr} {regions : List Region} (isGangBp : IsGangBp bp addresses)
    (psize : bp.psize = bytes.length) (birth : bp.isHole = false)
    (given : spa.metaslabAlloc call = some addresses) (copies : 0 < call.ndvas)
    (size : call.psize = spaGangblocksize) (unit : spaMinblocksize ∣ bytes.length)
    (nonempty : 0 < bytes.length)
    (header : ∀ address ∈ addresses, disk address = some (.header bp.gangVerifier (zgBlkptr gbps)))
    (few : gbps.length ≤ spaGbhNblkptrs)
    (members : StoredMembers spa disk copy fuel bytes.length gbps bytes regions) :
    Stored spa disk copy (fuel + 1) bp bytes (spa.allocated call ++ regions) := by
  have length : addresses.length = call.ndvas := spa.length_alloc given
  have gang : bp.isGang = true := isGangBp.isGang (by omega)
  have stored : ∀ dva ∈ bp.blkDva,
      disk dva.address = some (.header bp.gangVerifier (zgBlkptr gbps)) :=
    fun dva mem => header dva.address (isGangBp.mem_addresses mem)
  have found := zioGetGangHeader_eq isCopy
    (by rw [← length_map (·.address), isGangBp.addresses]; omega) stored
  refine ⟨psize, birth, ?_, ?_, ?_⟩
  · exact .gang gang (psize.symm ▸ unit) (psize.symm ▸ nonempty) stored few
      (members.tile.trans psize.symm)
      (fun gbp mem is => psize.symm ▸ members.smaller gbp mem is) members.each
  · rw [zioRead, if_pos gang, found, psize]
    exact members.read _
  · obtain ⟨freed, perm, free⟩ := members.free
    have holes : ∀ slot ∈ replicate (spaGbhNblkptrs - gbps.length) (⟨[], 0, 0⟩ : BlkPtr),
        slot.isHole = true := fun slot mem => by
      rw [eq_of_mem_replicate mem]
      rfl
    refine ⟨freed ++ spa.allocated call, ?_, perm_append_comm.trans (perm.append_left _)⟩
    rw [zioFree, if_pos gang, found, isGangBp.metaslabFree_eq given size]
    simp [zgBlkptr, free _ holes]

/-- The calls of the rest of the loop, and of the gang blocks in it. -/
def MemberScope (zio : List ℕ) (number gbpsLeft : ℕ) (id : List ℕ × ℕ) : Prop :=
  (id.1 = zio ∧ number ≤ id.2) ∨ ∃ slot, spaGbhNblkptrs ≤ slot + gbpsLeft ∧ zio ++ [slot] <+: id.1

/-- A gang block whose header is not written. -/
structure Unlinked (props : ZioProps spa) (header : Call) (done : Zio α) : Prop where
  /-- The call for the header is the second one. -/
  number : header.number = 1
  /-- It asks for a gang header. -/
  psize : header.psize = spaGangblocksize
  /-- The pointer is that of a gang block. -/
  isGangBp : IsGangBp done.ioBp (spa.addresses header)
  /-- The pointer has a birth if the header has a place. -/
  birth : spa.addresses header ≠ [] → done.ioBp.blkBirth = props.ioTxg
  /-- A header that is written is that of a member. -/
  calls : ∃ refused more, (∀ call ∈ refused, spa.metaslabAlloc call = none) ∧
    done.calls = refused ++ header :: more ∧
    ∀ address verifier slots, (address, .header verifier slots) ∈ done.writes →
      ∃ first ∈ more.flatMap spa.addresses, verifier.1 = some first

/-- What the zio of a block has done. -/
structure ZioSpec (props : ZioProps spa) (fuel : ℕ) (zio : List ℕ) (ioData : List α)
    (done : Zio α) : Prop where
  /-- The calls and writes are in order. -/
  books : Books spa (fun id => zio <+: id.1) done.calls done.writes
  /-- Without room for the whole it is a gang block. -/
  gang : spa.metaslabAlloc ⟨zio, 0, ioData.length, props.ioNdvas⟩ = none → done.ioError = 0 →
    done.ioBp.isGang = true
  /-- Without an error the block is stored. -/
  stored : done.ioError = 0 → ∀ disk copy, IsCopy copy → Holds disk done.writes →
    Stored spa disk copy fuel done.ioBp ioData (done.calls.flatMap spa.allocated)
  /-- A write fails exactly when a single sector is refused. -/
  sectors : (∀ call ∈ done.calls, spa.SectorGranted call) ↔ done.ioError = 0
  /-- After an error the header is not written. -/
  unlinked : done.ioError ≠ 0 → spaMinblocksize < ioData.length →
    ∃ header : Call, header.zio = zio ∧ Unlinked props header done

/-- What the loop over the members has done. -/
structure MembersSpec (spa : Spa) (fuel : ℕ) (zio : List ℕ) (number gbpsLeft total : ℕ)
    (ioData : List α) (members : Members α) : Prop where
  books : Books spa (MemberScope zio number gbpsLeft) members.calls members.writes
  few : members.gbps.length ≤ gbpsLeft
  sectors : (∀ call ∈ members.calls, spa.SectorGranted call) ↔ members.ioError = 0
  stored : members.ioError = 0 → ∀ disk copy, IsCopy copy → Holds disk members.writes →
    StoredMembers spa disk copy fuel total members.gbps ioData
      (members.calls.flatMap spa.allocated)

variable {id : List ℕ × ℕ}

theorem not_append_prefix {zio : List ℕ} : ¬ zio ++ [slot] <+: zio := fun before => by
  have := before.length_le
  simp at this

variable {next : ℕ}

theorem slot_eq {zio other : List ℕ} (first : zio ++ [slot] <+: other)
    (second : zio ++ [next] <+: other) : slot = next := by
  have same : zio ++ [slot] = zio ++ [next] :=
    prefix_iff_eq_take.mp first |>.trans
      ((prefix_iff_eq_take.mp second).trans (by simp)).symm
  simpa using same

theorem enospc_ne_zero : enospc ≠ 0 := by decide

theorem memberScope_apart {zio : List ℕ} {number : ℕ}
    (own : id.1 = zio ∧ number ≤ id.2 ∧ id.2 < next) : ¬ MemberScope zio next gbpsLeft id := by
  rintro (⟨-, later⟩ | ⟨slot, -, below⟩)
  · omega
  · rw [own.1] at below
    exact not_append_prefix below

theorem MemberScope.mono {zio : List ℕ} {number left : ℕ} (later : number ≤ next)
    (fewer : left ≤ gbpsLeft) (scope : MemberScope zio next left id) :
    MemberScope zio number gbpsLeft id := by
  rcases scope with ⟨own, le⟩ | ⟨slot, le, below⟩
  · exact .inl ⟨own, later.trans le⟩
  · exact .inr ⟨slot, by omega, below⟩

namespace ZioProps

variable (props : ZioProps spa) {nested : List ℕ → List α → Except Halt (Zio α)}

section Round

variable {fuel : ℕ} {zio : List ℕ} {number left total : ℕ} {ioData : List α} {calls : List Call}
  (ids : callIds calls = (range' number calls.length).map (zio, ·))

include ids

theorem mem_callIds (mem : id ∈ callIds calls) :
    id.1 = zio ∧ number ≤ id.2 ∧ id.2 < number + calls.length := by
  rw [ids, mem_map] at mem
  obtain ⟨next, inside, rfl⟩ := mem
  rw [mem_range'_1] at inside
  exact ⟨rfl, inside.1, inside.2⟩

theorem nodup_callIds : (callIds calls).Nodup := by
  rw [ids]
  exact Nodup.map (fun _ _ same => congrArg Prod.snd same) nodup_range'

/-- Calls of the zio itself, before others. -/
theorem books_round {more : List Call} {others : List (Address × Content α)}
    (written : (writes.map Prod.fst).Subperm (calls.flatMap spa.addresses))
    (headers : ∀ address verifier slots, (address, .header verifier slots) ∈ writes →
      ∃ first ∈ calls.flatMap spa.addresses, verifier.1 = some first)
    (books : Books spa (MemberScope zio (number + calls.length) gbpsLeft) more others) :
    Books spa (MemberScope zio number gbpsLeft) (calls ++ more) (writes ++ others) := by
  have own : Books spa (fun id => id.1 = zio ∧ number ≤ id.2 ∧ id.2 < number + calls.length) calls
      writes :=
    ⟨fun _ mem => mem_callIds ids mem, nodup_callIds ids, written, headers⟩
  refine (own.append books fun _ mine => memberScope_apart mine).mono fun _ scope => ?_
  rcases scope with mine | rest
  · exact .inl ⟨mine.1, mine.2.1⟩
  · exact rest.mono (by omega) le_rfl

theorem membersSpec_allocated {maxalloc : ℕ} {addresses : List Address}
    (unit : spaMinblocksize ∣ maxalloc) (positive : 0 < maxalloc)
    (inside : maxalloc ≤ ioData.length)
    (copies : ∀ call ∈ calls, call.ndvas = props.ioNdvas)
    (granted : ∀ call ∈ calls, spa.SectorGranted call)
    (answered : Answered spa ioData.length (left + 1) maxalloc calls (.allocated addresses))
    (spec : MembersSpec spa (fuel + 1) zio (number + calls.length) left total
      (ioData.drop maxalloc) rest) :
    MembersSpec spa (fuel + 1) zio number (left + 1) total ioData
      ⟨⟨spa.dvas maxalloc addresses, maxalloc, props.ioTxg⟩ :: rest.gbps, rest.ioError,
        calls ++ rest.calls,
        addresses.map (·, .data (ioData.take maxalloc)) ++ rest.writes⟩ := by
  obtain ⟨-, refused, call, rfl, others, psize, given⟩ := answered
  have size : (ioData.take maxalloc).length = maxalloc := by
    rw [length_take, min_eq_left inside]
  have books := spec.books.mono (fun _ scope => scope.mono le_rfl (le_succ left))
  refine ⟨books_round ids ?_ ?_ books, ?_, ?_, ?_⟩
  · rw [flatMap_append, ← map_address_allocated refused, flatMap_allocated_of_refused others]
    simpa [Spa.addresses, given, comp_def] using Subperm.refl addresses
  · simp
  · exact succ_le_succ spec.few
  · rw [forall_mem_append, spec.sectors]
    exact and_iff_right granted
  · intro fine disk copy isCopy holds
    have data : ∀ address ∈ addresses, disk address = some (.data (ioData.take maxalloc)) :=
      fun address mem => holds.of_append_left (address, _) (mem_map_of_mem mem)
    have first := Stored.block isCopy fuel props.txg_pos given
      (by rw [copies call (by simp)]; exact props.ndvas_pos) (psize.trans size.symm)
      (size.symm ▸ unit) (size.symm ▸ positive) data
    rw [size] at first
    have whole := StoredMembers.cons first (spec.stored fine disk copy isCopy holds.of_append_right)
      (size.symm ▸ positive) (by simp [isGang_dvas])
    rw [take_append_drop] at whole
    rw [flatMap_append, flatMap_append, flatMap_allocated_of_refused others]
    simpa using whole

theorem membersSpec_enospc (refused : ¬ ∀ call ∈ calls, spa.SectorGranted call) :
    MembersSpec spa fuel zio number (left + 1) total ioData ⟨[], enospc, calls, []⟩ where
  books := .of_refused (fun _ mem => .inl ⟨(mem_callIds ids mem).1, (mem_callIds ids mem).2.1⟩)
    (nodup_callIds ids)
  few := zero_le _
  sectors := iff_of_false refused enospc_ne_zero
  stored := fun fine => absurd fine enospc_ne_zero

theorem membersSpec_split {lsize : ℕ} {child : Zio α} (within : left < spaGbhNblkptrs)
    (positive : 0 < lsize) (inside : lsize ≤ ioData.length) (smaller : lsize < total)
    (granted : ∀ call ∈ calls, spa.SectorGranted call)
    (refused : ∀ call ∈ calls, spa.metaslabAlloc call = none)
    (childSpec : ZioSpec props fuel (zio ++ [spaGbhNblkptrs - (left + 1)])
      (ioData.take lsize) child)
    (spec : MembersSpec spa fuel zio (number + calls.length) left total (ioData.drop lsize) rest) :
    MembersSpec spa fuel zio number (left + 1) total ioData
      ⟨child.ioBp :: rest.gbps, if rest.ioError ≠ 0 then rest.ioError else child.ioError,
        calls ++ child.calls ++ rest.calls, child.writes ++ rest.writes⟩ := by
  have size : (ioData.take lsize).length = lsize := by rw [length_take, min_eq_left inside]
  have both := childSpec.books.append spec.books (fun _ below scope => by
    rcases scope with ⟨own, -⟩ | ⟨slot, le, beside⟩
    · rw [own] at below
      exact not_append_prefix below
    · have := slot_eq below beside
      omega)
  have books : Books spa (MemberScope zio (number + calls.length) (left + 1))
      (child.calls ++ rest.calls) (child.writes ++ rest.writes) := by
    refine both.mono fun _ scope => ?_
    rcases scope with below | later
    · exact .inr ⟨_, by omega, below⟩
    · exact later.mono le_rfl (le_succ left)
  refine ⟨?_, succ_le_succ spec.few, ?_, ?_⟩
  · rw [append_assoc]
    change Books spa _ _ ([] ++ (child.writes ++ rest.writes))
    exact books_round ids nil_subperm (by simp) books
  · rw [forall_mem_append, forall_mem_append, childSpec.sectors, spec.sectors,
      and_iff_right granted]
    by_cases fault : rest.ioError = 0 <;> simp [fault]
  · intro fine disk copy isCopy holds
    obtain ⟨restFine, childFine⟩ : rest.ioError = 0 ∧ child.ioError = 0 := by
      by_cases fault : rest.ioError = 0
      · exact ⟨fault, by simpa [fault] using fine⟩
      · simp [fault] at fine
    have first := childSpec.stored childFine disk copy isCopy holds.of_append_left
    have whole := StoredMembers.cons first
      (spec.stored restFine disk copy isCopy holds.of_append_right)
      (size.symm ▸ positive) (fun _ => size.symm ▸ smaller)
    rw [take_append_drop] at whole
    rw [flatMap_append, flatMap_append, flatMap_allocated_of_refused refused,
      nil_append]
    exact whole

end Round

theorem exists_writeMembers {fuel total : ℕ} {zio : List ℕ} (bounded : total < 2 ^ 63)
    (nests : ∀ slot (ioData : List α), spaMinblocksize ∣ ioData.length →
      spaMinblocksize < ioData.length → ioData.length < total →
      ∃ done, nested (zio ++ [slot]) ioData = .ok done ∧
      ZioSpec props (fuel + 1) (zio ++ [slot]) ioData done) :
    ∀ {gbpsLeft maxalloc : ℕ} (number : ℕ) {ioData : List α}, gbpsLeft ≤ spaGbhNblkptrs →
      (gbpsLeft = 0 → ioData.length = 0) → (gbpsLeft = 1 → ioData.length < total) →
      ioData.length ≤ total → spaMinblocksize ∣ ioData.length → spaMinblocksize ∣ maxalloc →
      0 < maxalloc →
      ∃ members, props.writeMembers nested zio gbpsLeft maxalloc number ioData = .ok members ∧
      MembersSpec spa (fuel + 1) zio number gbpsLeft total ioData members := by
  intro gbpsLeft
  induction gbpsLeft with
  | zero =>
    intro maxalloc number ioData within empty last inside unit alloc_unit alloc_pos
    obtain rfl : ioData = [] := eq_nil_of_length_eq_zero (empty rfl)
    exact ⟨⟨[], 0, [], []⟩, by rw [writeMembers]; rfl, .nil, le_rfl, by simp,
      fun _ _ _ _ _ => .nil⟩
  | succ left ih =>
    intro maxalloc number ioData within empty last inside unit alloc_unit alloc_pos
    rw [writeMembers]
    by_cases done : ioData.length = 0
    · obtain rfl : ioData = [] := eq_nil_of_length_eq_zero done
      exact ⟨⟨[], 0, [], []⟩, rfl, .nil, zero_le _, by simp, fun _ _ _ _ _ => .nil⟩
    · have min_unit : spaMinblocksize ∣ min maxalloc ioData.length := by
        rcases min_choice maxalloc ioData.length with is | is <;> rw [is] <;> assumption
      obtain ⟨answer, size, calls, run, size_unit, size_pos, size_le, ids, copies, sectors,
        answered⟩ := props.exists_allocateMember zio ioData.length (left + 1) number
        (lt_succ_self (min maxalloc ioData.length)) min_unit (by omega) (by omega)
      simp only [if_neg done, run]
      have size_inside : size ≤ ioData.length := size_le.trans (min_le_right _ _)
      have next (lsize : ℕ) (some_taken : 0 < lsize) (lsize_unit : spaMinblocksize ∣ lsize)
          (enough : left = 0 → ioData.length ≤ lsize) :=
        @ih size (number + calls.length) (ioData.drop lsize) (by omega)
          (by rw [length_drop]; omega) (by rw [length_drop]; omega)
          (by rw [length_drop]; omega)
          (by rw [length_drop]; exact dvd_sub unit lsize_unit) size_unit size_pos
      cases answer with
      | allocated addresses =>
        obtain ⟨rest, restRun, restSpec⟩ := next size size_pos size_unit
          (fun none => by simpa [none] using answered.1)
        refine ⟨_, ?_, props.membersSpec_allocated ids size_unit size_pos size_inside copies
          (sectors.mpr nofun) answered restSpec⟩
        simp only [bind, Except.bind, restRun]
        rfl
      | enospc => exact ⟨_, rfl, membersSpec_enospc ids (sectors.not.mpr (not_not.mpr rfl))⟩
      | split =>
        obtain ⟨share_unit, share_large, share_le, share_lt, share_eq⟩ :=
          share_bounds unit (succ_pos left) within size_unit size_pos answered.1 (by omega)
        have smaller : p2roundup (ioData.length / (left + 1)) spaMinblocksize < total := by
          by_cases only : left + 1 = 1
          · exact share_le.trans_lt (last only)
          · exact (share_lt only).trans_le inside
        have length := length_take_of_le share_le
        obtain ⟨child, childRun, childSpec⟩ := nests (spaGbhNblkptrs - (left + 1))
          (ioData.take (p2roundup (ioData.length / (left + 1)) spaMinblocksize))
          (length.symm ▸ share_unit) (length.symm ▸ share_large) (length.symm ▸ smaller)
        obtain ⟨rest, restRun, restSpec⟩ := next _ (by omega) share_unit
          (fun none => (share_eq (by omega)).ge)
        refine ⟨_, ?_, props.membersSpec_split ids within (by omega) share_le smaller
          (sectors.mpr nofun) answered.2 childSpec restSpec⟩
        simp only [bind, Except.bind, childRun, restRun]
        rfl

end ZioProps

namespace ZioProps

variable (props : ZioProps spa)

theorem gbhNdvas_pos : 0 < min (props.ioNdvas + 1) spa.spaMaxReplication := by
  have := props.ndvas_pos
  have := props.ndvas_le
  omega

variable {zio : List ℕ}

variable {calls : List Call} {fuel : ℕ} {ioData : List α}

theorem exists_zioWriteAllocateGangMembers {nested : List ℕ → List α → Except Halt (Zio α)}
    (bounded : ioData.length < 2 ^ 63) (unit : spaMinblocksize ∣ ioData.length)
    (large : spaMinblocksize < ioData.length)
    (nests : ∀ slot (part : List α), spaMinblocksize ∣ part.length →
      spaMinblocksize < part.length → part.length < ioData.length →
      ∃ done, nested (zio ++ [slot]) part = .ok done ∧
      ZioSpec props (fuel + 1) (zio ++ [slot]) part done) :
    ∃ gang, props.zioWriteAllocateGangMembers nested zio ioData = .ok gang ∧
    Books spa (MemberScope zio 1 spaGbhNblkptrs) gang.calls gang.writes ∧
    (gang.ioError = 0 → gang.ioBp.isGang = true) ∧
    ((∀ call ∈ gang.calls, spa.SectorGranted call) ↔ gang.ioError = 0) ∧
    (gang.ioError = 0 → ∀ disk copy, IsCopy copy → Holds disk gang.writes →
      Stored spa disk copy (fuel + 2) gang.ioBp ioData (gang.calls.flatMap spa.allocated)) ∧
    (gang.ioError ≠ 0 → ∃ header : Call, header.zio = zio ∧ Unlinked props header gang) := by
  rw [zioWriteAllocateGangMembers]
  cases given : spa.metaslabAlloc
      ⟨zio, 1, spaGangblocksize, min (props.ioNdvas + 1) spa.spaMaxReplication⟩ with
  | none =>
    refine ⟨_, rfl, .of_refused ?_ (nodup_singleton _),
      fun fine => absurd fine enospc_ne_zero, ?_, fun fine => absurd fine enospc_ne_zero, ?_⟩
    · exact forall_mem_singleton.mpr (.inl ⟨rfl, le_rfl⟩)
    · exact iff_of_false (fun granted => forall_mem_singleton.mp granted rfl given) enospc_ne_zero
    · intro _
      have none_given : spa.addresses
          ⟨zio, 1, spaGangblocksize, min (props.ioNdvas + 1) spa.spaMaxReplication⟩ = [] := by
        rw [Spa.addresses, given]
        rfl
      refine ⟨_, rfl, rfl, rfl, none_given.symm ▸ ⟨rfl, by simp⟩,
        fun some_given => absurd none_given some_given, [], [], by simp, rfl, by simp⟩
  | some addresses =>
    obtain ⟨half_unit, half_pos, -⟩ := half_bounds unit large bounded
    obtain ⟨members, run, spec⟩ := props.exists_writeMembers bounded nests 2 le_rfl
      (fun none => absurd none (by decide)) (fun one => absurd one (by decide)) le_rfl unit
      half_unit half_pos
    have length : addresses.length = _ := spa.length_alloc given
    have copies : 0 < addresses.length := length ▸ props.gbhNdvas_pos
    have isGangBp := isGangBp_foldl spa spaGangblocksize ioData.length props.ioTxg
      addresses (members.gbps.map (·.blkDva))
    have all_given : spa.addresses
        ⟨zio, 1, spaGangblocksize, min (props.ioNdvas + 1) spa.spaMaxReplication⟩ =
        addresses := by
      rw [Spa.addresses, given]
      rfl
    simp only [run, bind, Except.bind]
    refine ⟨_, rfl, ?_, fun _ => isGangBp.isGang copies, ?_, ?_, ?_⟩
    · change Books spa _ ([_] ++ members.calls) _
      refine (books_round rfl ?_ ?_ spec.books).perm perm_append_comm
      · rw [flatMap_singleton, all_given]
        split_ifs
        · simpa [comp_def] using Subperm.refl addresses
        · exact nil_subperm
      · intro address verifier slots mem
        rw [flatMap_singleton, all_given]
        split_ifs at mem
        · obtain ⟨_, -, same⟩ := mem_map.mp mem
          cases same
          exact isGangBp.exists_gangVerifier copies
        · exact absurd mem not_mem_nil
    · rw [forall_mem_cons, spec.sectors]
      exact and_iff_right fun _ none => Option.some_ne_none _ (given.symm.trans none)
    · intro fine disk copy isCopy holds
      rw [if_pos fine] at holds
      exact Stored.gang isCopy isGangBp rfl (beq_eq_false_iff_ne.mpr props.txg_pos.ne') given
        props.gbhNdvas_pos rfl unit (by omega)
        (fun address mem => holds.of_append_right (address, _) (mem_map_of_mem mem))
        spec.few (spec.stored fine disk copy isCopy holds.of_append_left)
    · intro failed
      refine ⟨_, rfl, rfl, rfl, all_given.symm ▸ isGangBp, fun _ => rfl, [], members.calls,
        by simp, rfl, ?_⟩
      rw [if_neg failed, append_nil]
      exact spec.books.headers

theorem prefix_of_memberScope {number : ℕ} {id : List ℕ × ℕ}
    (scope : MemberScope zio number gbpsLeft id) : zio <+: id.1 := by
  rcases scope with ⟨own, -⟩ | ⟨slot, -, below⟩
  · exact own ▸ prefix_rfl
  · exact (prefix_append zio [slot]).trans below

theorem books_whole {psize : ℕ}
    (books : Books spa (MemberScope zio 1 spaGbhNblkptrs) calls writes) :
    Books spa (fun id => zio <+: id.1) (⟨zio, 0, psize, ndvas⟩ :: calls) writes := by
  have round : Books spa (MemberScope zio 0 spaGbhNblkptrs) ([⟨zio, 0, psize, ndvas⟩] ++ calls)
      ([] ++ writes) := books_round rfl nil_subperm (by simp) books
  exact round.mono fun _ scope => prefix_of_memberScope scope

theorem exists_zioDvaAllocate (enough : ioData.length ≤ fuel) (bounded : ioData.length < 2 ^ 63)
    (unit : spaMinblocksize ∣ ioData.length) (nonempty : 0 < ioData.length) :
    ∃ done, props.zioDvaAllocate fuel zio ioData = .ok done ∧
    ZioSpec props fuel zio ioData done := by
  induction fuel generalizing zio ioData with
  | zero => omega
  | succ fuel ih =>
    rw [zioDvaAllocate]
    cases given : spa.metaslabAlloc ⟨zio, 0, ioData.length, props.ioNdvas⟩ with
    | some addresses =>
      refine ⟨_, rfl, ⟨?_, nodup_singleton _, ?_, by simp⟩,
        fun none => absurd (given.symm.trans none) (Option.some_ne_none _), ?_,
        by simp [Spa.SectorGranted, given], fun failed => absurd rfl failed⟩
      · exact forall_mem_singleton.mpr prefix_rfl
      · simpa [Spa.addresses, given, comp_def] using Subperm.refl addresses
      · intro _ disk copy isCopy holds
        rw [flatMap_singleton]
        exact Stored.block isCopy fuel props.txg_pos given props.ndvas_pos rfl unit nonempty
          fun address mem => holds (address, _) (mem_map_of_mem mem)
    | none =>
      by_cases large : spaMinblocksize < ioData.length
      · obtain ⟨fuel, rfl⟩ := exists_eq_succ_of_ne_zero (show fuel ≠ 0 by
          have : spaMinblocksize = 512 := rfl
          omega)
        obtain ⟨gang, run, books, isGang, sectors, stored, unlinked⟩ :=
          props.exists_zioWriteAllocateGangMembers bounded unit large
            fun slot part part_unit part_large part_lt =>
              @ih (zio ++ [slot]) part (by omega) (by omega) part_unit (by omega)
        simp only [if_pos large, run, bind, Except.bind]
        refine ⟨_, rfl, books_whole books, fun _ => isGang, ?_, ?_, ?_⟩
        · intro fine disk copy isCopy holds
          rw [flatMap_cons, show spa.allocated _ = [] by rw [Spa.allocated, given]; rfl]
          exact stored fine disk copy isCopy holds
        · rw [forall_mem_cons, sectors]
          exact and_iff_right fun sector => absurd sector large.ne'
        · intro failed _
          obtain ⟨header, of_zio, number, psize, isGangBp, birth, refused, more, none_given,
            calls, headers⟩ := unlinked failed
          exact ⟨header, of_zio, number, psize, isGangBp, birth, _ :: refused, more,
            forall_mem_cons.mpr ⟨given, none_given⟩, congrArg (_ :: ·) calls, headers⟩
      · simp only [if_neg large]
        refine ⟨_, rfl, .of_refused ?_ (nodup_singleton _),
          fun _ fine => absurd fine enospc_ne_zero, fun fine => absurd fine enospc_ne_zero, ?_,
          fun _ above => absurd above large⟩
        · exact forall_mem_singleton.mpr prefix_rfl
        · have sector : ioData.length = spaMinblocksize :=
            le_antisymm (not_lt.mp large) (Nat.le_of_dvd nonempty unit)
          exact iff_of_false (fun granted => forall_mem_singleton.mp granted sector given)
            enospc_ne_zero

/-- A gang block that is written without an error is read from any copies as it was written, and
freeing it frees each region that was allocated for it once. -/
theorem gang_block_round_trip {ioData : List α} (unit : spaMinblocksize ∣ ioData.length)
    (lower : 1024 ≤ ioData.length) (upper : ioData.length ≤ 131072)
    (refused : spa.metaslabAlloc ⟨[], 0, ioData.length, props.ioNdvas⟩ = none) {fuel : ℕ}
    (enough : ioData.length ≤ fuel) :
    ∃ done, props.zioDvaAllocate fuel [] ioData = .ok done ∧
    (done.ioError = 0 → ∀ (before : Disk α) order copy, order.Perm done.writes → IsCopy copy →
      done.ioBp.isGang = true ∧ done.ioBp.psize = ioData.length ∧
      Tiled (perform before order) done.ioBp ∧
      zioRead (perform before order) copy fuel done.ioBp = some ioData ∧
      ∃ freed, zioFree (perform before order) copy spa fuel done.ioBp = some freed ∧
      freed.Perm (done.calls.flatMap spa.allocated) ∧ (freed.map (·.address)).Nodup) := by
  obtain ⟨done, run, spec⟩ : ∃ done, props.zioDvaAllocate fuel [] ioData = .ok done ∧
      ZioSpec props fuel [] ioData done :=
    props.exists_zioDvaAllocate enough (by omega) unit (by omega)
  refine ⟨done, run, fun fine before order copy perm isCopy => ?_⟩
  have stored := spec.stored fine (perform before order) copy isCopy
    (holds_perform_of_perm perm spec.books.nodup_writes)
  obtain ⟨freed, free, freed_perm⟩ := stored.free
  refine ⟨spec.gang refused fine, stored.psize, stored.tiled, stored.read, freed, free, freed_perm,
    (freed_perm.map _).nodup_iff.mpr ?_⟩
  rw [map_address_allocated]
  exact Books.nodup_addresses spec.books.distinct

end ZioProps

/-- The regions of a call of the first zio, on one vdev for each copy. -/
def sectorAlloc (granted : ℕ → Bool) (call : Call) : Option (List Address) :=
  if call.zio = [] ∧ call.psize = spaMinblocksize ∧ granted call.number then
    some ((range call.ndvas).map (·, call.number))
  else none

theorem sectorAlloc_eq_some {granted : ℕ → Bool} {addresses : List Address}
    (given : sectorAlloc granted call = some addresses) :
    call.zio = [] ∧ addresses = (range call.ndvas).map (·, call.number) := by
  unfold sectorAlloc at given
  split_ifs at given with room
  exact ⟨room.1, (Option.some.inj given).symm⟩

/-- A pool with single sectors left, which it gives to some calls. -/
def sectors (granted : ℕ → Bool) : Spa where
  vdevPsizeToAsize := fun _ psize => psize
  spaMaxReplication := 3
  metaslabAlloc := sectorAlloc granted
  length_alloc := fun {call addresses} given => by
    rw [(sectorAlloc_eq_some given).2, length_map, length_range]
  nodup_alloc := fun {call addresses} given => by
    rw [(sectorAlloc_eq_some given).2]
    exact Nodup.map (fun _ _ same => congrArg Prod.fst same) nodup_range
  disjoint_alloc := fun {call other addresses others} given taken differ => by
    obtain ⟨zio, rfl⟩ := sectorAlloc_eq_some given
    obtain ⟨zio', rfl⟩ := sectorAlloc_eq_some taken
    intro address mine theirs
    obtain ⟨_, -, rfl⟩ := mem_map.mp mine
    obtain ⟨_, -, same⟩ := mem_map.mp theirs
    exact differ (Prod.ext (zio.trans zio'.symm) (congrArg Prod.snd same).symm)

/-- A write with one copy. -/
def singleCopy (granted : ℕ → Bool) : ZioProps (sectors granted) where
  ioTxg := 4
  ioNdvas := 1
  txg_pos := succ_pos 3
  ndvas_pos := zero_lt_one
  ndvas_le := le_add_left 1 2

/-- Two sectors of data. -/
def twoSectors : List Bool := replicate 1024 true

/-- Two sectors of data in two members. -/
theorem gang_block_two_members :
    ∃ done, (singleCopy fun _ => true).zioDvaAllocate 1024 [] twoSectors = .ok done ∧
    done.ioError = 0 ∧ ∀ (before : Disk Bool) order copy, order.Perm done.writes → IsCopy copy →
      zioRead (perform before order) copy 1024 done.ioBp = some twoSectors := by
  have length : twoSectors.length = 1024 := length_replicate
  have unit : spaMinblocksize ∣ twoSectors.length := ⟨2, length⟩
  obtain ⟨done, run, stored⟩ := (singleCopy fun _ => true).gang_block_round_trip unit length.ge
    (length.le.trans (by decide)) (by rw [length]; rfl) length.le
  have fine : done.ioError = 0 := by
    have computed : ((singleCopy fun _ => true).zioDvaAllocate 1024 [] twoSectors).map
        (·.ioError) = .ok 0 := by decide +kernel
    rw [run] at computed
    exact Except.ok.inj computed
  refine ⟨done, run, fine, fun before order copy perm isCopy => ?_⟩
  exact (stored fine before order copy perm isCopy).2.2.2.1

end Gang

end Zfs
