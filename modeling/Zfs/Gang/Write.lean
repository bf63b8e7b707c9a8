import Zfs.Gang.Code

/-!
# The members of a gang block

What the loops of `zio_write_allocate_gang_members` do for every sequence of answers: the members
tile the data, and each call is made once.
-/

namespace Zfs

namespace Gang

open KeyedWrites List

variable {α : Type}

/-- Half of a size, rounded up to sectors, is a smaller size. -/
theorem half_bounds {size : ℕ} (unit : spaMinblocksize ∣ size) (large : spaMinblocksize < size)
    (bounded : size < 2 ^ 63) :
    spaMinblocksize ∣ p2roundup (size >>> 1) spaMinblocksize ∧
    0 < p2roundup (size >>> 1) spaMinblocksize ∧
    p2roundup (size >>> 1) spaMinblocksize < size := by
  obtain ⟨lower, upper, multiple⟩ :=
    p2roundup_bounds (show size >>> 1 + 2 ^ 9 < 2 ^ 64 by omega)
  rw [show (2 : ℕ) ^ 9 = spaMinblocksize from rfl] at lower upper multiple
  obtain ⟨count, rfl⟩ := unit
  unfold spaMinblocksize at *
  exact ⟨multiple, by omega, by omega⟩

/-- A share of what is left, rounded up to sectors, is a part of it. -/
theorem share_bounds {resid maxalloc gbpsLeft : ℕ} (unit : spaMinblocksize ∣ resid)
    (some_left : 0 < gbpsLeft) (few : gbpsLeft ≤ 3) (alloc_unit : spaMinblocksize ∣ maxalloc)
    (alloc_pos : 0 < maxalloc)
    (large : maxalloc * gbpsLeft < resid) (bounded : resid < 2 ^ 63) :
    spaMinblocksize ∣ p2roundup (resid / gbpsLeft) spaMinblocksize ∧
    spaMinblocksize < p2roundup (resid / gbpsLeft) spaMinblocksize ∧
    p2roundup (resid / gbpsLeft) spaMinblocksize ≤ resid ∧
    (gbpsLeft ≠ 1 → p2roundup (resid / gbpsLeft) spaMinblocksize < resid) ∧
    (gbpsLeft = 1 → p2roundup (resid / gbpsLeft) spaMinblocksize = resid) := by
  have small : resid / gbpsLeft ≤ resid := Nat.div_le_self _ _
  obtain ⟨lower, upper, multiple⟩ :=
    p2roundup_bounds (show resid / gbpsLeft + 2 ^ 9 < 2 ^ 64 by omega)
  rw [show (2 : ℕ) ^ 9 = spaMinblocksize from rfl] at lower upper multiple
  obtain ⟨count, rfl⟩ := unit
  obtain ⟨pieces, rfl⟩ := alloc_unit
  obtain ⟨share, share_eq⟩ := multiple
  unfold spaMinblocksize at *
  interval_cases gbpsLeft
  · exact ⟨⟨share, share_eq⟩, by omega, by omega, by omega, by omega⟩
  · exact ⟨⟨share, share_eq⟩, by omega, by omega, by omega, by omega⟩
  · exact ⟨⟨share, share_eq⟩, by omega, by omega, by omega, by omega⟩

/-- The numbers of the calls of a zio. -/
def callIds (calls : List Call) : List (List ℕ × ℕ) := calls.map fun call => (call.zio, call.number)

/-- The inner loop ends with a region, no sector, or a share too large. -/
def Answered (spa : Spa) (resid gbpsLeft maxalloc : ℕ) (calls : List Call) : Answer → Prop
  | .allocated addresses => resid ≤ maxalloc * gbpsLeft ∧
    ∃ refused call, calls = refused ++ [call] ∧
    (∀ other ∈ refused, spa.metaslabAlloc other = none) ∧
    call.psize = maxalloc ∧ spa.metaslabAlloc call = some addresses
  | .enospc => ∀ call ∈ calls, spa.metaslabAlloc call = none
  | .split => maxalloc * gbpsLeft < resid ∧ ∀ call ∈ calls, spa.metaslabAlloc call = none

/-- A request for a single sector is granted. -/
def Spa.SectorGranted (spa : Spa) (call : Call) : Prop :=
  call.psize = spaMinblocksize → spa.metaslabAlloc call ≠ none

namespace ZioProps

variable {spa : Spa} (props : ZioProps spa)

theorem exists_allocateMember (zio : List ℕ) (resid gbpsLeft : ℕ) {fuel maxalloc : ℕ} (number : ℕ)
    (enough : maxalloc < fuel) (unit : spaMinblocksize ∣ maxalloc) (positive : 0 < maxalloc)
    (bounded : maxalloc < 2 ^ 63) :
    ∃ answer size calls, props.allocateMember zio resid gbpsLeft fuel maxalloc number =
        .ok (answer, size, calls) ∧
      spaMinblocksize ∣ size ∧ 0 < size ∧ size ≤ maxalloc ∧
      callIds calls = (range' number calls.length).map (zio, ·) ∧
      (∀ call ∈ calls, call.ndvas = props.ioNdvas) ∧
      ((∀ call ∈ calls, spa.SectorGranted call) ↔ answer ≠ .enospc) ∧
      Answered spa resid gbpsLeft size calls answer := by
  induction fuel generalizing maxalloc number with
  | zero => omega
  | succ fuel ih =>
    rw [allocateMember]
    by_cases fits : resid ≤ maxalloc * gbpsLeft
    · simp only [if_pos fits]
      cases granted : spa.metaslabAlloc ⟨zio, number, maxalloc, props.ioNdvas⟩ with
      | some addresses =>
        exact ⟨.allocated addresses, maxalloc, [_], rfl, unit, positive, le_rfl, rfl, by simp,
          by simp [Spa.SectorGranted, granted], fits, [], _, rfl, by simp, rfl, granted⟩
      | none =>
        by_cases last : maxalloc = spaMinblocksize
        · simp only [if_pos last]
          exact ⟨.enospc, maxalloc, [_], rfl, unit, positive, le_rfl, rfl, by simp,
            by simp [Spa.SectorGranted, granted, last.symm], forall_mem_singleton.mpr granted⟩
        · have large : spaMinblocksize < maxalloc :=
            lt_of_le_of_ne (Nat.le_of_dvd positive unit) (Ne.symm last)
          obtain ⟨half_unit, half_pos, half_lt⟩ := half_bounds unit large bounded
          obtain ⟨answer, size, calls, run, size_unit, size_pos, size_le, ids, copies, sectors,
            answered⟩ := ih (number + 1) (by omega) half_unit half_pos (by omega)
          refine ⟨answer, size, ⟨zio, number, maxalloc, props.ioNdvas⟩ :: calls, ?_, size_unit,
            size_pos, by omega, ?_, forall_mem_cons.mpr ⟨rfl, copies⟩, ?_, ?_⟩
          · simp only [if_neg last, run]
            rfl
          · rw [callIds, map_cons, length_cons, range'_succ, map_cons]
            exact congrArg (_ :: ·) ids
          · rw [forall_mem_cons, sectors]
            exact and_iff_right fun sector => absurd sector last
          · cases answer with
            | allocated addresses =>
              obtain ⟨room, refused, call, rfl, others, psize, given⟩ := answered
              exact ⟨room, _ :: refused, call, rfl,
                forall_mem_cons.mpr ⟨granted, others⟩, psize, given⟩
            | enospc => exact forall_mem_cons.mpr ⟨granted, answered⟩
            | split => exact ⟨answered.1, forall_mem_cons.mpr ⟨granted, answered.2⟩⟩
    · rw [if_neg fits]
      exact ⟨.split, maxalloc, [], rfl, unit, positive, le_rfl, rfl, by simp, by simp, by omega,
        by simp⟩

end ZioProps

section Books

variable {spa : Spa}

/-- The addresses that a call is given. -/
def Spa.addresses (spa : Spa) (call : Call) : List Address := (spa.metaslabAlloc call).getD []

/-- Calls are made once, and the writes go to what they are given. -/
structure Books (spa : Spa) (scope : List ℕ × ℕ → Prop) (calls : List Call)
    (writes : List (Address × Content α)) : Prop where
  /-- The calls are those of the scope. -/
  within : ∀ id ∈ callIds calls, scope id
  /-- No call is made twice. -/
  distinct : (callIds calls).Nodup
  /-- No region is written twice. -/
  written : (writes.map Prod.fst).Subperm (calls.flatMap spa.addresses)
  /-- A header is written with its verifier. -/
  headers : ∀ address verifier slots, (address, .header verifier slots) ∈ writes →
    ∃ first ∈ calls.flatMap spa.addresses, verifier.1 = some first

namespace Books

variable {scope other : List ℕ × ℕ → Prop} {calls more : List Call}
  {writes others : List (Address × Content α)}

theorem nil : Books spa scope [] ([] : List (Address × Content α)) where
  within := by simp [callIds]
  distinct := nodup_nil
  written := nil_subperm
  headers := by simp

theorem of_refused (within : ∀ id ∈ callIds calls, scope id) (distinct : (callIds calls).Nodup) :
    Books spa scope calls ([] : List (Address × Content α)) where
  within := within
  distinct := distinct
  written := nil_subperm
  headers := by simp

theorem mono (books : Books spa scope calls writes) (wider : ∀ id, scope id → other id) :
    Books spa other calls writes :=
  ⟨fun id mem => wider id (books.within id mem), books.distinct, books.written, books.headers⟩

theorem append (first : Books spa scope calls writes) (second : Books spa other more others)
    (apart : ∀ id, scope id → ¬ other id) :
    Books spa (fun id => scope id ∨ other id) (calls ++ more) (writes ++ others) where
  within := by
    rw [callIds, map_append]
    intro id mem
    rcases mem_append.mp mem with here | there
    · exact .inl (first.within id here)
    · exact .inr (second.within id there)
  distinct := by
    rw [callIds, map_append]
    exact first.distinct.append second.distinct fun id here there =>
      apart id (first.within id here) (second.within id there)
  written := by
    rw [map_append, flatMap_append]
    exact first.written.append second.written
  headers := by
    intro address verifier slots mem
    rw [flatMap_append]
    rcases mem_append.mp mem with here | there
    · obtain ⟨known, at_, is⟩ := first.headers address verifier slots here
      exact ⟨known, mem_append_left _ at_, is⟩
    · obtain ⟨known, at_, is⟩ := second.headers address verifier slots there
      exact ⟨known, mem_append_right _ at_, is⟩

theorem perm (books : Books spa scope calls writes) (perm : writes.Perm others) :
    Books spa scope calls others :=
  ⟨books.within, books.distinct, (perm.symm.map Prod.fst).subperm.trans books.written,
    fun address verifier slots mem =>
      books.headers address verifier slots (perm.mem_iff.mpr mem)⟩

theorem nodup_addresses (distinct : (callIds calls).Nodup) :
    (calls.flatMap spa.addresses).Nodup := by
  rw [nodup_flatMap]
  constructor
  · intro call _
    unfold Spa.addresses
    cases given : spa.metaslabAlloc call with
    | none => exact nodup_nil
    | some addresses => exact spa.nodup_alloc given
  · refine (pairwise_map.mp distinct).imp fun {call later} differ => ?_
    change Disjoint _ _
    unfold Spa.addresses
    cases given : spa.metaslabAlloc call with
    | none => exact disjoint_nil_left _
    | some addresses =>
      cases taken : spa.metaslabAlloc later with
      | none => exact disjoint_nil_right _
      | some others => exact spa.disjoint_alloc given taken differ

theorem nodup_writes (books : Books spa scope calls writes) : (writes.map Prod.fst).Nodup := by
  obtain ⟨addresses, perm, sublist⟩ := books.written
  exact perm.nodup_iff.mp ((nodup_addresses books.distinct).sublist sublist)

end Books

end Books

/-- A pointer to data, or to a header with members that tile the block. -/
inductive Tiled (disk : Disk α) : BlkPtr → Prop
  | block {bp : BlkPtr} (plain : bp.isGang = false) (unit : spaMinblocksize ∣ bp.psize)
    (positive : 0 < bp.psize) : Tiled disk bp
  | gang {bp : BlkPtr} {gbps : List BlkPtr} (gang : bp.isGang = true)
    (unit : spaMinblocksize ∣ bp.psize) (positive : 0 < bp.psize)
    (header : ∀ dva ∈ bp.blkDva,
      disk dva.address = some (.header bp.gangVerifier (zgBlkptr gbps)))
    (few : gbps.length ≤ spaGbhNblkptrs) (tile : (gbps.map (·.psize)).sum = bp.psize)
    (smaller : ∀ gbp ∈ gbps, gbp.isGang = true → gbp.psize < bp.psize)
    (each : ∀ gbp ∈ gbps, Tiled disk gbp) : Tiled disk bp

section Stored

variable (spa : Spa) (disk : Disk α) (copy : BlkPtr → ℕ) (fuel : ℕ)

/-- A block pointer to some bytes in some regions. -/
structure Stored (bp : BlkPtr) (bytes : List α) (regions : List Region) : Prop where
  /-- The size is that of the bytes. -/
  psize : bp.psize = bytes.length
  /-- The pointer is not that of a hole. -/
  birth : bp.isHole = false
  /-- The members of every gang block tile it. -/
  tiled : Tiled disk bp
  /-- Reading returns the bytes. -/
  read : zioRead disk copy fuel bp = some bytes
  /-- Freeing frees the regions. -/
  free : ∃ freed, zioFree disk copy spa fuel bp = some freed ∧ freed.Perm regions

/-- Members of a block of some size, with some bytes in some regions. -/
structure StoredMembers (total : ℕ) (gbps : List BlkPtr) (bytes : List α) (regions : List Region) :
    Prop where
  each : ∀ gbp ∈ gbps, Tiled disk gbp
  smaller : ∀ gbp ∈ gbps, gbp.isGang = true → gbp.psize < total
  tile : (gbps.map (·.psize)).sum = bytes.length
  read : ∀ slots, zioReadGangMembers (zioRead disk copy fuel) bytes.length (gbps ++ slots) =
    some bytes
  free : ∃ freed : List Region, freed.Perm regions ∧ ∀ slots : List BlkPtr,
    (∀ slot ∈ slots, slot.isHole = true) →
    zioFreeGangMembers (zioFree disk copy spa fuel) (gbps ++ slots) = some freed

variable {spa disk copy fuel}

theorem StoredMembers.nil {total : ℕ} : StoredMembers spa disk copy fuel total [] [] [] where
  each := by simp
  smaller := by simp
  tile := rfl
  read := fun slots => by simp [zioReadGangMembers]
  free := by
    refine ⟨[], .nil, fun slots holes => ?_⟩
    induction slots with
    | nil => rfl
    | cons slot slots ih =>
      rw [nil_append, zioFreeGangMembers, if_pos (holes slot mem_cons_self)]
      exact ih fun slot mem => holes slot (mem_cons_of_mem _ mem)

theorem StoredMembers.cons {total : ℕ} {bp : BlkPtr} {gbps : List BlkPtr} {bytes more : List α}
    {regions others : List Region} (first : Stored spa disk copy fuel bp bytes regions)
    (rest : StoredMembers spa disk copy fuel total gbps more others) (nonempty : 0 < bytes.length)
    (small : bp.isGang = true → bytes.length < total) :
    StoredMembers spa disk copy fuel total (bp :: gbps) (bytes ++ more) (regions ++ others) where
  each := forall_mem_cons.mpr ⟨first.tiled, rest.each⟩
  smaller := forall_mem_cons.mpr ⟨fun gang => first.psize ▸ small gang, rest.smaller⟩
  tile := by rw [map_cons, sum_cons, rest.tile, first.psize, length_append]
  read := fun slots => by
    obtain ⟨left, left_eq⟩ := Nat.exists_eq_succ_of_ne_zero
      (show (bytes ++ more).length ≠ 0 by rw [length_append]; omega)
    have remaining : left + 1 - bp.psize = more.length := by
      rw [first.psize]
      rw [length_append] at left_eq
      omega
    rw [left_eq, cons_append, zioReadGangMembers, first.read, remaining]
    simp [rest.read]
  free := by
    obtain ⟨freed, freed_eq, freed_perm⟩ := first.free
    obtain ⟨others', others_perm, others_eq⟩ := rest.free
    refine ⟨freed ++ others', freed_perm.append others_perm, fun slots holes => ?_⟩
    rw [cons_append, zioFreeGangMembers, first.birth, freed_eq, others_eq slots holes]
    rfl

end Stored

end Gang

end Zfs
