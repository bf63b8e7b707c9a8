import Zfs.DnodeSync.Code

/-!
# Killing blocks

A call kills a list of blocks: each was allocated, none occurs twice, their pointers become zero and
the space they took is given back.  Such changes compose, since a killed block is a hole.
-/

namespace Zfs

open List

namespace SyncDnode

variable {dn mid after : SyncDnode} {blocks later : List (ℕ × ℕ)} {block : ℕ × ℕ}
  {level blkid num : ℕ}

/-- There is a block of this level and number. -/
def Allocated (dn : SyncDnode) (block : ℕ × ℕ) : Prop :=
  (dn.blkptr block.1 block.2).bpIsHole = false

instance (dn : SyncDnode) (block : ℕ × ℕ) : Decidable (dn.Allocated block) :=
  inferInstanceAs (Decidable (_ = false))

/-- The space that blocks take. -/
def space (dn : SyncDnode) (blocks : List (ℕ × ℕ)) : ℕ :=
  (blocks.map fun block => (dn.blkptr block.1 block.2).dasize).sum

@[simp]
theorem space_nil : dn.space [] = 0 := rfl

@[simp]
theorem space_cons :
    dn.space (block :: blocks) = (dn.blkptr block.1 block.2).dasize + dn.space blocks := by
  simp [space]

@[simp]
theorem space_append : dn.space (blocks ++ later) = dn.space blocks + dn.space later := by
  simp [space]

/-- The dnode with some pointers zeroed. -/
def zeroed (dn : SyncDnode) (blocks : List (ℕ × ℕ)) : SyncDnode :=
  { dn with
    blkptr := fun level blkid =>
      if (level, blkid) ∈ blocks then FreeBlkptr.zero else dn.blkptr level blkid
    killed := dn.killed ++ blocks }

theorem zeroed_zeroed : (dn.zeroed blocks).zeroed later = dn.zeroed (blocks ++ later) := by
  simp only [zeroed, append_assoc, mem_append, SyncDnode.mk.injEq, and_true, true_and]
  funext level blkid
  by_cases first : (level, blkid) ∈ blocks <;> simp [first]

theorem zeroed_nil : dn.zeroed [] = dn := by
  simp [zeroed]

theorem killBlock_eq : dn.killBlock level blkid = dn.zeroed [(level, blkid)] := by
  simp only [killBlock, zeroed, SyncDnode.mk.injEq, and_true, true_and]
  funext level' blkid'
  by_cases same : level' = level
  · subst same
    by_cases same' : blkid' = blkid
    · simp [same']
    · simp [same']
  · simp [same]

/-- The allocated blocks of a level among some numbers. -/
def live (dn : SyncDnode) (level blkid num : ℕ) : List (ℕ × ℕ) :=
  ((range' blkid num).map fun number => (level, number)).filter dn.Allocated

theorem mem_live : block ∈ dn.live level blkid num ↔
    block.1 = level ∧ blkid ≤ block.2 ∧ block.2 < blkid + num ∧ dn.Allocated block := by
  simp only [live, mem_filter, mem_map, mem_range'_1, decide_eq_true_eq]
  constructor
  · rintro ⟨⟨number, ⟨low, high⟩, rfl⟩, allocated⟩
    exact ⟨rfl, low, high, allocated⟩
  · rintro ⟨rfl, low, high, allocated⟩
    exact ⟨⟨block.2, ⟨low, high⟩, rfl⟩, allocated⟩

theorem nodup_live : (dn.live level blkid num).Nodup := by
  have numbers : (range' blkid num).Nodup := nodup_range'
  exact (numbers.map fun _ _ same => (Prod.mk.inj same).2).filter _

theorem live_zeroed_left (dn : SyncDnode) (level blkid num : ℕ) :
    (dn.zeroed [(level, blkid)]).live level (blkid + 1) num =
      dn.live level (blkid + 1) num ∧
    (dn.zeroed [(level, blkid)]).space (dn.live level (blkid + 1) num) =
      dn.space (dn.live level (blkid + 1) num) := by
  have same : ∀ number ∈ range' (blkid + 1) num,
      (dn.zeroed [(level, blkid)]).blkptr level number = dn.blkptr level number := by
    intro number member
    have right : number ≠ blkid := by
      have := (mem_range'_1.mp member).1
      omega
    simp [zeroed, right]
  constructor
  · refine filter_congr ?_
    simp only [mem_map]
    rintro - ⟨number, member, rfl⟩
    exact decide_eq_decide.mpr (by rw [Allocated, Allocated, same number member])
  · refine congrArg sum (map_congr_left ?_)
    rintro ⟨level', number⟩ member
    obtain ⟨rfl, low, high, -⟩ := mem_live.mp member
    exact congrArg _ (same number (mem_range'_1.mpr ⟨low, high⟩))

theorem freeBlocksLoop_eq (level num blkid bytesfreed blocksFreed : ℕ) (dn : SyncDnode) :
    freeBlocksLoop level num blkid (bytesfreed, blocksFreed, dn) =
      (bytesfreed + dn.space (dn.live level blkid num),
        blocksFreed + (dn.live level blkid num).length, dn.zeroed (dn.live level blkid num)) := by
  induction num generalizing blkid bytesfreed blocksFreed dn with
  | zero => simp [freeBlocksLoop, live, zeroed_nil]
  | succ num ih =>
    have live_eq : dn.live level blkid (num + 1) =
        if (dn.blkptr level blkid).bpIsHole then dn.live level (blkid + 1) num
        else (level, blkid) :: dn.live level (blkid + 1) num := by
      rw [live, range'_succ, map_cons, filter_cons]
      cases hole : (dn.blkptr level blkid).bpIsHole <;> simp [Allocated, hole, live]
    rw [freeBlocksLoop, live_eq]
    split_ifs with hole
    · exact ih (blkid + 1) bytesfreed blocksFreed dn
    · obtain ⟨same_live, same_space⟩ := live_zeroed_left dn level blkid num
      rw [ih, killBlock_eq, same_live, same_space, zeroed_zeroed]
      simp only [space_cons, length_cons, singleton_append, Prod.mk.injEq, and_true]
      omega

/-- The space of a dnode counts its blocks, in bytes or in sectors. -/
structure Booked (dn : SyncDnode) : Prop where
  /-- The space covers any allocated blocks. -/
  accounted : ∀ blocks : List (ℕ × ℕ), blocks.Nodup → (∀ block ∈ blocks, dn.Allocated block) →
    dn.space blocks ≤ dn.dnUsedBytes
  /-- The space is a 64-bit number. -/
  used_lt : dn.dnUsedBytes < 2 ^ 64
  /-- An old pool does not count in bytes. -/
  flag : dn.dnodeBytes = false → dn.usedBytesFlag = false
  /-- Its blocks are whole sectors. -/
  sectors : dn.dnodeBytes = false → ∀ level blkid, 2 ^ devBshift ∣ (dn.blkptr level blkid).dasize

/-- The change that killing some blocks makes. -/
structure Kills (dn : SyncDnode) (blocks : List (ℕ × ℕ)) (after : SyncDnode) : Prop where
  allocated : ∀ block ∈ blocks, dn.Allocated block
  nodup : blocks.Nodup
  blkptr_eq : ∀ level blkid, after.blkptr level blkid =
    if (level, blkid) ∈ blocks then FreeBlkptr.zero else dn.blkptr level blkid
  killed_eq : after.killed = dn.killed ++ blocks
  used_eq : after.dnUsedBytes + dn.space blocks = dn.dnUsedBytes
  flag_eq : dn.dnodeBytes = false → after.usedBytesFlag = dn.usedBytesFlag
  dnodeBytes_eq : after.dnodeBytes = dn.dnodeBytes
  nlevels_eq : after.dnNlevels = dn.dnNlevels
  nblkptr_eq : after.dnNblkptr = dn.dnNblkptr
  indblkshift_eq : after.dnIndblkshift = dn.dnIndblkshift
  maxblkid_eq : after.dnMaxblkid = dn.dnMaxblkid

namespace Kills

protected theorem refl (dn : SyncDnode) : Kills dn [] dn where
  allocated := by simp
  nodup := nodup_nil
  blkptr_eq := by simp
  killed_eq := by simp
  used_eq := by simp
  flag_eq := fun _ => rfl
  dnodeBytes_eq := rfl
  nlevels_eq := rfl
  nblkptr_eq := rfl
  indblkshift_eq := rfl
  maxblkid_eq := rfl

variable (kills : Kills dn blocks after)
include kills

theorem allocated_iff : after.Allocated block ↔ dn.Allocated block ∧ block ∉ blocks := by
  rw [Allocated, kills.blkptr_eq]
  by_cases member : block ∈ blocks
  · simp [member, FreeBlkptr.zero, FreeBlkptr.bpIsHole]
  · simp [member, Allocated]

theorem epbs_eq : after.epbs = dn.epbs := by rw [epbs, epbs, kills.indblkshift_eq]

theorem space_eq (apart : ∀ block ∈ later, block ∉ blocks) :
    after.space later = dn.space later := by
  refine congrArg sum (map_congr_left fun block member => ?_)
  rw [kills.blkptr_eq, if_neg (apart block member)]

/-- What is killed later was not killed before. -/
theorem trans (next : Kills after later mid) : Kills dn (blocks ++ later) mid := by
  have apart : ∀ block ∈ later, block ∉ blocks := fun block member =>
    (kills.allocated_iff.mp (next.allocated block member)).2
  constructor
  · intro block member
    rcases mem_append.mp member with first | second
    · exact kills.allocated block first
    · exact (kills.allocated_iff.mp (next.allocated block second)).1
  · exact nodup_append'.mpr ⟨kills.nodup, next.nodup, fun block first second =>
      apart block second first⟩
  · intro level blkid
    rw [next.blkptr_eq, kills.blkptr_eq]
    by_cases first : (level, blkid) ∈ blocks <;> simp [first]
  · rw [next.killed_eq, kills.killed_eq, append_assoc]
  · have second := next.used_eq
    rw [kills.space_eq apart] at second
    rw [space_append, ← kills.used_eq, ← second]
    omega
  · intro old
    rw [next.flag_eq (kills.dnodeBytes_eq.trans old), kills.flag_eq old]
  · exact next.dnodeBytes_eq.trans kills.dnodeBytes_eq
  · exact next.nlevels_eq.trans kills.nlevels_eq
  · exact next.nblkptr_eq.trans kills.nblkptr_eq
  · exact next.indblkshift_eq.trans kills.indblkshift_eq
  · exact next.maxblkid_eq.trans kills.maxblkid_eq

theorem booked (booked : Booked dn) : Booked after where
  accounted := by
    intro left nodup allocated
    have apart : ∀ block ∈ left, block ∉ blocks := fun block member =>
      (kills.allocated_iff.mp (allocated block member)).2
    have together : (blocks ++ left).Nodup := nodup_append'.mpr ⟨kills.nodup, nodup,
      fun block first second => apart block second first⟩
    have counted := booked.accounted (blocks ++ left) together (by
      intro block member
      rcases mem_append.mp member with first | second
      · exact kills.allocated block first
      · exact (kills.allocated_iff.mp (allocated block second)).1)
    rw [space_append, ← kills.used_eq] at counted
    rw [kills.space_eq apart]
    omega
  used_lt := by
    have := booked.used_lt
    have := kills.used_eq
    omega
  flag := by
    intro old
    rw [kills.dnodeBytes_eq] at old
    rw [kills.flag_eq old, booked.flag old]
  sectors := by
    intro old level blkid
    rw [kills.dnodeBytes_eq] at old
    rw [kills.blkptr_eq]
    split_ifs
    · exact dvd_zero _
    · exact booked.sectors old level blkid

end Kills

theorem dvd_space (booked : Booked dn) (old : dn.dnodeBytes = false) (blocks : List (ℕ × ℕ)) :
    2 ^ devBshift ∣ dn.space blocks := by
  refine dvd_sum fun size member => ?_
  obtain ⟨block, -, rfl⟩ := mem_map.mp member
  exact booked.sectors old _ _

/-- Giving back the space of zeroed blocks completes their killing. -/
theorem Booked.kills (booked : Booked dn) (nodup : blocks.Nodup)
    (allocated : ∀ block ∈ blocks, dn.Allocated block) :
    Kills dn blocks ((dn.zeroed blocks).dnodeDiduseSpace (dn.space blocks)) := by
  have fits := booked.accounted blocks nodup allocated
  have space_eq : sub64 (dn.zeroed blocks).dnUsedBytes (dn.space blocks) =
      dn.dnUsedBytes - dn.space blocks := sub64_eq fits booked.used_lt
  unfold dnodeDiduseSpace
  rw [space_eq]
  cases bytes : dn.dnodeBytes with
  | true =>
    have new : (dn.zeroed blocks).dnodeBytes = true := bytes
    rw [if_pos new]
    refine ⟨allocated, nodup, fun _ _ => rfl, rfl, ?_, ?_, rfl, rfl, rfl, rfl, rfl⟩
    · exact Nat.sub_add_cancel fits
    · simp [bytes]
  | false =>
    have old : ¬ (dn.zeroed blocks).dnodeBytes = true := by
      rw [show (dn.zeroed blocks).dnodeBytes = false from bytes]
      decide
    have in_sectors := booked.flag bytes
    rw [if_neg old]
    refine ⟨allocated, nodup, fun _ _ => rfl, rfl, ?_, fun _ => rfl, rfl, rfl, rfl, rfl, rfl⟩
    have whole : 2 ^ devBshift ∣ dn.dnUsedBytes - dn.space blocks := by
      refine Nat.dvd_sub ?_ (dvd_space booked bytes blocks)
      rw [dnUsedBytes, in_sectors, if_neg (by decide), Nat.shiftLeft_eq]
      exact dvd_mul_left _ _
    have used_after : ∀ used, ({ dn.zeroed blocks with dnUsed := used } : SyncDnode).dnUsedBytes =
        used <<< devBshift := fun used => by
      rw [dnUsedBytes, if_neg]
      rw [show ({ dn.zeroed blocks with dnUsed := used } : SyncDnode).usedBytesFlag = false from
        in_sectors]
      decide
    rw [used_after, Nat.shiftRight_eq_div_pow, Nat.shiftLeft_eq, Nat.div_mul_cancel whole]
    exact Nat.sub_add_cancel fits

/-- `free_blocks` kills the allocated blocks among those it is given. -/
theorem Booked.freeBlocks (booked : Booked dn) (level blkid num : ℕ) :
    Kills dn (dn.live level blkid num) (dn.freeBlocks level blkid num).2 := by
  have result : (dn.freeBlocks level blkid num).2 =
      (dn.zeroed (dn.live level blkid num)).dnodeDiduseSpace
        (dn.space (dn.live level blkid num)) := by
    rw [SyncDnode.freeBlocks, freeBlocksLoop_eq, Nat.zero_add]
  rw [result]
  exact booked.kills nodup_live fun block member => (mem_live.mp member).2.2.2

end SyncDnode

end Zfs
