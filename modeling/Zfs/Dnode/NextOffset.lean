import Zfs.Dnode.Levels

/-!
# The next data or hole of an object

`dmu_offset_next` looks for the next allocated block or the next hole of an object on disk.  The
search carries the offset inside a block along, and inside the indirect blocks that it could not
hold, so that it may come behind what it looks for.
-/

namespace Zfs

open LevelSearch SearchTree

namespace Dnode

variable (dn : Dnode) (phys : DnodePhys)

/-- `dmu_offset_next` of an object without dirty data. -/
def dmuOffsetNext (hole : Bool) (off : ℕ) : ℕ × ℕ :=
  dn.dnodeNextOffset phys ⟨hole, false⟩ off 1 1 0

/-- The number of pointers in an indirect block. -/
def epb : ℕ := 2 ^ dn.epbs

/-- The number of blocks that the tree of the object has room for. -/
def capacity : ℕ :=
  if phys.dnNlevels = 0 then 0 else phys.dnNblkptr * dn.epb ^ (phys.dnNlevels - 1)

/-- The block is allocated. -/
def Allocated (phys : DnodePhys) (blkid : ℕ) : Prop := 0 < (phys.blkptr 0 blkid).blkFill

/-- The offset lies in a hole or in an allocated block of the tree. -/
def Lies (hole : Bool) (off : ℕ) : Prop :=
  off / dn.dnDatablksz < dn.capacity phys ∧
    (Allocated phys (off / dn.dnDatablksz) ↔ hole = false)

/-- What `dmu_offset_next` should return. -/
def Answers (hole : Bool) (start : ℕ) (result : ℕ × ℕ) : Prop :=
  (∃ target, IsLeast {off | start ≤ off ∧ dn.Lies phys hole off} target ∧ result = (0, target)) ∨
  ((∀ off, start ≤ off → ¬ dn.Lies phys hole off) ∧ result.1 = esrch)

/-- The block tree of an object without dirty data. -/
structure FileTree : Prop where
  /-- `DN_MIN_INDBLKSHIFT`. -/
  le_indblkshift : 10 ≤ dn.dnIndblkshift
  /-- `DN_MAX_NBLKPTR`. -/
  nblkptr_le : phys.dnNblkptr ≤ 3
  /-- A data block counts once. -/
  fill_le : ∀ blkid, (phys.blkptr 0 blkid).blkFill ≤ 1
  /-- The fill count of a block is the number of the allocated blocks below it. -/
  fill_eq : ∀ level, level + 1 < phys.dnNlevels → ∀ blkid, (phys.blkptr (level + 1) blkid).blkFill =
    ∑ place ∈ Finset.range dn.epb, (phys.blkptr level (blkid * dn.epb + place)).blkFill
  /-- A block pointer that is used has a birth. -/
  birth_pos : ∀ level blkid, 0 < (phys.blkptr level blkid).blkFill →
    0 < (phys.blkptr level blkid).blkBirth
  /-- No block behind the last one is allocated. -/
  le_maxblkid : ∀ blkid, Allocated phys blkid → blkid ≤ dn.dnMaxblkid
  /-- The tree reaches to the last block. -/
  maxblkid_lt : phys.dnNlevels ≠ 0 → dn.dnMaxblkid < dn.capacity phys
  /-- An indirect block is on disk or cached, or `dbuf_hold_impl` says that it does not exist. -/
  hold : ∀ level blkid, phys.dbufHold level blkid = 0 ∨ phys.dbufHold level blkid = enoent
  /-- Reading does not fail. -/
  read : ∀ level blkid, phys.dbufRead level blkid = 0
  /-- A block with data below it exists. -/
  hold_of_fill : ∀ level blkid, 0 < level → level < phys.dnNlevels →
    0 < (phys.blkptr level blkid).blkFill → phys.dbufHold level blkid = 0
  /-- The block above one that exists does, too. -/
  hold_parent : ∀ level blkid, 0 < level → level + 1 < phys.dnNlevels →
    phys.dbufHold level blkid = 0 → phys.dbufHold (level + 1) (blkid / dn.epb) = 0
  /-- No block behind the end of the tree exists. -/
  hold_inside : ∀ level blkid, 0 < level → level < phys.dnNlevels →
    phys.dbufHold level blkid = 0 → (blkid + 1) * dn.epb ^ level ≤ dn.capacity phys

/-- The offset one pointer behind the tree has 64 bits.  A taller tree has levels whose span is no
shift of a 64-bit integer. -/
def Addressable : Prop :=
  (phys.dnNblkptr + 1) * dn.epb ^ (phys.dnNlevels - 1) * 2 ^ dn.dnDatablkshift ≤ 2 ^ 64

/-- The tree that the search sees. -/
def blockTree (hole : Bool) : SearchTree where
  height := phys.dnNlevels - 1
  roots := phys.dnNblkptr
  fan _ := dn.epb
  fan_pos _ := Nat.two_pow_pos _
  readable level blkid := phys.dbufHold level blkid == 0
  promising level blkid :=
    FindFlags.blkptrMatches ⟨hole, false⟩ (1 <<< (level * dn.epbs)) 0 (phys.blkptr level blkid)
  stops := hole

/-- One block of an odd size, where the search does not look. -/
def SeeksOddBlock (hole : Bool) (start : ℕ) : Prop :=
  if start < dn.dnDatablksz then Allocated phys 0 ∧ (hole = true → 1 < dn.capacity phys)
  else hole = true → dn.capacity phys ≤ start / dn.dnDatablksz

/-- A search for data comes to it: from its block or the front of one, past no block not held. -/
def SeeksData (start : ℕ) : Prop :=
  ∀ target, IsLeast {blkid | start / dn.dnDatablksz ≤ blkid ∧ Allocated phys blkid} target →
    target = start / dn.dnDatablksz ∨
      (start % dn.dnDatablksz = 0 ∧ ∀ level, level + 1 < phys.dnNlevels →
        phys.dbufHold (level + 1) (start / dn.dnDatablksz / dn.epb ^ (level + 1)) ≠ 0 →
          start / dn.dnDatablksz / dn.epb ^ level % dn.epb ≤ target / dn.epb ^ level % dn.epb)

/-- A search for a hole comes to it, or ends inside the tree. -/
def SeeksHole (start : ℕ) : Prop :=
  (∀ target, IsLeast {blkid | start / dn.dnDatablksz ≤ blkid ∧ blkid < dn.capacity phys ∧
      ¬ Allocated phys blkid} target →
    target = start / dn.dnDatablksz ∨ start % dn.dnDatablksz = 0) ∧
  ((∀ blkid, start / dn.dnDatablksz ≤ blkid → blkid < dn.capacity phys → Allocated phys blkid) →
    start / dn.dnDatablksz + ∑ level ∈ Finset.range (phys.dnNlevels - 2), dn.epb ^ (level + 1) <
      dn.capacity phys)

/-- A search from behind the tree that is right. -/
def SeeksBeyond (hole : Bool) (start : ℕ) : Prop :=
  if phys.dnNlevels = 1 then
    start / dn.dnDatablksz % dn.epb ≤ phys.dnNblkptr ∧
      ∀ blkid, start / dn.dnDatablksz % dn.epb ≤ blkid → blkid < phys.dnNblkptr →
        ¬ (Allocated phys blkid ↔ hole = false)
  else hole = false

/-- The starts from which `dmu_offset_next` is right. -/
def Seeks (hole : Bool) (start : ℕ) : Prop :=
  if phys.dnNlevels = 0 then True
  else if dn.dnDatablkshift = 0 then dn.SeeksOddBlock phys hole start
  else if start / dn.dnDatablksz < dn.capacity phys then
    if hole then dn.SeeksHole phys start else dn.SeeksData phys start
  else dn.SeeksBeyond phys hole start

variable {dn phys} {hole : Bool} {level blkid : ℕ}

theorem blockTree_size : (dn.blockTree phys hole).size level = dn.epb ^ level := by
  induction level with
  | zero => rfl
  | succ level ih => rw [size, ih, pow_succ]; rfl

theorem blockTree_node : (dn.blockTree phys hole).node level blkid = blkid / dn.epb ^ level := by
  unfold node
  rw [blockTree_size]

theorem epb_pow (level : ℕ) : dn.epb ^ level = 2 ^ (level * dn.epbs) := by
  rw [epb, ← pow_mul, Nat.mul_comm]

theorem blockTree_capacity (levels : phys.dnNlevels ≠ 0) :
    (dn.blockTree phys hole).capacity = dn.capacity phys := by
  rw [SearchTree.capacity, blockTree_size, capacity, if_neg levels]
  rfl

theorem promising_hole_iff : (dn.blockTree phys true).promising level blkid = true ↔
    (phys.blkptr level blkid).blkFill < (dn.blockTree phys true).size level := by
  have positive := (dn.blockTree phys true).size_pos level
  rw [blockTree_size, epb_pow, ← Nat.one_shiftLeft] at positive ⊢
  simp only [blockTree, FindFlags.blkptrMatches, if_true, decide_eq_true_eq]
  omega

theorem readable_iff : (dn.blockTree phys hole).readable level blkid = true ↔
    phys.dbufHold level blkid = 0 := beq_iff_eq

theorem div_add_mod_datablksz (dn : Dnode) (shift : dn.dnDatablkshift ≠ 0) (start : ℕ) :
    start / dn.dnDatablksz * 2 ^ dn.dnDatablkshift + start % dn.dnDatablksz = start ∧
    start % dn.dnDatablksz < 2 ^ dn.dnDatablkshift := by
  rw [← dn.datablksz_eq shift]
  exact ⟨Nat.div_add_mod' _ _, Nat.mod_lt _ dn.datablksz_pos⟩

namespace FileTree

variable (file : dn.FileTree phys)

include file

theorem counts (hole : Bool) : (dn.blockTree phys hole).Counts
    fun level blkid => (phys.blkptr level blkid).blkFill where
  leaf_le := file.fill_le
  node_eq level below := by
    change level < phys.dnNlevels - 1 at below
    exact file.fill_eq level (by omega)

theorem promising_data_iff (below : level ≤ phys.dnNlevels - 1) :
    (dn.blockTree phys false).promising level blkid = true ↔
      0 < (phys.blkptr level blkid).blkFill := by
  have le := (file.counts false).le_size below blkid
  rw [blockTree_size, epb_pow, ← Nat.one_shiftLeft] at le
  have birth := file.birth_pos level blkid
  simp only [blockTree, FindFlags.blkptrMatches, Bool.false_eq_true, if_false, Bool.and_eq_true,
    decide_eq_true_eq]
  constructor
  · rintro ⟨⟨fill, -⟩, -⟩
    exact fill
  · intro fill
    exact ⟨⟨fill, le⟩, birth fill⟩

theorem promising_zero_iff : (dn.blockTree phys hole).promising 0 blkid = true ↔
    (Allocated phys blkid ↔ hole = false) := by
  cases hole with
  | false => simpa [Allocated] using file.promising_data_iff (Nat.zero_le _)
  | true =>
    rw [promising_hole_iff, size, Allocated]
    simp only [Bool.true_eq_false, iff_false, Nat.not_lt, Nat.le_zero]
    exact Nat.lt_one_iff

theorem promising_zero_eq_false : (dn.blockTree phys hole).promising 0 blkid = false ↔
    ¬ (Allocated phys blkid ↔ hole = false) := by
  rw [← file.promising_zero_iff, Bool.not_eq_true]

theorem blocks (room : dn.Addressable phys) (hole : Bool) (shift : dn.dnDatablkshift ≠ 0)
    (levels : phys.dnNlevels ≠ 0) :
    BlockMirror dn phys ⟨hole, false⟩ (dn.blockTree phys hole) dn.dnDatablkshift where
  forward := rfl
  shift := shift
  nlevels := by
    change phys.dnNlevels = phys.dnNlevels - 1 + 1
    omega
  le_indblkshift := file.le_indblkshift
  nblkptr_le := file.nblkptr_le
  roots := rfl
  stops := rfl
  fan _ := rfl
  span level := by rw [blockTree_size, epb_pow, pow_add]
  hold := file.hold
  read := file.read
  readable _ _ := readable_iff
  promising _ _ := rfl
  room := by
    rw [blockTree_size]
    exact room

theorem hereditary : (dn.blockTree phys false).Hereditary := fun level below child => by
  rw [file.promising_data_iff below, (file.counts false).pos_iff below]
  simp only [file.promising_data_iff (Nat.zero_le _)]

theorem charted : (dn.blockTree phys false).Charted where
  passes := rfl
  promising_node _ below _ := file.hereditary.promising_node below
  readable_of_promising level below child promising := by
    change level < phys.dnNlevels - 1 at below
    rw [readable_iff]
    refine file.hold_of_fill (level + 1) child level.succ_pos (by omega) ?_
    exact (file.promising_data_iff (by omega)).mp promising
  readable_parent level below child readable := by
    change level + 1 < phys.dnNlevels - 1 at below
    rw [readable_iff] at readable ⊢
    exact file.hold_parent (level + 1) child level.succ_pos (by omega) readable

variable {start target position rest : ℕ}

/-- Beyond the tree nothing below the root is held. -/
theorem not_open_of_le (hole : Bool) (below : level < (dn.blockTree phys hole).height)
    (beyond : dn.capacity phys ≤ position) :
    ¬ (dn.blockTree phys hole).Open level position := by
  rintro (top | readable)
  · exact below.ne top
  · have below' : level < phys.dnNlevels - 1 := below
    have inside := file.hold_inside (level + 1) _ level.succ_pos (by omega)
      (readable_iff.mp readable)
    have within := node_lt_iff.mp
      (Nat.lt_add_one ((dn.blockTree phys hole).node (level + 1) position))
    rw [blockTree_size] at within
    omega

omit file in
theorem digits_iff :
    (∀ level < (dn.blockTree phys false).height, (dn.blockTree phys false).readable (level + 1)
        ((dn.blockTree phys false).node (level + 1) start) = false →
      (dn.blockTree phys false).digit level start ≤ (dn.blockTree phys false).digit level target) ↔
    ∀ level, level + 1 < phys.dnNlevels →
      phys.dbufHold (level + 1) (start / dn.epb ^ (level + 1)) ≠ 0 →
        start / dn.epb ^ level % dn.epb ≤ target / dn.epb ^ level % dn.epb := by
  have height_eq : (dn.blockTree phys false).height = phys.dnNlevels - 1 := rfl
  have digit_eq : ∀ level leaf, (dn.blockTree phys false).digit level leaf =
      leaf / dn.epb ^ level % dn.epb := by
    intro level leaf
    unfold digit
    rw [blockTree_node]
    rfl
  simp only [digit_eq, blockTree_node, Bool.eq_false_iff, ne_eq, readable_iff, height_eq,
    Nat.lt_sub_iff_add_lt]

/-- From beyond the tree the search comes to the root where it started. -/
theorem rise_beyond (beyond : dn.capacity phys ≤ position)
    (passes : hole = false ∨ phys.dnNlevels = 1) :
    ∀ level ≤ (dn.blockTree phys hole).height, (dn.blockTree phys hole).rise position level =
      position ∧ (dn.blockTree phys hole).FailsBelow position level := by
  intro level below
  induction level with
  | zero => exact ⟨rfl, failsBelow_zero _ _⟩
  | succ level ih =>
    obtain ⟨same, fails⟩ := ih (by omega)
    have step_eq := step_of_not_open (file.not_open_of_le hole below beyond)
    have not_stopping : (dn.blockTree phys hole).stops = false := by
      refine passes.resolve_right fun flat => ?_
      change level + 1 ≤ phys.dnNlevels - 1 at below
      omega
    rw [← same] at step_eq
    exact ⟨by rw [rise, step_eq, same], fails.succ (by rw [step_eq, not_stopping])⟩

theorem isLeast_offset
    (least : (dn.blockTree phys hole).LeastFrom (start / dn.dnDatablksz) target)
    (inside : target < dn.capacity phys) :
    IsLeast {off | start ≤ off ∧ dn.Lies phys hole off}
      (if target = start / dn.dnDatablksz then start else target * dn.dnDatablksz) := by
  have size_pos := dn.datablksz_pos
  have looked := file.promising_zero_iff.mp least.1.2
  constructor
  · split_ifs with here
    · rw [here] at inside looked
      exact ⟨le_rfl, inside, looked⟩
    · have beyond : start / dn.dnDatablksz < target :=
        lt_of_le_of_ne least.1.1 (Ne.symm here)
      refine ⟨((Nat.div_lt_iff_lt_mul size_pos).mp beyond).le, ?_⟩
      rw [Lies, Nat.mul_div_cancel _ size_pos]
      exact ⟨inside, looked⟩
  · rintro off ⟨from_, -, looked_off⟩
    have order := least.2 ⟨Nat.div_le_div_right from_, file.promising_zero_iff.mpr looked_off⟩
    split_ifs
    · exact from_
    · exact (Nat.le_div_iff_mul_le size_pos).mp order

variable (room : dn.Addressable phys) (shift : dn.dnDatablkshift ≠ 0) (levels : phys.dnNlevels ≠ 0)

include levels

theorem not_allocated_of_le (beyond : dn.capacity phys ≤ blkid) :
    ¬ Allocated phys blkid := by
  intro allocated
  have := file.le_maxblkid blkid allocated
  have := file.maxblkid_lt levels
  omega

theorem stopping : (dn.blockTree phys true).Stopping where
  stops := rfl
  hereditary level below child := by
    rw [promising_hole_iff, (file.counts true).lt_size_iff below]
    simp only [promising_hole_iff, size, Nat.lt_one_iff]
  promising_of_unreadable level below leaf unreadable := by
    have below' : level < phys.dnNlevels - 1 := below
    rw [promising_hole_iff, size, Nat.lt_one_iff]
    by_contra allocated
    have fill := ((file.counts true).pos_iff below).mpr ⟨leaf, rfl, Nat.pos_of_ne_zero allocated⟩
    have held := file.hold_of_fill (level + 1) _ level.succ_pos (by omega) fill
    exact Bool.eq_false_iff.mp unreadable (readable_iff.mpr held)
  outside leaf beyond := by
    rw [blockTree_capacity levels] at beyond
    rw [file.promising_zero_iff]
    simpa using file.not_allocated_of_le levels beyond

theorem node_rise_le (inside : start < dn.capacity phys) :
    ∀ level ≤ (dn.blockTree phys hole).height, (dn.blockTree phys hole).FailsBelow start level →
      (dn.blockTree phys hole).node (dn.blockTree phys hole).height
        ((dn.blockTree phys hole).rise start level) ≤ (dn.blockTree phys hole).roots := by
  intro level below fails
  refine node_rise_le_roots ?_ ?_ below fails
  · rwa [blockTree_capacity levels]
  · intro level _ below child readable
    change level < phys.dnNlevels - 1 at below
    rw [blockTree_capacity levels, blockTree_size]
    exact file.hold_inside (level + 1) child level.succ_pos (by omega) (readable_iff.mp readable)

/-- Beyond the tree the search among the pointers of the root does not wrap. -/
theorem top_fits {steps : ℕ} (three : 3 < dn.epb)
    (beyond : dn.capacity phys ≤ position) (small : rest < 2 ^ dn.dnDatablkshift)
    (fits : position * 2 ^ dn.dnDatablkshift + rest < 2 ^ 64)
    (within : position / dn.epb ^ (phys.dnNlevels - 1) % dn.epb + steps < phys.dnNblkptr) :
    (position + steps * dn.epb ^ (phys.dnNlevels - 1)) * 2 ^ dn.dnDatablkshift + rest < 2 ^ 64 := by
  have pointers := file.nblkptr_le
  have size_pos : 0 < dn.epb ^ (phys.dnNlevels - 1) := Nat.pow_pos (Nat.two_pow_pos _)
  have top_beyond : phys.dnNblkptr ≤ position / dn.epb ^ (phys.dnNlevels - 1) := by
    rw [Nat.le_div_iff_mul_le size_pos]
    rwa [capacity, if_neg levels] at beyond
  generalize top_eq : position / dn.epb ^ (phys.dnNlevels - 1) = top at within top_beyond
  have top_split : dn.epb * (top / dn.epb) + top % dn.epb = top := Nat.div_add_mod top dn.epb
  have wraps : 0 < top / dn.epb := by
    by_contra short
    rw [Nat.eq_zero_of_not_pos short] at top_split
    omega
  have starts : top / dn.epb * (dn.epb * dn.epb ^ (phys.dnNlevels - 1) *
      2 ^ dn.dnDatablkshift) < 2 ^ 64 := by
    refine lt_of_le_of_lt ?_ (lt_of_le_of_lt (Nat.le_add_right _ rest) fits)
    rw [← Nat.mul_assoc, ← Nat.mul_assoc]
    refine Nat.mul_le_mul_right _ ?_
    calc top / dn.epb * dn.epb * dn.epb ^ (phys.dnNlevels - 1)
        ≤ top * dn.epb ^ (phys.dnNlevels - 1) := Nat.mul_le_mul_right _ (Nat.div_mul_le_self _ _)
      _ ≤ position := by rw [← top_eq]; exact Nat.div_mul_le_self _ _
  refine offset_lt_of_node small ?_ starts ?_
  · have here : position < (top + 1) * dn.epb ^ (phys.dnNlevels - 1) := by
      rw [← Nat.div_lt_iff_lt_mul size_pos, top_eq]
      exact Nat.lt_succ_self top
    have ahead : top + 1 + steps ≤ (top / dn.epb + 1) * dn.epb := by
      rw [Nat.add_mul, Nat.mul_comm (top / dn.epb)]
      omega
    calc position + steps * dn.epb ^ (phys.dnNlevels - 1)
        < (top + 1 + steps) * dn.epb ^ (phys.dnNlevels - 1) := by
          rw [Nat.add_mul (top + 1)]
          omega
      _ ≤ (top / dn.epb + 1) * dn.epb * dn.epb ^ (phys.dnNlevels - 1) :=
        Nat.mul_le_mul_right _ ahead
      _ = _ := Nat.mul_assoc _ _ _
  · have less := (Nat.le_mul_of_pos_left _ wraps).trans_lt starts
    rw [← pow_succ', epb_pow, ← pow_add] at less ⊢
    exact Nat.pow_dvd_pow 2 ((Nat.pow_lt_pow_iff_right (by decide : 1 < 2)).mp less).le

include room shift

/-- When the search is right, given the least leaf. -/
theorem answers_iff_of_leastFrom
    (least : (dn.blockTree phys hole).LeastFrom (start / dn.dnDatablksz) target)
    (inside : target < dn.capacity phys) :
    dn.Answers phys hole start (dn.dmuOffsetNext phys hole start) ↔
      (dn.blockTree phys hole).search (start / dn.dnDatablksz) = (true, target) ∧
      (target = start / dn.dnDatablksz ∨ start % dn.dnDatablksz = 0) := by
  have start_inside : start / dn.dnDatablksz < dn.capacity phys := least.1.1.trans_lt inside
  have least_offset := file.isLeast_offset least inside
  have size_eq := dn.datablksz_eq shift
  obtain ⟨start_eq, small⟩ := dn.div_add_mod_datablksz shift start
  have reports := (file.blocks room hole shift levels).dnodeNextOffset_eq small
    (file.node_rise_le levels start_inside)
  rw [start_eq] at reports
  rw [Answers, Zfs.answers_iff_of_isLeast least_offset, dmuOffsetNext, reports.eq_iff]
  rw [size_eq] at small
  constructor
  · rintro ⟨leaf, reached, -, same⟩
    split_ifs at same with here
    · rw [here]
      obtain rfl : leaf = start / dn.dnDatablksz :=
        Nat.eq_of_mul_eq_mul_right (Nat.two_pow_pos dn.dnDatablkshift) (by omega)
      exact ⟨reached, Or.inl rfl⟩
    · rw [size_eq] at same reached ⊢
      have rest_eq : start % 2 ^ dn.dnDatablkshift = 0 := by
        have := congrArg (· % 2 ^ dn.dnDatablkshift) same
        simpa [Nat.mul_add_mod_of_lt small, Nat.mul_mod_left] using this
      rw [rest_eq, Nat.add_zero] at same
      obtain rfl := Nat.eq_of_mul_eq_mul_right (Nat.two_pow_pos _) same
      exact ⟨reached, Or.inr rest_eq⟩
  · rintro ⟨reached, right⟩
    refine ⟨target, reached, least.1.1, ?_⟩
    split_ifs with here
    · rw [here, start_eq]
    · rw [right.resolve_left here, Nat.add_zero, size_eq]

section

variable (inside : start / dn.dnDatablksz < dn.capacity phys)

include inside

theorem answers_iff_of_none
    (none_looked : ∀ blkid, start / dn.dnDatablksz ≤ blkid → blkid < dn.capacity phys →
      ¬ (Allocated phys blkid ↔ hole = false)) :
    dn.Answers phys hole start (dn.dmuOffsetNext phys hole start) ↔
      ((dn.blockTree phys hole).search (start / dn.dnDatablksz)).1 = false ∨
        ((dn.blockTree phys hole).search (start / dn.dnDatablksz)).2 < start / dn.dnDatablksz := by
  obtain ⟨start_eq, small⟩ := dn.div_add_mod_datablksz shift start
  have reports := (file.blocks room hole shift levels).dnodeNextOffset_eq small
    (file.node_rise_le levels inside)
  rw [start_eq] at reports
  rw [Answers, Zfs.answers_iff_of_none fun off from_ lies =>
    none_looked _ (Nat.div_le_div_right from_) lies.1 lies.2]
  exact reports.failed_iff

theorem answers_data_iff :
    dn.Answers phys false start (dn.dmuOffsetNext phys false start) ↔
      dn.SeeksData phys start := by
  have leastFrom_iff : ∀ target, (dn.blockTree phys false).LeastFrom (start / dn.dnDatablksz)
      target ↔ IsLeast {blkid | start / dn.dnDatablksz ≤ blkid ∧ Allocated phys blkid} target := by
    intro target
    simp only [LeastFrom, file.promising_zero_iff, iff_true]
  rcases isLeast_or_none (start / dn.dnDatablksz ≤ ·) (Allocated phys) with
    ⟨target, least⟩ | none_allocated
  · have target_inside : target < dn.capacity phys :=
      (file.le_maxblkid target least.1.2).trans_lt (file.maxblkid_lt levels)
    have leastFrom := (leastFrom_iff target).mpr least
    rw [file.answers_iff_of_leastFrom room shift levels leastFrom target_inside,
      file.charted.search_eq_iff_digit_le leastFrom (by rwa [blockTree_capacity levels])
        (file.hereditary.unblocked leastFrom), digits_iff]
    constructor
    · rintro ⟨digits, here | front⟩ other least_other
      · exact Or.inl (least_other.unique least ▸ here)
      · rw [least_other.unique least]
        exact Or.inr ⟨front, digits⟩
    · intro seeks
      rcases seeks target least with here | ⟨front, digits⟩
      · exact ⟨fun _ _ _ => by rw [here], Or.inl here⟩
      · exact ⟨digits, Or.inr front⟩
  · have missed := missed_of_none file.charted.passes fun leaf from_ => Bool.eq_false_iff.mpr
      fun promising => none_allocated leaf from_ ((file.promising_zero_iff.mp promising).mpr rfl)
    rw [file.answers_iff_of_none room shift levels inside
      fun blkid from_ _ looked => none_allocated blkid from_ (looked.mpr rfl)]
    refine iff_of_true missed fun target least => ?_
    exact absurd least.1.2 (none_allocated target least.1.1)

theorem answers_hole_iff :
    dn.Answers phys true start (dn.dmuOffsetNext phys true start) ↔ dn.SeeksHole phys start := by
  have stopping := file.stopping levels
  have promising_iff : ∀ blkid, (dn.blockTree phys true).promising 0 blkid = true ↔
      ¬ Allocated phys blkid := fun blkid => by simp [file.promising_zero_iff]
  rcases isLeast_or_none (start / dn.dnDatablksz ≤ ·)
    (fun blkid => blkid < dn.capacity phys ∧ ¬ Allocated phys blkid) with ⟨target, least⟩ | full
  · have leastFrom : (dn.blockTree phys true).LeastFrom (start / dn.dnDatablksz) target :=
      leastFrom_of_inside (fun leaf _ => promising_iff leaf) (by rwa [blockTree_capacity levels])
    rw [file.answers_iff_of_leastFrom room shift levels leastFrom least.1.2.1]
    have found := stopping.search_eq leastFrom (by
      rw [blockTree_capacity levels]
      exact least.1.2.1)
    constructor
    · rintro ⟨-, right⟩
      refine ⟨fun other least_other => ?_, fun full => ?_⟩
      · rwa [least_other.unique least]
      · exact absurd (full target least.1.1 least.1.2.1) least.1.2.2
    · intro seeks
      exact ⟨found, seeks.1 target least⟩
  · simp only [not_and, not_not] at full
    have tree_inside : start / dn.dnDatablksz < (dn.blockTree phys true).capacity := by
      rwa [blockTree_capacity levels]
    have tree_full : ∀ leaf, start / dn.dnDatablksz ≤ leaf →
        leaf < (dn.blockTree phys true).capacity →
          (dn.blockTree phys true).promising 0 leaf = false := by
      intro leaf from_ until_
      rw [blockTree_capacity levels] at until_
      exact Bool.eq_false_iff.mpr fun promising =>
        (promising_iff leaf).mp promising (full leaf from_ until_)
    rw [file.answers_iff_of_none room shift levels inside
        fun blkid from_ until_ looked => by simpa using looked.mp (full blkid from_ until_),
      stopping.missed_iff_of_full tree_full tree_inside, blockTree_capacity levels]
    simp only [blockTree_size]
    refine ⟨fun short => ⟨fun target least => ?_, fun _ => short⟩, fun seeks => seeks.2 full⟩
    exact absurd (full target least.1.1 least.1.2.1) least.1.2.2

end

/-- Behind a tree with indirect blocks a search for a hole stops at once. -/
theorem hole_beyond (bounded : start < 2 ^ 64)
    (beyond : dn.capacity phys ≤ start / dn.dnDatablksz) (seeks : hole ≠ false)
    (deep : phys.dnNlevels ≠ 1) :
    (dn.dnodeNextOffset phys ⟨hole, false⟩ start 1 1 0).1 = 0 := by
  obtain ⟨start_eq, small⟩ := dn.div_add_mod_datablksz shift start
  have blocks := file.blocks room hole shift levels
  have positive : 0 < (dn.blockTree phys hole).height := by
    change 0 < phys.dnNlevels - 1
    omega
  have closed := file.not_open_of_le hole positive beyond
  have stops : (dn.blockTree phys hole).stops = true := Bool.not_eq_false hole ▸ seeks
  have found := blocks.lower small (by rwa [start_eq]) positive
  rw [step_of_not_open closed, stops, spot, if_pos rfl, start_eq, Nat.mod_eq_of_lt bounded] at found
  obtain ⟨found_eq, -⟩ := blocks.dnodeNextOffset_of_found small (Nat.zero_le _)
    (fun lower order => by
      rw [Nat.le_zero.mp order, rise, start_eq]
      exact bounded)
    (failsBelow_zero _ _) (by rw [rise, start_eq]; exact found) (by rwa [start_eq])
  rw [← start_eq, found_eq _ rfl le_rfl]

theorem answers_beyond_iff (bounded : start < 2 ^ 64)
    (beyond : dn.capacity phys ≤ start / dn.dnDatablksz) :
    dn.Answers phys hole start (dn.dmuOffsetNext phys hole start) ↔
      dn.SeeksBeyond phys hole start := by
  obtain ⟨start_eq, small⟩ := dn.div_add_mod_datablksz shift start
  have none_lies : ∀ off, start ≤ off → ¬ dn.Lies phys hole off := by
    intro off from_ lies
    exact absurd lies.1 (not_lt.mpr (beyond.trans (Nat.div_le_div_right from_)))
  have blocks := file.blocks room hole shift levels
  have height_zero : phys.dnNlevels = 1 → (dn.blockTree phys hole).height = 0 := by
    intro flat
    change phys.dnNlevels - 1 = 0
    omega
  rw [Answers, Zfs.answers_iff_of_none none_lies, SeeksBeyond, dmuOffsetNext]
  by_cases passes : hole = false ∨ phys.dnNlevels = 1
  · have rise := file.rise_beyond beyond passes
    have fits : ∀ level ≤ (dn.blockTree phys hole).height,
        (dn.blockTree phys hole).rise (start / dn.dnDatablksz) level * 2 ^ dn.dnDatablkshift +
          start % dn.dnDatablksz < 2 ^ 64 := by
      intro level below
      rw [(rise level below).1, start_eq]
      exact bounded
    have top := blocks.top_beyond small (by rwa [start_eq]) fun steps within => by
      rw [blockTree_node] at within
      rw [blockTree_size]
      exact file.top_fits levels blocks.three_lt_epb beyond small (by rwa [start_eq]) within
    rw [← start_eq]
    split at top
    next matching =>
      refine iff_of_true (blocks.dnodeNextOffset_of_failed small fits (rise _ le_rfl).2 ?_) ?_
      · rwa [(rise _ le_rfl).1]
      · rw [start_eq]
        split
        next flat =>
          simp only [height_zero flat, node_zero, file.promising_zero_eq_false] at matching
          exact matching
        next deep => exact passes.resolve_right deep
    next not_matching =>
      obtain ⟨reached, order, fits_reached, found⟩ := top
      obtain ⟨found_eq, missed_eq⟩ := blocks.dnodeNextOffset_of_found small le_rfl fits
        (rise _ le_rfl).2 (by rwa [(rise _ le_rfl).1]) fits_reached
      split
      next flat =>
        rw [found_eq reached (by rw [height_zero flat]; rfl) order]
        simp only [height_zero flat, node_zero, file.promising_zero_eq_false] at not_matching
        rw [start_eq]
        exact iff_of_false zero_ne_esrch not_matching
      next deep =>
        refine iff_of_true (missed_eq (Or.inl ?_)) (passes.resolve_right deep)
        obtain ⟨below, height_succ⟩ : ∃ below, (dn.blockTree phys hole).height = below + 1 :=
          ⟨phys.dnNlevels - 2, by change phys.dnNlevels - 1 = _; omega⟩
        have closed : ¬ (dn.blockTree phys hole).Open below reached :=
          file.not_open_of_le hole (by omega) (beyond.trans order)
        have not_stopping : (dn.blockTree phys hole).stops = false := passes.resolve_right deep
        rw [height_succ, SearchTree.descend, step_of_not_open closed, not_stopping]
        rfl
  · rw [not_or] at passes
    rw [if_neg passes.2, file.hole_beyond room shift levels bounded beyond passes.1 passes.2]
    exact iff_of_false zero_ne_esrch passes.1

omit room shift in
theorem answers_oddBlock_iff (odd : dn.dnDatablkshift = 0) :
    dn.Answers phys hole start (dn.dmuOffsetNext phys hole start) ↔
      dn.SeeksOddBlock phys hole start := by
  have size_pos := dn.datablksz_pos
  have capacity_pos : 0 < dn.capacity phys := (Nat.zero_le _).trans_lt (file.maxblkid_lt levels)
  have only_first : ∀ off, dn.dnDatablksz ≤ off → ¬ Allocated phys (off / dn.dnDatablksz) := by
    intro off behind allocated
    have block := file.le_maxblkid _ allocated
    rw [dn.maxblkid_eq odd] at block
    have := Nat.div_pos behind size_pos
    omega
  rw [dmuOffsetNext, dnodeNextOffset, if_neg levels, if_pos odd, SeeksOddBlock]
  by_cases first : start < dn.dnDatablksz
  · have block_zero : ∀ {off}, off < dn.dnDatablksz → off / dn.dnDatablksz = 0 :=
      fun less => Nat.div_eq_of_lt less
    rw [if_pos first, if_pos first]
    constructor
    · rintro (⟨target, least, result⟩ | ⟨-, result⟩)
      · obtain ⟨⟨-, inside, looked⟩, lower⟩ := least
        cases hole with
        | false =>
          obtain rfl : start = target := congrArg Prod.snd result
          rw [block_zero first] at looked
          exact ⟨looked.mpr rfl, Bool.noConfusion⟩
        | true =>
          obtain rfl : dn.dnDatablksz = target := congrArg Prod.snd result
          rw [Nat.div_self size_pos] at inside
          refine ⟨by_contra fun free => ?_, fun _ => inside⟩
          have lies : dn.Lies phys true start := by
            rw [Lies, block_zero first]
            exact ⟨capacity_pos, iff_of_false free Bool.noConfusion⟩
          exact absurd (lower ⟨le_rfl, lies⟩) (not_le.mpr first)
      · exact absurd result zero_ne_esrch
    · rintro ⟨allocated, room⟩
      cases hole with
      | false =>
        refine Or.inl ⟨start, ⟨⟨le_rfl, ?_⟩, fun off lies => lies.1⟩, rfl⟩
        rw [Lies, block_zero first]
        exact ⟨capacity_pos, iff_of_true allocated rfl⟩
      | true =>
        refine Or.inl ⟨dn.dnDatablksz, ⟨⟨first.le, ?_⟩, ?_⟩, rfl⟩
        · have free := only_first dn.dnDatablksz le_rfl
          rw [Nat.div_self size_pos] at free
          rw [Lies, Nat.div_self size_pos]
          exact ⟨room rfl, iff_of_false free Bool.noConfusion⟩
        · rintro off ⟨-, -, looked⟩
          by_contra before
          rw [block_zero (not_le.mp before)] at looked
          exact Bool.noConfusion (looked.mp allocated)
  · rw [if_neg first, if_neg first]
    rw [not_lt] at first
    constructor
    · rintro (⟨target, -, result⟩ | ⟨none_lies, -⟩) is_hole
      · exact absurd (congrArg Prod.fst result).symm zero_ne_esrch
      · by_contra inside
        refine none_lies start le_rfl ⟨not_le.mp inside, ?_⟩
        rw [is_hole]
        exact iff_of_false (only_first start first) Bool.noConfusion
    · intro behind
      refine Or.inr ⟨?_, rfl⟩
      rintro off from_ ⟨inside, looked⟩
      have free := only_first off (first.trans from_)
      have is_hole : hole = true := by
        cases hole with
        | false => exact absurd (looked.mpr rfl) free
        | true => rfl
      exact absurd inside (not_lt.mpr ((behind is_hole).trans (Nat.div_le_div_right from_)))

end FileTree

/-- `dmu_offset_next` returns the least offset in data or in a hole exactly where the search comes
to it. -/
theorem dmu_offset_next_iff (file : dn.FileTree phys) (room : dn.Addressable phys) (hole : Bool)
    {start : ℕ} (bounded : start < 2 ^ 64) :
    dn.Answers phys hole start (dn.dmuOffsetNext phys hole start) ↔ dn.Seeks phys hole start := by
  unfold Seeks
  split
  next flat =>
    refine iff_of_true (Or.inr ⟨fun off _ lies => ?_, ?_⟩) trivial
    · have inside := lies.1
      rw [capacity, if_pos flat] at inside
      exact Nat.not_lt_zero _ inside
    · rw [dmuOffsetNext, dnodeNextOffset, if_pos flat]
  next levels =>
    split
    next odd => exact file.answers_oddBlock_iff levels odd
    next shift =>
      split
      next inside =>
        cases hole with
        | false => exact file.answers_data_iff room shift levels inside
        | true => exact file.answers_hole_iff room shift levels inside
      next beyond => exact file.answers_beyond_iff room shift levels bounded (not_lt.mp beyond)

/-- An object of two blocks of 512 bytes. -/
def twoBlocks : Dnode where
  dnDatablksz := 512
  dnDatablkshift := 9
  dnIndblkshift := 13
  dnMaxblkid := 1
  datablksz_pos := by decide
  datablksz_eq _ := rfl
  maxblkid_eq := by decide

/-- The second block is allocated and the first is a hole. -/
def secondAllocated : DnodePhys where
  dnNlevels := 1
  dnNblkptr := 3
  blkptr level blkid := if level = 0 ∧ blkid = 1 then ⟨1, 1⟩ else ⟨0, 0⟩
  slot _ _ := ⟨0, []⟩
  dbufHold _ _ := enoent
  dbufRead _ _ := 0

theorem secondAllocated_allocated_iff :
    Allocated secondAllocated blkid ↔ blkid = 1 := by
  by_cases second : blkid = 1 <;> simp [Allocated, secondAllocated, second]

theorem secondAllocated_fileTree : twoBlocks.FileTree secondAllocated where
  le_indblkshift := by decide
  nblkptr_le := by decide
  fill_le blkid := by
    simp only [secondAllocated]
    split <;> decide
  fill_eq level below := absurd below (by simp [secondAllocated])
  birth_pos level blkid := by
    simp only [secondAllocated]
    split <;> simp
  le_maxblkid blkid allocated := (secondAllocated_allocated_iff.mp allocated).le
  maxblkid_lt _ := by decide
  hold _ _ := Or.inr rfl
  read _ _ := rfl
  hold_of_fill level blkid positive below := absurd below (by simp [secondAllocated]; omega)
  hold_parent level blkid positive below := absurd below (by simp [secondAllocated])
  hold_inside level blkid positive below := absurd below (by simp [secondAllocated]; omega)

/-- From the front of the hole the search finds the data behind it. -/
theorem dmu_offset_next_front : twoBlocks.FileTree secondAllocated ∧
    twoBlocks.Answers secondAllocated false 0
      (twoBlocks.dmuOffsetNext secondAllocated false 0) := by
  refine ⟨secondAllocated_fileTree,
    (dmu_offset_next_iff secondAllocated_fileTree (by decide : _ ≤ _) false (by decide)).mpr ?_⟩
  have seeks : twoBlocks.SeeksData secondAllocated 0 := by
    intro target least
    exact Or.inr ⟨by decide, fun level below => absurd below (by simp [secondAllocated])⟩
  simpa [Seeks, secondAllocated, twoBlocks, capacity, epb, epbs] using seeks

/-- From inside the hole the search returns an offset as far inside the data, not its front. -/
theorem dmu_offset_next_inside : twoBlocks.FileTree secondAllocated ∧
    twoBlocks.dmuOffsetNext secondAllocated false 100 = (0, 612) ∧
    ¬ twoBlocks.Answers secondAllocated false 100
      (twoBlocks.dmuOffsetNext secondAllocated false 100) := by
  have result : twoBlocks.dmuOffsetNext secondAllocated false 100 = (0, 612) := by decide
  refine ⟨secondAllocated_fileTree, result, ?_⟩
  rw [result]
  rintro (⟨target, least, target_eq⟩ | ⟨-, failed⟩)
  · obtain rfl : 612 = target := congrArg Prod.snd target_eq
    have lies : twoBlocks.Lies secondAllocated false 512 :=
      ⟨by decide, iff_of_true (secondAllocated_allocated_iff.mpr rfl) rfl⟩
    exact absurd (least.2 ⟨by decide, lies⟩) (by decide)
  · exact absurd failed zero_ne_esrch

end Dnode

end Zfs
