import Zfs.Dnode.Code
import Zfs.Library.LeastLeaf

/-!
# The search of `dnode_next_offset` as a search in a tree

The leaves of the tree are the blocks of the object.  An offset is the number of a block and a rest
that the search never changes.
-/

namespace Zfs

open LevelSearch SearchTree Nat

/-- The error and the offset that a result of the search stands for. -/
def spot (unit rest : ℕ) (result : Bool × ℕ) : ℕ × ℕ :=
  (if result.1 then 0 else esrch, (result.2 * 2 ^ unit + rest) % 2 ^ 64)

theorem zero_ne_esrch : (0 : ℕ) ≠ esrch := by decide

variable {position rest level first lvl error : ℕ}

theorem offset_lt {unit count : ℕ} (small : rest < 2 ^ unit) (less : position < count)
    (room : count * 2 ^ unit ≤ 2 ^ 64) : position * 2 ^ unit + rest < 2 ^ 64 := by
  have := mul_le_mul_right (2 ^ unit) (succ_le_of_lt less)
  rw [succ_mul] at this
  omega

/-- An offset in a node that starts below the end of the address space. -/
theorem offset_lt_of_node {unit size node : ℕ} (small : rest < 2 ^ unit)
    (less : position < (node + 1) * size) (starts : node * (size * 2 ^ unit) < 2 ^ 64)
    (multiple : size * 2 ^ unit ∣ 2 ^ 64) : position * 2 ^ unit + rest < 2 ^ 64 := by
  refine offset_lt small less ?_
  obtain ⟨count, count_eq⟩ := multiple
  rw [count_eq, Nat.mul_comm _ count] at starts
  rw [count_eq, Nat.mul_assoc, Nat.mul_comm _ count]
  exact Nat.mul_le_mul_right _ (Nat.lt_of_mul_lt_mul_right starts)

section Least

variable {From Looked : ℕ → Prop} {target : ℕ} {result : ℕ × ℕ}

theorem isLeast_or_none (From Looked : ℕ → Prop) :
    (∃ target, IsLeast {place | From place ∧ Looked place} target) ∨
      ∀ place, From place → ¬ Looked place := by
  by_cases some_looked : ∃ place, From place ∧ Looked place
  · exact Or.inl ⟨_, Nat.sInf_mem some_looked, fun _ => Nat.sInf_le⟩
  · exact Or.inr fun place from_ looked => some_looked ⟨place, from_, looked⟩

theorem answers_iff_of_isLeast (least : IsLeast {place | From place ∧ Looked place} target) :
    (∃ target, IsLeast {place | From place ∧ Looked place} target ∧ result = (0, target)) ∨
      ((∀ place, From place → ¬ Looked place) ∧ result.1 = esrch) ↔ result = (0, target) := by
  constructor
  · rintro (⟨other, least_other, found⟩ | ⟨none_looked, -⟩)
    · rw [found, least_other.unique least]
    · exact absurd least.1.2 (none_looked target least.1.1)
  · intro found
    exact Or.inl ⟨target, least, found⟩

theorem answers_iff_of_none (none_looked : ∀ place, From place → ¬ Looked place) :
    (∃ target, IsLeast {place | From place ∧ Looked place} target ∧ result = (0, target)) ∨
      ((∀ place, From place → ¬ Looked place) ∧ result.1 = esrch) ↔ result.1 = esrch := by
  constructor
  · rintro (⟨target, least, -⟩ | ⟨-, failed⟩)
    · exact absurd least.1.2 (none_looked target least.1.1)
    · exact failed
  · exact fun failed => Or.inr ⟨none_looked, failed⟩

end Least

/-- A search returns the leaf it comes to, unless before the start. -/
structure Reports (start : ℕ) (value : ℕ → ℕ) (reached : Bool × ℕ) (result : ℕ × ℕ) : Prop where
  found : ∀ leaf, reached = (true, leaf) → start ≤ leaf → result = (0, value leaf)
  missed : reached.1 = false ∨ reached.2 < start → result.1 = esrch

namespace Reports

variable {start : ℕ} {value : ℕ → ℕ} {reached : Bool × ℕ} {result : ℕ × ℕ}
  (reports : Reports start value reached result)

include reports

theorem failed_iff : result.1 = esrch ↔ reached.1 = false ∨ reached.2 < start := by
  refine ⟨fun failed => ?_, reports.missed⟩
  obtain ⟨_ | _, leaf⟩ := reached
  · exact Or.inl rfl
  · refine Or.inr (not_le.mp fun ahead => ?_)
    rw [reports.found leaf rfl ahead] at failed
    exact zero_ne_esrch failed

theorem eq_iff {place : ℕ} : result = (0, place) ↔
    ∃ leaf, reached = (true, leaf) ∧ start ≤ leaf ∧ value leaf = place := by
  constructor
  · intro found
    have ahead : ¬ (reached.1 = false ∨ reached.2 < start) := by
      rw [← reports.failed_iff, found]
      exact zero_ne_esrch
    rw [not_or, Bool.not_eq_false, not_lt] at ahead
    refine ⟨reached.2, Prod.ext ahead.1 rfl, ahead.2, ?_⟩
    rw [reports.found _ (Prod.ext ahead.1 rfl) ahead.2] at found
    exact congrArg Prod.snd found
  · rintro ⟨leaf, same, ahead, rfl⟩
    exact reports.found leaf same ahead

end Reports

namespace FindFlags

variable {flags : FindFlags} {found : ℕ → Bool} {skip : ℕ → ℕ} {stride : ℕ}

variable (forward : flags.backwards = false)

include forward

section

variable (skip_eq : ∀ offset, skip offset = (offset + stride) % 2 ^ 64) {count left i offset : ℕ}
  (bounded : offset < 2 ^ 64) (passed : ∀ before < count, found (i + before) = false)

include skip_eq bounded passed

theorem scan_of_passed (short : count ≤ left) : flags.scan found skip left i offset =
    flags.scan found skip (left - count) (i + count) ((offset + count * stride) % 2 ^ 64) := by
  induction count generalizing left i offset with
  | zero => rw [zero_mul, add_zero, add_zero, mod_eq_of_lt bounded, Nat.sub_zero]
  | succ count ih =>
    obtain ⟨left, rfl⟩ := Nat.exists_eq_succ_of_ne_zero (ne_zero_of_lt short)
    have other : found i = false := passed 0 count.succ_pos
    rw [scan, if_neg (by simp [other]), forward, if_neg Bool.false_ne_true,
      ih (by rw [skip_eq]; exact mod_lt _ (by decide))
        (fun before less => by
          have := passed (before + 1) (by omega)
          rwa [← add_assoc, add_right_comm] at this)
        (le_of_succ_le_succ short),
      skip_eq, mod_add_mod, succ_mul, add_assoc offset, add_comm stride, add_assoc i,
      add_comm 1 count, succ_sub_succ]

theorem scan_of_match (short : count < left) (matching : found (i + count) = true) :
    flags.scan found skip left i offset = (0, (offset + count * stride) % 2 ^ 64) := by
  obtain ⟨rest, rest_eq⟩ := Nat.exists_eq_succ_of_ne_zero (sub_ne_zero_of_lt short)
  rw [scan_of_passed forward skip_eq bounded passed short.le, rest_eq, scan, if_pos matching]

theorem scan_of_no_match :
    flags.scan found skip count i offset = (esrch, (offset + count * stride) % 2 ^ 64) := by
  rw [scan_of_passed forward skip_eq bounded passed le_rfl, Nat.sub_self, scan]

end

/-- A loop over the entries of a node is the scan of the tree. -/
theorem scanFrom_eq_spot {tree : SearchTree} {count i unit : ℕ}
    (skip_eq : ∀ offset, skip offset = (offset + tree.size level * 2 ^ unit) % 2 ^ 64)
    (place : tree.node level position = first + i)
    (window : tree.childEnd level position = first + count) (inside : i ≤ count)
    (same : ∀ entry < count, found entry = tree.promising level (first + entry))
    (bounded : position * 2 ^ unit + rest < 2 ^ 64) :
    flags.scanFrom found skip count i (position * 2 ^ unit + rest) =
      spot unit rest (tree.scan level position) := by
  have landing : ∀ steps, (first + (i + steps)) * tree.size level + position % tree.size level =
      position + steps * tree.size level := by
    intro steps
    have here : tree.node level position * tree.size level + position % tree.size level =
        position := node_mul_add_mod
    rw [place] at here
    rw [← add_assoc, add_mul]
    omega
  have offset_eq : ∀ steps, position * 2 ^ unit + rest + steps * (tree.size level * 2 ^ unit) =
      (position + steps * tree.size level) * 2 ^ unit + rest := by
    intro steps
    ring
  rcases tree.first_or_exhausted level position with ⟨child, found_first⟩ | exhausted
  · have low := found_first.low
    have high := found_first.high
    obtain ⟨steps, rfl⟩ : ∃ steps, child = first + (i + steps) :=
      ⟨child - (first + i), by omega⟩
    rw [scanFrom, if_pos (by omega), forward, if_neg Bool.false_ne_true,
      scan_of_match forward skip_eq bounded ?_ (show steps < count - i by omega), offset_eq,
      scan_of_first found_first, landing]
    · rfl
    · rw [same _ (by omega)]
      exact found_first.promising
    · intro before less
      rw [same _ (by omega)]
      exact found_first.passed _ (by omega) (by omega)
  · obtain ⟨steps, rfl⟩ := Nat.exists_eq_add_of_le inside
    rw [scan_of_exhausted exhausted, window, landing]
    rcases Nat.eq_zero_or_pos steps with rfl | positive
    · rw [scanFrom, if_neg (by omega), if_pos (Nat.add_zero i).symm, spot]
      simp only [Nat.zero_mul, Nat.add_zero, Nat.mod_eq_of_lt bounded]
      rfl
    · rw [scanFrom, if_pos (by omega), forward, if_neg Bool.false_ne_true,
        scan_of_no_match forward skip_eq bounded, Nat.add_sub_cancel_left, offset_eq]
      · rfl
      · intro before less
        rw [same _ (by omega)]
        exact exhausted _ (by omega) (by omega)

end FindFlags

/-- The entry of an indirect block that an offset lies below. -/
theorem p2phase_offset {tree : SearchTree} {span shift unit : ℕ}
    (span_eq : 2 ^ span = tree.size level * 2 ^ unit) (small : rest < 2 ^ unit) :
    p2phase ((position * 2 ^ unit + rest) >>> span) (1 <<< shift) =
      tree.node level position % 2 ^ shift := by
  rw [p2phase_two_pow, Nat.shiftRight_eq_div_pow, span_eq, Nat.mul_comm (tree.size level),
    ← Nat.div_div_eq_div_mul, Nat.mul_comm position, Nat.mul_add_div (Nat.two_pow_pos unit),
    Nat.div_eq_of_lt small, Nat.add_zero]
  rfl

/-- A loop over block pointers is the scan of the tree. -/
theorem Dnode.scanBlkptrs_eq_spot {dn : Dnode} {phys : DnodePhys} {flags : FindFlags}
    {tree : SearchTree} {count unit : ℕ} (forward : flags.backwards = false)
    (span_eq : 2 ^ (level * dn.epbs + dn.dnDatablkshift) = tree.size level * 2 ^ unit)
    (small : rest < 2 ^ unit) (fits : position * 2 ^ unit + rest < 2 ^ 64)
    (place : tree.node level position = first + tree.node level position % 2 ^ dn.epbs)
    (window : tree.childEnd level position = first + count)
    (inside : tree.node level position % 2 ^ dn.epbs ≤ count)
    (same : ∀ entry < count, flags.blkptrMatches (1 <<< (level * dn.epbs)) 0
      (phys.blkptr level (first + entry)) = tree.promising level (first + entry)) :
    dn.scanBlkptrs phys flags first count (position * 2 ^ unit + rest) (level + 1) 1 0 =
      spot unit rest (tree.scan level position) := by
  simp only [Dnode.scanBlkptrs, Nat.add_sub_cancel, p2phase_offset span_eq small]
  refine FindFlags.scanFrom_eq_spot forward (fun offset => ?_) place window inside same fits
  rw [FindFlags.skipEntry, forward, if_neg Bool.false_ne_true, add64, one_shiftLeft, span_eq]

theorem Dnode.descend_of_ne_zero (dn : Dnode) (phys : DnodePhys) (flags : FindFlags) {offset : ℕ}
    (failed : error ≠ 0) : dn.descend phys flags 1 1 0 lvl offset error = (error, offset) := by
  cases lvl with
  | zero => rfl
  | succ lvl => rw [Dnode.descend, if_neg fun both => failed both.1]

/-- The tree is that of the blocks of an object. -/
structure BlockMirror (dn : Dnode) (phys : DnodePhys) (flags : FindFlags) (tree : SearchTree)
    (unit : ℕ) : Prop where
  /-- The search goes forward. -/
  forward : flags.backwards = false
  /-- The blocks have a power of two for a size. -/
  shift : dn.dnDatablkshift ≠ 0
  /-- The lowest indirect blocks are the nodes of the first level. -/
  nlevels : phys.dnNlevels = tree.height + 1
  /-- `DN_MIN_INDBLKSHIFT`. -/
  le_indblkshift : 10 ≤ dn.dnIndblkshift
  /-- `DN_MAX_NBLKPTR`. -/
  nblkptr_le : phys.dnNblkptr ≤ 3
  /-- The children of the root are the pointers of the dnode. -/
  roots : tree.roots = phys.dnNblkptr
  /-- A search for holes stops at a missing block. -/
  stops : tree.stops = flags.hole
  /-- A node has the pointers of a block below it. -/
  fan : ∀ level, tree.fan level = 2 ^ dn.epbs
  /-- A pointer of an indirect block spans a node of the tree. -/
  span : ∀ level, 2 ^ (level * dn.epbs + dn.dnDatablkshift) = tree.size level * 2 ^ unit
  /-- A block is there or does not exist. -/
  hold : ∀ level blkid, phys.dbufHold level blkid = 0 ∨ phys.dbufHold level blkid = enoent
  /-- Reading does not fail. -/
  read : ∀ level blkid, phys.dbufRead level blkid = 0
  /-- A node can be read if its block can be held. -/
  readable : ∀ level blkid, tree.readable (level + 1) blkid = true ↔
    phys.dbufHold (level + 1) blkid = 0
  /-- A node is promising if its pointer matches. -/
  promising : ∀ level blkid, flags.blkptrMatches (1 <<< (level * dn.epbs)) 0
    (phys.blkptr level blkid) = tree.promising level blkid
  /-- The offset one pointer behind the tree has 64 bits. -/
  room : (tree.roots + 1) * tree.size tree.height * 2 ^ unit ≤ 2 ^ 64

namespace BlockMirror

variable {dn : Dnode} {phys : DnodePhys} {flags : FindFlags} {tree : SearchTree} {unit : ℕ}
  (blocks : BlockMirror dn phys flags tree unit)

include blocks

theorem three_lt_epb : 3 < 2 ^ dn.epbs := by
  have shift : 3 ≤ dn.epbs := by
    have := blocks.le_indblkshift
    rw [Dnode.epbs, spaBlkptrshift]
    omega
  calc 3 < 2 ^ 3 := by decide
    _ ≤ 2 ^ dn.epbs := Nat.pow_le_pow_right (by decide) shift

theorem nlevels_ne_zero : phys.dnNlevels ≠ 0 := by
  rw [blocks.nlevels]
  exact succ_ne_zero _

theorem multiple : tree.size tree.height * 2 ^ unit ∣ 2 ^ 64 := by
  have room := blocks.room
  rw [Nat.mul_assoc, ← blocks.span] at room
  rw [← blocks.span]
  refine Nat.pow_dvd_pow 2 ((Nat.pow_le_pow_iff_right (by decide : 1 < 2)).mp ?_)
  exact (Nat.le_mul_of_pos_left _ (Nat.succ_pos _)).trans room

theorem level_root {offset : ℕ} :
    dn.dnodeNextOffsetLevel phys flags offset (tree.height + 1) 1 0 =
      dn.scanBlkptrs phys flags 0 tree.roots offset (tree.height + 1) 1 0 := by
  rw [Dnode.dnodeNextOffsetLevel, if_pos blocks.nlevels.symm, if_neg (succ_ne_zero _),
    blocks.roots]

section

variable (small : rest < 2 ^ unit)

include small

theorem blkid_eq :
    dn.dbufWhichblock (position * 2 ^ unit + rest) >>> (dn.epbs * (level + 1)) =
      tree.node (level + 1) position := by
  rw [Dnode.dbufWhichblock, if_neg blocks.shift, ← Nat.shiftRight_add,
    Nat.shiftRight_eq_div_pow, Nat.add_comm dn.dnDatablkshift, Nat.mul_comm dn.epbs, blocks.span,
    Nat.mul_comm (tree.size _), ← Nat.div_div_eq_div_mul, Nat.mul_comm position,
    Nat.mul_add_div (Nat.two_pow_pos unit), Nat.div_eq_of_lt small, Nat.add_zero]
  rfl

variable (fits : position * 2 ^ unit + rest < 2 ^ 64)

include fits

theorem lower (below : level < tree.height) :
    dn.dnodeNextOffsetLevel phys flags (position * 2 ^ unit + rest) (level + 1) 1 0 =
      spot unit rest (tree.step level position) := by
  have not_top : level ≠ tree.height := below.ne
  rw [Dnode.dnodeNextOffsetLevel, if_neg (by rw [blocks.nlevels]; omega)]
  simp only [blocks.blkid_eq small, blocks.read, ne_eq, not_true_eq_false, false_and, if_false,
    succ_ne_zero]
  by_cases open_ : tree.Open level position
  · have held := (blocks.readable _ _).mp (open_.resolve_left not_top)
    rw [step_of_open open_]
    simp only [held, not_true_eq_false, if_false]
    refine Dnode.scanBlkptrs_eq_spot blocks.forward (blocks.span level) small fits
      ?_ ?_ ?_ fun entry _ => blocks.promising level _
    · rw [shiftLeft_eq, ← blocks.fan level]
      exact node_eq_digit
    · rw [childEnd, if_neg not_top, shiftLeft_eq, Nat.one_shiftLeft, add_mul, one_mul,
        blocks.fan level]
    · rw [Nat.one_shiftLeft]
      exact (Nat.mod_lt _ (Nat.two_pow_pos _)).le
  · have missing := (blocks.hold (level + 1) (tree.node (level + 1) position)).resolve_left
      fun held => open_ (Or.inr ((blocks.readable _ _).mpr held))
    rw [step_of_not_open open_, spot, Nat.mod_eq_of_lt fits, blocks.stops]
    simp only [missing, not_true_eq_false, if_false]
    rw [if_pos (by decide)]
    cases flags.hole <;> rfl

theorem top (inside : tree.node tree.height position ≤ tree.roots) :
    dn.dnodeNextOffsetLevel phys flags (position * 2 ^ unit + rest) (tree.height + 1) 1 0 =
      spot unit rest (tree.step tree.height position) := by
  have small_index : tree.node tree.height position % 2 ^ dn.epbs =
      tree.node tree.height position := by
    refine mod_eq_of_lt ?_
    have := blocks.three_lt_epb
    have := blocks.nblkptr_le
    rw [blocks.roots] at inside
    omega
  rw [blocks.level_root, step_of_open (Or.inl rfl)]
  refine Dnode.scanBlkptrs_eq_spot blocks.forward (blocks.span _) small fits ?_ ?_ ?_
    fun entry _ => blocks.promising _ _
  · rw [small_index, zero_add]
  · rw [childEnd, if_pos rfl, zero_add]
  · rwa [small_index]

/-- The search at the root, whose index wraps beyond the tree. -/
theorem top_beyond
    (fits_steps : ∀ steps, tree.node tree.height position % 2 ^ dn.epbs + steps < tree.roots →
      (position + steps * tree.size tree.height) * 2 ^ unit + rest < 2 ^ 64) :
    if tree.node tree.height position % 2 ^ dn.epbs ≤ tree.roots ∧
        ∀ entry, tree.node tree.height position % 2 ^ dn.epbs ≤ entry → entry < tree.roots →
          tree.promising tree.height entry = false then
      (dn.dnodeNextOffsetLevel phys flags (position * 2 ^ unit + rest) (tree.height + 1) 1 0).1 =
        esrch
    else ∃ reached, position ≤ reached ∧ reached * 2 ^ unit + rest < 2 ^ 64 ∧
      dn.dnodeNextOffsetLevel phys flags (position * 2 ^ unit + rest) (tree.height + 1) 1 0 =
        (0, reached * 2 ^ unit + rest) := by
  have span := blocks.span tree.height
  have same := blocks.promising tree.height
  have skip_eq : ∀ offset, flags.skipEntry (tree.height * dn.epbs + dn.dnDatablkshift) offset =
      (offset + tree.size tree.height * 2 ^ unit) % 2 ^ 64 := by
    intro offset
    rw [FindFlags.skipEntry, blocks.forward, if_neg Bool.false_ne_true, add64, one_shiftLeft, span]
  have offset_eq : ∀ steps,
      position * 2 ^ unit + rest + steps * (tree.size tree.height * 2 ^ unit) =
      (position + steps * tree.size tree.height) * 2 ^ unit + rest := by
    intro steps
    ring
  simp only [blocks.level_root, Dnode.scanBlkptrs, Nat.add_sub_cancel, p2phase_offset span small,
    FindFlags.scanFrom]
  generalize tree.node tree.height position % 2 ^ dn.epbs = index at *
  rcases lt_trichotomy index tree.roots with before | at_end | behind
  · rw [if_pos before, blocks.forward, if_neg Bool.false_ne_true]
    by_cases some_match : ∃ steps, index + steps < tree.roots ∧
        tree.promising tree.height (index + steps) = true
    · obtain ⟨within, promising⟩ := Nat.find_spec some_match
      have passed : ∀ earlier < Nat.find some_match,
          tree.promising tree.height (index + earlier) = false := by
        intro earlier less
        have := Nat.find_min some_match less
        simpa [show index + earlier < tree.roots by omega] using this
      generalize Nat.find some_match = steps at within promising passed
      rw [if_neg fun none => by simp [none.2 _ (le_add_right _ _) within] at promising]
      refine ⟨_, le_add_right _ _, fits_steps steps within, ?_⟩
      rw [FindFlags.scan_of_match blocks.forward skip_eq fits ?_
        (by omega : steps < tree.roots - index), offset_eq,
        Nat.mod_eq_of_lt (fits_steps steps within)]
      · rw [zero_add, same]
        exact promising
      · intro earlier less
        rw [zero_add, same]
        exact passed earlier less
    · have none_match : ∀ steps, index + steps < tree.roots →
          tree.promising tree.height (index + steps) = false := by
        intro steps within
        by_contra promising
        exact some_match ⟨steps, within, by simpa using promising⟩
      rw [if_pos ⟨before.le, fun entry from_ until_ => by
        have := none_match (entry - index) (by omega)
        rwa [Nat.add_sub_cancel' from_] at this⟩]
      rw [FindFlags.scan_of_no_match blocks.forward skip_eq fits]
      intro steps less
      rw [zero_add, same]
      exact none_match steps (by omega)
  · rw [if_pos ⟨at_end.le, fun entry from_ until_ => by omega⟩, if_neg (by omega), if_pos at_end]
  · rw [if_neg fun inside => absurd inside.1 (by omega), if_neg (by omega), if_neg (by omega)]
    exact ⟨position, le_rfl, fits, rfl⟩

end

variable (small : rest < 2 ^ unit)

include small

theorem fits_of_node_le (inside : tree.node tree.height position ≤ tree.roots) :
    position * 2 ^ unit + rest < 2 ^ 64 :=
  offset_lt small (node_lt_iff.mp (lt_succ_of_le inside)) blocks.room

theorem fits_of_step_height (found : (tree.step tree.height position).1 = true) :
    (tree.step tree.height position).2 * 2 ^ unit + rest < 2 ^ 64 := by
  rw [step_of_open (Or.inl rfl)] at found ⊢
  rcases tree.first_or_exhausted tree.height position with ⟨child, first⟩ | exhausted
  · rw [scan_of_first first]
    refine blocks.fits_of_node_le small ?_
    have high := first.high
    rw [childEnd, if_pos rfl] at high
    rw [node_mul _ (tree.mod_size_lt _ _)]
    exact high.le
  · rw [scan_of_exhausted exhausted] at found
    exact absurd found Bool.false_ne_true

section

variable (fits : position * 2 ^ unit + rest < 2 ^ 64)

include fits

/-- A step that finds something below the root stays inside its node. -/
theorem fits_of_step (below : level < tree.height) (found : (tree.step level position).1 = true) :
    (tree.step level position).2 * 2 ^ unit + rest < 2 ^ 64 := by
  by_cases open_ : tree.Open level position
  · rw [step_of_open open_] at found ⊢
    rcases tree.first_or_exhausted level position with ⟨child, first⟩ | exhausted
    · rw [scan_of_first first]
      have less : child * tree.size level + position % tree.size level <
          (tree.node (level + 1) position + 1) * tree.size (level + 1) := by
        rw [← childEnd_of_lt below]
        have := mul_le_mul_right (tree.size level) (succ_le_of_lt first.high)
        have := tree.mod_size_lt level position
        rw [succ_mul] at *
        omega
      refine offset_lt_of_node small less ?_
        ((mul_dvd_mul_right (tree.size_dvd below) _).trans blocks.multiple)
      have := mul_le_mul_right (2 ^ unit)
        (node_mul_le : tree.node (level + 1) position * tree.size (level + 1) ≤ position)
      rw [← mul_assoc]
      omega
    · rw [scan_of_exhausted exhausted] at found
      exact absurd found Bool.false_ne_true
  · rwa [step_of_not_open open_]

/-- The way down in the block tree is the way down in the tree. -/
theorem descend_eq (below : level ≤ tree.height) :
    dn.descend phys flags 1 1 0 (level + 1) (position * 2 ^ unit + rest) 0 =
      spot unit rest (tree.descend level position) := by
  induction level generalizing position with
  | zero =>
    rw [zero_add, Dnode.descend, if_neg fun both => not_succ_le_self _ both.2, descend, spot,
      if_pos rfl, mod_eq_of_lt fits]
  | succ level ih =>
    have below' : level < tree.height := below
    rw [add_right_comm, Dnode.descend, if_pos ⟨rfl, le_add_left _ _⟩]
    simp only [blocks.lower small fits below']
    rw [descend]
    by_cases found : (tree.step level position).1 = true
    · have fits' := blocks.fits_of_step small fits below' found
      rw [if_pos found]
      simp only [spot, found, if_true, mod_eq_of_lt fits']
      exact ih fits' below'.le
    · rw [if_neg found]
      simp only [spot, found, if_false, Bool.false_eq_true]
      exact dn.descend_of_ne_zero phys flags (by decide)

theorem fits_of_descend {leaf : ℕ} (below : level ≤ tree.height)
    (found : tree.descend level position = (true, leaf)) : leaf * 2 ^ unit + rest < 2 ^ 64 := by
  induction level generalizing position with
  | zero =>
    obtain rfl : position = leaf := congrArg Prod.snd found
    exact fits
  | succ level ih =>
    rw [descend] at found
    by_cases found_here : (tree.step level position).1 = true
    · rw [if_pos found_here] at found
      exact ih (blocks.fits_of_step small fits below found_here) (by omega) found
    · rw [if_neg found_here] at found
      exact absurd (congrArg Prod.fst found) Bool.false_ne_true

end

variable {start : ℕ}

/-- The climb goes on as long as the steps in the tree find nothing. -/
theorem climb_eq (left : ℕ) (below : level ≤ tree.height)
    (fits : ∀ lower ≤ level, tree.rise start lower * 2 ^ unit + rest < 2 ^ 64)
    (fails : tree.FailsBelow start level) :
    dn.climb phys flags 1 0 (left + level) 1 (start * 2 ^ unit + rest) error =
      dn.climb phys flags 1 0 left (level + 1)
        (tree.rise start level * 2 ^ unit + rest) (if level = 0 then error else esrch) := by
  induction level generalizing left with
  | zero => rw [add_zero, zero_add, if_pos rfl, rise]
  | succ level ih =>
    have fits_here := fits (level + 1) le_rfl
    rw [← succ_add_eq_add_succ, ih (left + 1) (by omega)
      (fun lower order => fits lower (by omega))
      (fun lower order => fails lower (lt_succ_of_lt order)), Dnode.climb]
    simp only [blocks.lower small (fits level level.le_succ) below, spot,
      fails level (lt_succ_self level), Bool.false_eq_true, if_false, ne_eq, not_true_eq_false]
    rw [rise] at fits_here ⊢
    rw [mod_eq_of_lt fits_here, if_neg level.succ_ne_zero, add_right_comm]

/-- A search returns what the way down leads to. -/
theorem dnodeNextOffset_of_found (below : level ≤ tree.height)
    (fits : ∀ lower ≤ level, tree.rise start lower * 2 ^ unit + rest < 2 ^ 64)
    (fails : tree.FailsBelow start level)
    (found : dn.dnodeNextOffsetLevel phys flags (tree.rise start level * 2 ^ unit + rest)
      (level + 1) 1 0 = (0, position * 2 ^ unit + rest))
    (fits_found : position * 2 ^ unit + rest < 2 ^ 64) :
    Reports start (· * 2 ^ unit + rest) (tree.descend level position)
      (dn.dnodeNextOffset phys flags (start * 2 ^ unit + rest) 1 1 0) := by
  have levels : phys.dnNlevels = tree.height - level + 1 + level := by
    rw [blocks.nlevels]
    omega
  have climbs : dn.climb phys flags 1 0 phys.dnNlevels 1 (start * 2 ^ unit + rest) 0 =
      (0, level + 1, position * 2 ^ unit + rest) := by
    rw [levels, blocks.climb_eq small _ below fits fails, Dnode.climb]
    simp only [found]
    rw [if_pos zero_ne_esrch]
  rw [Dnode.dnodeNextOffset, if_neg blocks.nlevels_ne_zero, if_neg blocks.shift,
    Nat.add_sub_cancel, climbs, blocks.forward]
  simp only [Bool.false_eq_true, if_false, blocks.descend_eq small fits_found below]
  constructor
  · intro leaf reached order
    have fits_leaf := blocks.fits_of_descend small fits_found below reached
    have := mul_le_mul_right (2 ^ unit) order
    rw [reached, spot, if_pos rfl, mod_eq_of_lt fits_leaf, if_neg (by dsimp only; omega)]
  · intro missed
    rcases reached : tree.descend level position with ⟨_ | _, leaf⟩
    · simp [spot, esrch]
    · have before : leaf < start := by
        rw [reached] at missed
        exact missed.resolve_left Bool.noConfusion
      have fits_leaf := blocks.fits_of_descend small fits_found below reached
      have := Nat.mul_lt_mul_of_pos_right before (Nat.two_pow_pos unit)
      rw [spot, if_pos rfl, Nat.mod_eq_of_lt fits_leaf, if_pos ⟨rfl, by dsimp only; omega⟩]

theorem dnodeNextOffset_of_failed
    (fits : ∀ lower ≤ tree.height, tree.rise start lower * 2 ^ unit + rest < 2 ^ 64)
    (fails : tree.FailsBelow start tree.height)
    (failed : (dn.dnodeNextOffsetLevel phys flags (tree.rise start tree.height * 2 ^ unit + rest)
      (tree.height + 1) 1 0).1 = esrch) :
    (dn.dnodeNextOffset phys flags (start * 2 ^ unit + rest) 1 1 0).1 = esrch := by
  obtain ⟨offset, climbs⟩ : ∃ offset, dn.climb phys flags 1 0 phys.dnNlevels 1
      (start * 2 ^ unit + rest) 0 = (esrch, tree.height + 1 + 1, offset) := by
    have levels : phys.dnNlevels = 1 + tree.height := blocks.nlevels.trans (Nat.add_comm _ _)
    rw [levels, blocks.climb_eq small 1 le_rfl fits fails, Dnode.climb]
    simp only [failed, ne_eq, not_true_eq_false, if_false, Dnode.climb]
    exact ⟨_, rfl⟩
  rw [Dnode.dnodeNextOffset, if_neg blocks.nlevels_ne_zero, if_neg blocks.shift,
    Nat.add_sub_cancel, climbs]
  simp only [dn.descend_of_ne_zero phys flags zero_ne_esrch.symm]
  rw [if_neg fun both => absurd both.1 zero_ne_esrch.symm]

/-- What the search returns when the climb stays inside the tree. -/
theorem dnodeNextOffset_eq
    (inside : ∀ level ≤ tree.height, tree.FailsBelow start level →
      tree.node tree.height (tree.rise start level) ≤ tree.roots) :
    Reports start (· * 2 ^ unit + rest) (tree.search start)
      (dn.dnodeNextOffset phys flags (start * 2 ^ unit + rest) 1 1 0) := by
  have fits : ∀ level ≤ tree.height, tree.FailsBelow start level →
      ∀ lower ≤ level, tree.rise start lower * 2 ^ unit + rest < 2 ^ 64 :=
    fun level below fails lower order => blocks.fits_of_node_le small
      (inside lower (by omega) fun least order' => fails least (by omega))
  have level_eq : ∀ level ≤ tree.height, tree.FailsBelow start level →
      dn.dnodeNextOffsetLevel phys flags (tree.rise start level * 2 ^ unit + rest)
        (level + 1) 1 0 = spot unit rest (tree.step level (tree.rise start level)) := by
    intro level below fails
    have fits_here := fits level below fails level le_rfl
    rcases below.lt_or_eq with below' | rfl
    · exact blocks.lower small fits_here below'
    · exact blocks.top small fits_here (inside tree.height le_rfl fails)
  rcases tree.found_or_fails start with ⟨level, below, fails, found⟩ | fails
  · have fits_found : (tree.step level (tree.rise start level)).2 * 2 ^ unit + rest < 2 ^ 64 := by
      have fits_here := fits level below fails level le_rfl
      rcases below.lt_or_eq with below' | rfl
      · exact blocks.fits_of_step small fits_here below' found
      · exact blocks.fits_of_step_height small found
    have level_found := level_eq level below fails
    rw [spot, if_pos found, mod_eq_of_lt fits_found] at level_found
    rw [search_of_found below fails found]
    exact blocks.dnodeNextOffset_of_found small below (fits level below fails) fails level_found
      fits_found
  · have below_fails : tree.FailsBelow start tree.height :=
      fun lower order => fails lower (lt_succ_of_lt order)
    have failed := search_of_fails fails
    refine ⟨fun leaf reached _ => ?_, fun _ => ?_⟩
    · rw [reached] at failed
      exact absurd failed.symm Bool.false_ne_true
    · refine blocks.dnodeNextOffset_of_failed small (fits tree.height le_rfl below_fails)
        below_fails ?_
      rw [level_eq tree.height le_rfl below_fails, spot,
        fails tree.height (lt_succ_self _)]
      rfl

end BlockMirror

end Zfs
