import Zfs.Rlock.Code

/-!
# One more reader over a part of the tree

What the searches in the tree find, and what `zfs_range_add_reader` makes of the entries under the
range of the new lock.
-/

namespace Zfs

open CountedIntervals List Nat

/-- A range that is not empty and ends below the last 64-bit offset. -/
def ProperRange (off len : ℕ) : Prop := 0 < len ∧ off + len < 2 ^ 64

/-- What is known of every entry of the tree. -/
structure Rl.Entry (rl : Rl) : Prop where
  proper : ProperRange rl.rOff rl.rLen
  /-- It has a reference. -/
  counted : 0 < rl.rCnt
  /-- It is a reader or a writer. -/
  converted : rl.rType ≠ .append
  /-- A proxy is a reader. -/
  proxy : rl.owner = none → rl.rType = .reader
  /-- A lock of a caller has one reference. -/
  once : rl.owner ≠ none → rl.rCnt = 1

/-- The entries of a tree are disjoint, and in order. -/
structure Entries (tree : List Rl) : Prop where
  /-- The entries are in order. -/
  ordered : Ordered Rl.rOff Rl.rEnd tree
  /-- Each is as entries are. -/
  entry : ∀ rl ∈ tree, rl.Entry

/-- The number of readers over an offset. -/
abbrev cntAt (tree : List Rl) (x : ℕ) : ℕ := weightAt Rl.rOff Rl.rEnd Rl.rCnt tree x

/-- The locks that are their own entries. -/
def owners (tree : List Rl) : List ℕ := tree.filterMap Rl.owner

variable {tree old new before after : List Rl} {rl prev : Rl} {off len stop lo hi : ℕ}

theorem Rl.rEnd_eq (proper : ProperRange rl.rOff rl.rLen) : rl.rEnd = rl.rOff + rl.rLen :=
  add64_eq proper.2

theorem Rl.order (proper : ProperRange rl.rOff rl.rLen) : rl.rOff < rl.rEnd ∧ rl.rEnd < 2 ^ 64 := by
  rw [Rl.rEnd_eq proper]
  exact ⟨by have := proper.1; omega, proper.2⟩

theorem Rl.Entry.bounds (entry : rl.Entry) : rl.rOff < rl.rEnd ∧ rl.rEnd < 2 ^ 64 :=
  Rl.order entry.proper

theorem Entries.positive (entries : Entries tree) : ∀ rl ∈ tree, rl.rOff < rl.rEnd :=
  fun rl member => (entries.entry rl member).bounds.1

theorem entries_append : Entries (before ++ after) ↔ Entries before ∧ Entries after ∧
    ∀ first ∈ before, ∀ second ∈ after, first.rEnd ≤ second.rOff := by
  constructor
  · rintro ⟨ordered, entry⟩
    obtain ⟨ordered, ordered', apart⟩ := ordered_append.mp ordered
    obtain ⟨entry, entry'⟩ := forall_mem_append.mp entry
    exact ⟨⟨ordered, entry⟩, ⟨ordered', entry'⟩, apart⟩
  · rintro ⟨first, second, apart⟩
    exact ⟨ordered_append.mpr ⟨first.ordered, second.ordered, apart⟩,
      forall_mem_append.mpr ⟨first.entry, second.entry⟩⟩

theorem entries_singleton : Entries [rl] ↔ rl.Entry :=
  ⟨fun entries => entries.entry rl mem_cons_self,
    fun entry => ⟨pairwise_singleton _ _, forall_mem_singleton.mpr entry⟩⟩

theorem entries_cons : Entries (rl :: tree) ↔
    rl.Entry ∧ Entries tree ∧ ∀ other ∈ tree, rl.rEnd ≤ other.rOff := by
  rw [← singleton_append, entries_append, entries_singleton, forall_mem_singleton]

theorem cntAt_append (before after : List Rl) (x : ℕ) :
    cntAt (before ++ after) x = cntAt before x + cntAt after x := weightAt_append before after x

theorem owners_append (before after : List Rl) :
    owners (before ++ after) = owners before ++ owners after := filterMap_append

theorem owners_cons (rl : Rl) (tree : List Rl) :
    owners (rl :: tree) = rl.owner.toList ++ owners tree := by
  cases owned : rl.owner with
  | none => simp [owners, owned]
  | some id => simp [owners, owned]

/-- The entries that start before an offset end before the nearest one. -/
theorem Entries.nearestBefore (entries : Entries tree)
    (found : avlNearestBefore tree off = some prev) :
    prev ∈ tree ∧ prev.rOff < off ∧
    ∀ rl ∈ tree, rl.rOff < off → rl = prev ∨ rl.rEnd ≤ prev.rOff := by
  obtain ⟨earlier, split⟩ := getLast?_eq_some_iff.mp found
  have member : prev ∈ tree.filter fun rl => rl.rOff < off := by
    rw [split]
    exact mem_append_right _ mem_cons_self
  obtain ⟨member, starts⟩ := mem_filter.mp member
  refine ⟨member, by simpa using starts, fun rl member' starts' => ?_⟩
  have member' : rl ∈ earlier ++ [prev] := by
    rw [← split]
    exact mem_filter.mpr ⟨member', by simpa using starts'⟩
  have ordered : Ordered Rl.rOff Rl.rEnd (earlier ++ [prev]) := by
    rw [← split]
    exact entries.ordered.filter _
  rcases mem_append.mp member' with member' | member'
  · exact .inr ((ordered_append.mp ordered).2.2 rl member' prev mem_cons_self)
  · exact .inl (mem_singleton.mp member')

theorem nearestBefore_none (missing : avlNearestBefore tree off = none) :
    ∀ rl ∈ tree, off ≤ rl.rOff := by
  intro rl member
  have := filter_eq_nil_iff.mp (getLast?_eq_none_iff.mp missing) rl member
  simpa using this

theorem avlFind_some (found : avlFind tree off = some rl) : rl ∈ tree ∧ rl.rOff = off :=
  ⟨mem_of_find?_eq_some found, by simpa using find?_some found⟩

theorem avlFind_none (missing : avlFind tree off = none) : ∀ rl ∈ tree, rl.rOff ≠ off := by
  intro rl member
  simpa using find?_eq_none.mp missing rl member

theorem Entries.prevEntry_some (entries : Entries tree) (found : prevEntry tree off = some prev) :
    prev ∈ tree ∧ prev.rOff ≤ off ∧
    ∀ rl ∈ tree, rl.rOff ≤ off → rl = prev ∨ rl.rEnd ≤ prev.rOff := by
  unfold prevEntry at found
  cases exact_ : avlFind tree off with
  | some rl =>
    rw [exact_] at found
    obtain rfl := Option.some.inj found
    obtain ⟨member, at_off⟩ := avlFind_some exact_
    refine ⟨member, at_off.le, fun other member' starts => ?_⟩
    by_contra apart
    push Not at apart
    have := entries.positive rl member
    exact apart.1 (entries.ordered.eq_of_over member' member (x := rl.rOff) (by omega) (by omega))
  | none =>
    rw [exact_] at found
    obtain ⟨member, starts, earlier⟩ := entries.nearestBefore found
    refine ⟨member, starts.le, fun rl member' starts' => earlier rl member' ?_⟩
    exact lt_of_le_of_ne starts' (avlFind_none exact_ rl member')

theorem prevEntry_none (missing : prevEntry tree off = none) : ∀ rl ∈ tree, off < rl.rOff := by
  unfold prevEntry at missing
  intro rl member
  cases exact_ : avlFind tree off with
  | some rl =>
    rw [exact_] at missing
    cases missing
  | none =>
    rw [exact_] at missing
    have := avlFind_none exact_ rl member
    have := nearestBefore_none missing rl member
    omega

/-- The entry over an offset is the one that is found. -/
theorem Entries.prevEntry_over (entries : Entries tree) (member : rl ∈ tree)
    (inside : rl.rOff ≤ off ∧ off < rl.rEnd) : prevEntry tree off = some rl := by
  cases found : prevEntry tree off with
  | none =>
    have := prevEntry_none found rl member
    omega
  | some prev =>
    obtain ⟨_, _, earlier⟩ := entries.prevEntry_some found
    rcases earlier rl member inside.1 with rfl | ends
    · rfl
    · omega

/-- A writer that does not wait overlaps no entry. -/
theorem Entries.writer_free (entries : Entries tree) (free : writerConflict tree off len = none)
    (proper : ProperRange off len) : ∀ rl ∈ tree, rl.rEnd ≤ off ∨ off + len ≤ rl.rOff := by
  intro rl member
  unfold writerConflict at free
  cases exact_ : avlFind tree off with
  | some rl => simp [exact_] at free
  | none =>
    have elsewhere := avlFind_none exact_ rl member
    rw [exact_] at free
    cases next : (avlNearestAfter tree off).filter fun rl => rl.rOff < add64 off len with
    | some rl => simp [next] at free
    | none =>
      rw [next] at free
      rw [add64_eq proper.2] at next
      rcases lt_or_gt_of_ne elsewhere with starts | starts
      · left
        cases nearest : avlNearestBefore tree off with
        | none =>
          have := nearestBefore_none nearest rl member
          omega
        | some prev =>
          rw [nearest] at free
          have ends : ¬off < prev.rEnd := by simpa using free
          obtain ⟨_, _, earlier⟩ := entries.nearestBefore nearest
          rcases earlier rl member starts with rfl | _ <;> omega
      · right
        cases nearest : avlNearestAfter tree off with
        | none =>
          have := find?_eq_none.mp nearest rl member
          simp only [decide_eq_true_eq] at this
          omega
        | some first =>
          rw [nearest] at next
          have starts' : ¬first.rOff < off + len := by simpa using next
          obtain ⟨_, early, late, split, passed⟩ := find?_eq_some_iff_append.mp nearest
          rw [split] at member
          have ordered := entries.ordered
          rw [split] at ordered
          rcases mem_append.mp member with member | member
          · have := passed rl member
            simp only [Bool.not_eq_true', decide_eq_false_iff_not] at this
            omega
          · rcases mem_cons.mp member with rfl | member
            · omega
            · have := (pairwise_cons.mp (ordered_append.mp ordered).2.1).1 rl member
              have := entries.positive first (by rw [split]; simp)
              omega

theorem scanNext_none {rest : List Rl} (ordered : Ordered Rl.rOff Rl.rEnd rest)
    (positive : ∀ rl ∈ rest, rl.rOff < rl.rEnd) (free : scanNext stop rest = none) :
    ∀ rl ∈ rest, rl.rOff < stop → readerBlocked rl = false := by
  induction rest with
  | nil => nofun
  | cons next rest ih =>
    obtain ⟨behind, ordered⟩ := pairwise_cons.mp ordered
    intro rl member starts
    rw [scanNext] at free
    split_ifs at free with reached blocked ends
    · rcases mem_cons.mp member with rfl | member
      · omega
      · have := behind rl member
        have := positive next mem_cons_self
        omega
    · rcases mem_cons.mp member with rfl | member
      · simpa using blocked
      · have := behind rl member
        omega
    · rcases mem_cons.mp member with rfl | member
      · simpa using blocked
      · exact ih ordered (fun rl member => positive rl (.tail _ member)) free rl member starts

/-- A reader that does not wait overlaps readers only, for which no writer waits. -/
theorem Entries.reader_free (entries : Entries tree) (free : readerConflict tree off len = none)
    (proper : ProperRange off len) :
    ∀ rl ∈ tree, off < rl.rEnd → rl.rOff < off + len → readerBlocked rl = false := by
  intro rl member ends starts
  unfold readerConflict at free
  rw [add64_eq proper.2] at free
  cases found : prevEntry tree off with
  | none =>
    rw [found] at free
    have later := prevEntry_none found rl member
    exact scanNext_none (entries.ordered.filter _)
      (fun rl member => entries.positive rl (mem_filter.mp member).1) free rl
      (mem_filter.mpr ⟨member, by simpa using later⟩) starts
  | some prev =>
    rw [found] at free
    obtain ⟨prev_member, prev_starts, earlier⟩ := entries.prevEntry_some found
    have is_prev_or_later : rl = prev ∨ off < rl.rOff := by
      by_contra neither
      push Not at neither
      rcases earlier rl member neither.2 with same | _
      · exact neither.1 same
      · omega
    have by_scan (later : off < rl.rOff)
        (free : scanNext (off + len) (tree.filter fun rl => prev.rOff < rl.rOff) = none) :
        readerBlocked rl = false :=
      scanNext_none (entries.ordered.filter _)
        (fun rl member => entries.positive rl (mem_filter.mp member).1) free rl
        (mem_filter.mpr ⟨member, by simp only [decide_eq_true_eq]; omega⟩) starts
    dsimp only at free
    split_ifs at free with reaches blocked inside
    · rcases is_prev_or_later with rfl | later
      · simpa using blocked
      · -- the entry found holds the whole range
        have same := entries.ordered.eq_of_over prev_member member (x := rl.rOff) (by omega)
          ⟨le_rfl, entries.positive rl member⟩
        subst same
        simpa using blocked
    · rcases is_prev_or_later with rfl | later
      · simpa using blocked
      · exact by_scan later free
    · rcases is_prev_or_later with rfl | later
      · omega
      · exact by_scan later free

@[simp]
theorem proxify_rOff (rl : Rl) : (proxify rl).rOff = rl.rOff := by
  unfold proxify
  split <;> rfl

@[simp]
theorem proxify_rLen (rl : Rl) : (proxify rl).rLen = rl.rLen := by
  unfold proxify
  split <;> rfl

@[simp]
theorem proxify_owner (rl : Rl) : (proxify rl).owner = none := by
  unfold proxify
  split
  · assumption
  · rfl

theorem Rl.Entry.proxify_rCnt (entry : rl.Entry) : (proxify rl).rCnt = rl.rCnt := by
  unfold proxify
  split
  · rfl
  · rename_i owned
    exact (entry.once (by simp [owned])).symm

theorem Rl.Entry.proxify_rType (entry : rl.Entry) : (proxify rl).rType = .reader := by
  unfold proxify
  split
  · exact entry.proxy ‹_›
  · rfl

theorem Rl.Entry.part (entry : rl.Entry) {part : Rl} (unowned : part.owner = none)
    (reader : part.rType = .reader) (counted : 0 < part.rCnt)
    (ends : part.rOff + part.rLen ≤ rl.rEnd) (positive : 0 < part.rLen) : part.Entry where
  proper := ⟨positive, by have := entry.bounds; omega⟩
  counted := counted
  converted := by
    rw [reader]
    decide
  proxy _ := reader
  once owned := absurd unowned owned

theorem newProxy_entry (order : lo < hi) (bound : hi < 2 ^ 64) :
    (newProxy lo (sub64 hi lo)).Entry ∧ (newProxy lo (sub64 hi lo)).rEnd = hi := by
  rw [sub64_eq order.le bound]
  have proper : ProperRange lo (hi - lo) := ⟨by omega, by omega⟩
  refine ⟨⟨proper, one_pos, nofun, fun _ => rfl, fun owned => absurd rfl owned⟩, ?_⟩
  rw [Rl.rEnd_eq proper]
  exact Nat.add_sub_cancel' order.le

/-- The two parts of an entry that is split. -/
structure Rl.Parts (rl : Rl) (x : ℕ) : Prop where
  front : (splitFront rl x).Entry
  front_rEnd : (splitFront rl x).rEnd = x
  front_rCnt : (splitFront rl x).rCnt = rl.rCnt
  rear : (splitRear rl x).Entry
  rear_rEnd : (splitRear rl x).rEnd = rl.rEnd

@[simp]
theorem splitFront_rOff (rl : Rl) (x : ℕ) : (splitFront rl x).rOff = rl.rOff := proxify_rOff rl

@[simp]
theorem splitFront_owner (rl : Rl) (x : ℕ) : (splitFront rl x).owner = none := proxify_owner rl

theorem Rl.Entry.parts (entry : rl.Entry) {x : ℕ} (starts : rl.rOff < x) (ends : x < rl.rEnd) :
    rl.Parts x := by
  have bounds := entry.bounds
  have front_rLen : (splitFront rl x).rLen = x - rl.rOff := sub64_eq starts.le (by omega)
  have rear_rLen : (splitRear rl x).rLen = rl.rEnd - x := sub64_eq ends.le bounds.2
  have front_rCnt : (splitFront rl x).rCnt = rl.rCnt := entry.proxify_rCnt
  have rear_rOff : (splitRear rl x).rOff = x := rfl
  have front : (splitFront rl x).Entry := by
    apply entry.part (splitFront_owner rl x) entry.proxify_rType
    · rw [front_rCnt]
      exact entry.counted
    · rw [splitFront_rOff, front_rLen]
      omega
    · omega
  have rear : (splitRear rl x).Entry :=
    entry.part rfl rfl entry.counted (by omega) (by omega)
  refine ⟨front, ?_, front_rCnt, rear, ?_⟩
  · rw [Rl.rEnd_eq front.proper, splitFront_rOff, front_rLen]
    omega
  · rw [Rl.rEnd_eq rear.proper]
    omega

theorem Rl.Entry.bump (entry : rl.Entry) (unowned : rl.owner = none) (room : rl.rCnt + 1 < 2 ^ 32) :
    (bump rl).Entry ∧ (Zfs.bump rl).rCnt = rl.rCnt + 1 := by
  have counted : (Zfs.bump rl).rCnt = rl.rCnt + 1 := mod_eq_of_lt room
  exact ⟨⟨entry.proper, by omega, entry.converted, entry.proxy, fun owned => absurd unowned owned⟩,
    counted⟩

/-- The entries before and after one more reader of a range. -/
structure Adds (off stop lo hi : ℕ) (old new : List Rl) (proxied : List ℕ) : Prop where
  /-- The entries were in the window. -/
  within_old : ∀ rl ∈ old, lo ≤ rl.rOff ∧ rl.rEnd ≤ hi
  /-- They still are. -/
  within_new : ∀ rl ∈ new, lo ≤ rl.rOff ∧ rl.rEnd ≤ hi
  /-- The new ones are in order. -/
  entries : Entries new
  /-- One reference is added in the range. -/
  counts : ∀ x, cntAt new x =
    cntAt old x + if lo ≤ x ∧ x < hi ∧ off ≤ x ∧ x < stop then 1 else 0
  /-- An entry is a part of an earlier one, or lies in a gap. -/
  refines : ∀ rl ∈ new, (∃ whole ∈ old, whole.rOff ≤ rl.rOff ∧ rl.rEnd ≤ whole.rEnd) ∨
    ∀ x, rl.rOff ≤ x → x < rl.rEnd → cntAt old x = 0
  /-- No entry reaches over an end of the range. -/
  cut : Cut Rl.rOff Rl.rEnd new off ∧ Cut Rl.rOff Rl.rEnd new stop
  /-- Owners stay, unless a proxy replaces them. -/
  owners : (proxied ++ owners new).Perm (owners old)
  /-- A lock of a caller was there before. -/
  owned : ∀ rl ∈ new, rl.owner ≠ none → rl ∈ old
  /-- It stays, or a proxy replaces it. -/
  kept : ∀ rl ∈ old, ∀ id, rl.owner = some id → rl ∈ new ∨ id ∈ proxied
  /-- Only readers are replaced. -/
  readers : ∀ id ∈ proxied, ∃ rl ∈ old, rl.owner = some id ∧ rl.rType = .reader

section

variable {proxied : List ℕ}

theorem Adds.keep (entries : Entries old) (within : ∀ rl ∈ old, lo ≤ rl.rOff ∧ rl.rEnd ≤ hi)
    (order : off ≤ stop) (apart : hi ≤ off ∨ stop ≤ lo ∨ hi ≤ lo) :
    Adds off stop lo hi old old [] where
  within_old := within
  within_new := within
  entries := entries
  counts x := by rw [if_neg (by omega), add_zero]
  refines rl member := .inl ⟨rl, member, le_rfl, le_rfl⟩
  cut := by
    constructor
    all_goals
      intro rl member
      have := within rl member
      have := entries.positive rl member
      omega
  owners := .refl _
  owned rl member _ := member
  kept rl member _ _ := .inl member
  readers := nofun

theorem Adds.append {mid : ℕ} {old' new' : List Rl} {proxied' : List ℕ}
    (first : Adds off stop lo mid old new proxied)
    (second : Adds off stop mid hi old' new' proxied') (order : lo ≤ mid) (order' : mid ≤ hi) :
    Adds off stop lo hi (old ++ old') (new ++ new') (proxied ++ proxied') where
  within_old := forall_mem_append.mpr
    ⟨fun rl member => (first.within_old rl member).imp_right order'.trans',
      fun rl member => (second.within_old rl member).imp_left order.trans⟩
  within_new := forall_mem_append.mpr
    ⟨fun rl member => (first.within_new rl member).imp_right order'.trans',
      fun rl member => (second.within_new rl member).imp_left order.trans⟩
  entries := by
    refine entries_append.mpr ⟨first.entries, second.entries, fun rl member rl' member' => ?_⟩
    exact (first.within_new rl member).2.trans (second.within_new rl' member').1
  counts x := by
    have front := first.counts x
    have rear := second.counts x
    rw [cntAt_append, cntAt_append]
    split_ifs at front rear ⊢ <;> omega
  refines := by
    intro rl member
    rcases mem_append.mp member with member | member
    · rcases first.refines rl member with ⟨whole, member', inside⟩ | gap
      · exact .inl ⟨whole, mem_append_left _ member', inside⟩
      · refine .inr fun x lower upper => ?_
        rw [cntAt_append, gap x lower upper, cntAt, weightAt_eq_zero]
        intro other member'
        have := second.within_old other member'
        have := first.within_new rl member
        omega
    · rcases second.refines rl member with ⟨whole, member', inside⟩ | gap
      · exact .inl ⟨whole, mem_append_right _ member', inside⟩
      · refine .inr fun x lower upper => ?_
        rw [cntAt_append, gap x lower upper, cntAt, weightAt_eq_zero]
        intro other member'
        have := first.within_old other member'
        have := second.within_new rl member
        omega
  cut := ⟨forall_mem_append.mpr ⟨first.cut.1, second.cut.1⟩,
    forall_mem_append.mpr ⟨first.cut.2, second.cut.2⟩⟩
  owners := by
    rw [owners_append, owners_append]
    refine Perm.trans ?_ (first.owners.append second.owners)
    rw [append_assoc, append_assoc]
    refine Perm.append_left _ ?_
    rw [← append_assoc, ← append_assoc]
    exact perm_append_comm.append_right _
  owned := forall_mem_append.mpr
    ⟨fun rl member owned => mem_append_left _ (first.owned rl member owned),
      fun rl member owned => mem_append_right _ (second.owned rl member owned)⟩
  kept := by
    intro rl member id owned
    rw [mem_append, mem_append]
    rcases mem_append.mp member with member | member
    · exact (first.kept rl member id owned).imp .inl .inl
    · exact (second.kept rl member id owned).imp .inr .inr
  readers := by
    intro id member
    rcases mem_append.mp member with member | member
    · obtain ⟨rl, member', rest⟩ := first.readers id member
      exact ⟨rl, mem_append_left _ member', rest⟩
    · obtain ⟨rl, member', rest⟩ := second.readers id member
      exact ⟨rl, mem_append_right _ member', rest⟩

theorem Adds.gap (order : lo < hi) (starts : off ≤ lo) (ends : hi ≤ stop) (bound : hi < 2 ^ 64) :
    Adds off stop lo hi [] [newProxy lo (sub64 hi lo)] [] := by
  obtain ⟨entry, rEnd_eq⟩ := newProxy_entry order bound
  have rOff_eq : (newProxy lo (sub64 hi lo)).rOff = lo := rfl
  constructor
  case within_old => simp
  case within_new => exact forall_mem_singleton.mpr ⟨le_rfl, rEnd_eq.le⟩
  case entries => exact entries_singleton.mpr entry
  case counts =>
    intro x
    rw [cntAt, weightAt, weightAt, rEnd_eq, rOff_eq]
    by_cases inside : lo ≤ x ∧ x < hi
    · rw [if_pos inside, if_pos (by omega)]
      rfl
    · rw [if_neg inside, if_neg (by omega)]
      rfl
  case refines => exact fun rl _ => .inr fun _ _ _ => rfl
  case cut =>
    exact ⟨forall_mem_singleton.mpr (by omega), forall_mem_singleton.mpr (by omega)⟩
  case owners => exact .refl _
  case owned => exact forall_mem_singleton.mpr fun owned => absurd rfl owned
  case kept => simp
  case readers => simp

/-- What a list of proxies over one reader has to be. -/
theorem Adds.single (reader : rl.rType = .reader)
    (within : ∀ part ∈ new, rl.rOff ≤ part.rOff ∧ part.rEnd ≤ rl.rEnd)
    (unowned : ∀ part ∈ new, part.owner = none) (entries : Entries new)
    (counts : ∀ x, cntAt new x =
      cntAt [rl] x + if rl.rOff ≤ x ∧ x < rl.rEnd ∧ off ≤ x ∧ x < stop then 1 else 0)
    (cut : Cut Rl.rOff Rl.rEnd new off ∧ Cut Rl.rOff Rl.rEnd new stop) :
    Adds off stop rl.rOff rl.rEnd [rl] new rl.owner.toList where
  within_old := forall_mem_singleton.mpr ⟨le_rfl, le_rfl⟩
  within_new := within
  entries := entries
  counts := counts
  refines part member := .inl ⟨rl, mem_singleton_self rl, within part member⟩
  cut := cut
  owners := by
    have none_left : Zfs.owners new = [] := filterMap_eq_nil_iff.mpr unowned
    rw [none_left, owners_cons]
    exact .refl _
  owned part member owned := absurd (unowned part member) owned
  kept := forall_mem_singleton.mpr fun id owned => .inr (by rw [owned]; exact .head _)
  readers id member :=
    ⟨rl, mem_singleton_self rl, by simpa [eq_comm] using member, reader⟩

section

variable (entry : rl.Entry) (reader : rl.rType = .reader) (room : rl.rCnt + 1 < 2 ^ 32)
  (starts : off ≤ rl.rOff)

include entry reader room starts

/-- An entry in the range is counted once more. -/
theorem Adds.cover (ends : rl.rEnd ≤ stop) :
    Adds off stop rl.rOff rl.rEnd [rl] [bump (proxify rl)] rl.owner.toList := by
  have proxy : (proxify rl).Entry := by
    apply entry.part (proxify_owner rl) entry.proxify_rType
    · rw [entry.proxify_rCnt]
      exact entry.counted
    · rw [proxify_rOff, proxify_rLen, Rl.rEnd_eq entry.proper]
    · rw [proxify_rLen]
      exact entry.proper.1
  obtain ⟨bumped, bumped_rCnt⟩ := proxy.bump (proxify_owner rl) (by rwa [entry.proxify_rCnt])
  rw [entry.proxify_rCnt] at bumped_rCnt
  have bumped_rOff : (bump (proxify rl)).rOff = rl.rOff := proxify_rOff rl
  have bumped_rEnd : (bump (proxify rl)).rEnd = rl.rEnd := by
    rw [Rl.rEnd_eq bumped.proper, Rl.rEnd_eq entry.proper, bumped_rOff]
    exact congrArg (rl.rOff + ·) (proxify_rLen rl)
  apply Adds.single reader
  · exact forall_mem_singleton.mpr ⟨bumped_rOff.ge, bumped_rEnd.le⟩
  · exact forall_mem_singleton.mpr (proxify_owner rl)
  · exact entries_singleton.mpr bumped
  · intro x
    rw [cntAt, weightAt, weightAt, cntAt, weightAt, weightAt, bumped_rOff, bumped_rEnd, bumped_rCnt]
    split_ifs <;> omega
  · exact ⟨forall_mem_singleton.mpr (by omega), forall_mem_singleton.mpr (by omega)⟩

/-- An entry that goes over the end of the range is split there. -/
theorem Adds.coverFront (reaches : rl.rOff < stop)
    (ends : stop < rl.rEnd) :
    Adds off stop rl.rOff rl.rEnd [rl] [bump (splitFront rl stop), splitRear rl stop]
      rl.owner.toList := by
  have parts := entry.parts reaches ends
  obtain ⟨bumped, bumped_rCnt⟩ :=
    parts.front.bump (splitFront_owner rl stop) (by rwa [parts.front_rCnt])
  rw [parts.front_rCnt] at bumped_rCnt
  have bumped_rOff : (bump (splitFront rl stop)).rOff = rl.rOff := splitFront_rOff rl stop
  have bumped_rEnd : (bump (splitFront rl stop)).rEnd = stop := parts.front_rEnd
  have rear_rOff : (splitRear rl stop).rOff = stop := rfl
  have rear_rEnd := parts.rear_rEnd
  apply Adds.single reader
  · exact forall_mem_cons.mpr ⟨by omega, forall_mem_singleton.mpr (by omega)⟩
  · exact forall_mem_cons.mpr ⟨splitFront_owner rl stop, forall_mem_singleton.mpr rfl⟩
  · exact entries_cons.mpr
      ⟨bumped, entries_singleton.mpr parts.rear, forall_mem_singleton.mpr (by omega)⟩
  · intro x
    simp only [cntAt, weightAt, bumped_rOff, bumped_rEnd, bumped_rCnt, rear_rOff, rear_rEnd]
    have rear_rCnt : (splitRear rl stop).rCnt = rl.rCnt := rfl
    rw [rear_rCnt]
    split_ifs <;> omega
  · exact ⟨forall_mem_cons.mpr ⟨by omega, forall_mem_singleton.mpr (by omega)⟩,
      forall_mem_cons.mpr ⟨by omega, forall_mem_singleton.mpr (by omega)⟩⟩

end

/-- The loop of `zfs_range_add_reader`, from an offset in the range on. -/
theorem Adds.addLoop {rest : List Rl} {start : ℕ} (entries : Entries rest)
    (behind : ∀ rl ∈ rest, start ≤ rl.rOff)
    (readers : ∀ rl ∈ rest, rl.rOff < stop → rl.rType = .reader)
    (room : ∀ rl ∈ rest, rl.rCnt + 1 < 2 ^ 32) (starts : off ≤ start) (order : start < stop)
    (bound : stop < 2 ^ 64) :
    Adds off stop start (2 ^ 64) rest (addLoop stop start rest).1
      (Zfs.addLoop stop start rest).2 := by
  induction rest generalizing start with
  | nil =>
    have behind_stop : Adds off stop stop (2 ^ 64) [] [] [] :=
      .keep ⟨.nil, nofun⟩ nofun (by omega) (.inr (.inl le_rfl))
    exact (Adds.gap order starts le_rfl bound).append behind_stop order.le bound.le
  | cons next rest ih =>
    obtain ⟨entry, rest_entries, apart⟩ := entries_cons.mp entries
    have bounds := entry.bounds
    have next_behind := behind next mem_cons_self
    have next_room := room next mem_cons_self
    rw [Zfs.addLoop]
    split
    · -- the range ends in a gap
      have kept : Adds off stop stop (2 ^ 64) (next :: rest) (next :: rest) [] := by
        refine .keep entries (fun rl member => ?_) (by omega) (.inr (.inl le_rfl))
        have := (entries.entry rl member).bounds
        rcases mem_cons.mp member with rfl | member
        · omega
        · have := apart rl member
          omega
      exact (Adds.gap order starts le_rfl bound).append kept order.le bound.le
    · rename_i reaches
      have reader := readers next mem_cons_self (by omega)
      have within : ∀ rl ∈ rest, next.rEnd ≤ rl.rOff ∧ rl.rEnd ≤ 2 ^ 64 := by
        intro rl member
        have := (rest_entries.entry rl member).bounds
        have := apart rl member
        omega
      have gap : Adds off stop start next.rOff []
          (if start < next.rOff then [newProxy start (sub64 next.rOff start)] else []) [] := by
        split
        · exact .gap ‹_› starts (by omega) (by omega)
        · exact .keep ⟨.nil, nofun⟩ nofun (by omega) (.inr (.inr (by omega)))
      generalize (if start < next.rOff then [newProxy start (sub64 next.rOff start)] else []) =
        filled at gap ⊢
      split
      · rename_i exact_
        have covered := Adds.cover entry reader next_room (starts.trans next_behind) exact_.ge
        have kept : Adds off stop next.rEnd (2 ^ 64) rest rest [] :=
          .keep rest_entries within (by omega) (.inr (.inl exact_.le))
        have joined := (gap.append covered next_behind bounds.1.le).append kept (by omega)
          (by omega)
        simpa using joined
      · split
        · rename_i inside
          have covered := Adds.coverFront entry reader next_room (starts.trans next_behind)
            (by omega) inside
          have kept : Adds off stop next.rEnd (2 ^ 64) rest rest [] :=
            .keep rest_entries within (by omega) (.inr (.inl inside.le))
          have joined :=
            (gap.append covered next_behind bounds.1.le).append kept (by omega) (by omega)
          simpa using joined
        · have passed : next.rEnd ≤ stop := by omega
          have covered := Adds.cover entry reader next_room (starts.trans next_behind) passed
          have more := ih rest_entries (fun rl member => apart rl member)
            (fun rl member => readers rl (.tail _ member))
            (fun rl member => room rl (.tail _ member)) (by omega) (by omega)
          have joined :=
            (gap.append covered next_behind bounds.1.le).append more (by omega) (by omega)
          simpa using joined

/-- The split of an entry that goes over the start of the range. -/
theorem Adds.split {rest : List Rl} (entry : rl.Entry) (reader : rl.rType = .reader)
    (starts : rl.rOff < off) (ends : off < rl.rEnd) (order : off ≤ stop)
    (added : Adds off stop off hi (splitRear rl off :: rest) new proxied) :
    Adds off stop rl.rOff hi (rl :: rest) (splitFront rl off :: new)
      (rl.owner.toList ++ proxied) := by
  have parts := entry.parts starts ends
  have front_rOff := splitFront_rOff rl off
  have front_rEnd := parts.front_rEnd
  have rear_rOff : (splitRear rl off).rOff = off := rfl
  have rear_rEnd := parts.rear_rEnd
  have rear_rCnt : (splitRear rl off).rCnt = rl.rCnt := rfl
  have rear_within := added.within_old _ mem_cons_self
  constructor
  case within_old =>
    refine forall_mem_cons.mpr ⟨by omega, fun other member => ?_⟩
    have := added.within_old other (.tail _ member)
    omega
  case within_new =>
    refine forall_mem_cons.mpr ⟨by omega, fun other member => ?_⟩
    have := added.within_new other member
    omega
  case entries =>
    refine entries_cons.mpr ⟨parts.front, added.entries, fun other member => ?_⟩
    have := added.within_new other member
    omega
  case counts =>
    intro x
    have rest_counts := added.counts x
    simp only [cntAt, weightAt, front_rOff, front_rEnd, parts.front_rCnt, rear_rOff, rear_rEnd,
      rear_rCnt] at rest_counts ⊢
    split_ifs at rest_counts ⊢ <;> omega
  case refines =>
    refine forall_mem_cons.mpr ⟨.inl ⟨rl, mem_cons_self, by omega, by omega⟩, ?_⟩
    intro other member
    have inside := added.within_new other member
    rcases added.refines other member with ⟨whole, member', _, _⟩ | gap
    · rcases mem_cons.mp member' with rfl | member'
      · exact .inl ⟨rl, mem_cons_self, by omega, by omega⟩
      · exact .inl ⟨whole, .tail _ member', by omega, by omega⟩
    · refine .inr fun x lower upper => ?_
      have empty := gap x lower upper
      simp only [cntAt, weightAt, rear_rOff, rear_rEnd, rear_rCnt] at empty ⊢
      split_ifs at empty ⊢ <;> omega
  case cut =>
    exact ⟨forall_mem_cons.mpr ⟨by omega, added.cut.1⟩,
      forall_mem_cons.mpr ⟨by omega, added.cut.2⟩⟩
  case owners =>
    have perm := added.owners
    rw [owners_cons] at perm ⊢
    rw [owners_cons, splitFront_owner, append_assoc]
    exact perm.append_left _
  case owned =>
    refine forall_mem_cons.mpr ⟨fun owned => absurd (splitFront_owner rl off) owned, ?_⟩
    intro other member owned
    rcases mem_cons.mp (added.owned other member owned) with rfl | member'
    · exact absurd rfl owned
    · exact .tail _ member'
  case kept =>
    refine forall_mem_cons.mpr ⟨fun id owned => .inr ?_, fun other member id owned => ?_⟩
    · rw [owned]
      exact mem_append_left _ (.head _)
    · exact (added.kept other (.tail _ member) id owned).imp (.tail _) (mem_append_right _)
  case readers =>
    intro id member
    rcases mem_append.mp member with member | member
    · exact ⟨rl, mem_cons_self, by simpa [eq_comm] using member, reader⟩
    · obtain ⟨other, member', owned, reader'⟩ := added.readers id member
      rcases mem_cons.mp member' with rfl | member'
      · cases owned
      · exact ⟨other, .tail _ member', owned, reader'⟩

end

section

variable {lock : Rl} {rest : List Rl} {proxied : List ℕ}

theorem addReaderFrom_overlap (entries : Entries rest) (member : rl ∈ rest)
    (overlaps : rl.rOff < lock.rEnd) :
    addReaderFrom lock before rest proxied =
      ⟨before ++ (addLoop lock.rEnd lock.rOff rest).1, false,
        proxied ++ (addLoop lock.rEnd lock.rOff rest).2⟩ := by
  cases rest with
  | nil => cases member
  | cons next rest =>
    have first : next.rOff ≤ rl.rOff := by
      rcases mem_cons.mp member with rfl | member
      · exact le_rfl
      · obtain ⟨entry, -, apart⟩ := entries_cons.mp entries
        exact entry.bounds.1.le.trans (apart rl member)
    unfold addReaderFrom
    dsimp only
    rw [if_neg (by omega)]

theorem addReaderFrom_free (free : ∀ rl ∈ rest, lock.rEnd ≤ rl.rOff) :
    addReaderFrom lock before rest proxied = ⟨avlAdd lock (before ++ rest), true, proxied⟩ := by
  cases rest with
  | nil => rfl
  | cons next rest =>
    unfold addReaderFrom
    dsimp only
    rw [if_pos (free next mem_cons_self)]

theorem Entries.addReaderFrom (entries : Entries (before ++ rest))
    (proper : ProperRange lock.rOff lock.rLen) (passed : ∀ rl ∈ before, rl.rEnd ≤ lock.rOff)
    (behind : ∀ rl ∈ rest, lock.rOff ≤ rl.rOff)
    (readers : ∀ rl ∈ before ++ rest, lock.rOff < rl.rEnd → rl.rOff < lock.rEnd →
      rl.rType = .reader)
    (room : ∀ rl ∈ before ++ rest, rl.rCnt + 1 < 2 ^ 32) (member : rl ∈ rest)
    (overlaps : rl.rOff < lock.rEnd) :
    (addReaderFrom lock before rest []).inTree = false ∧
    Adds lock.rOff lock.rEnd 0 (2 ^ 64) (before ++ rest)
      (Zfs.addReaderFrom lock before rest []).tree
      (Zfs.addReaderFrom lock before rest []).proxied := by
  obtain ⟨positive, bound⟩ := Rl.order proper
  obtain ⟨before_entries, rest_entries, -⟩ := entries_append.mp entries
  rw [addReaderFrom_overlap rest_entries member overlaps]
  refine ⟨rfl, ?_⟩
  have kept : Adds lock.rOff lock.rEnd 0 lock.rOff before before [] :=
    .keep before_entries (fun rl member => ⟨zero_le _, passed rl member⟩) positive.le (.inl le_rfl)
  refine kept.append (.addLoop rest_entries behind ?_ ?_ le_rfl positive bound) (zero_le _)
    (by omega)
  · intro rl member starts
    have := rest_entries.positive rl member
    have := behind rl member
    exact readers rl (mem_append_right _ member) (by omega) starts
  · exact fun rl member => room rl (mem_append_right _ member)

theorem Entries.addReaderFrom_split (entries : Entries (before ++ prev :: rest))
    (proper : ProperRange lock.rOff lock.rLen) (starts : prev.rOff < lock.rOff)
    (reaches : lock.rOff < prev.rEnd)
    (readers : ∀ rl ∈ before ++ prev :: rest,
      lock.rOff < rl.rEnd → rl.rOff < lock.rEnd → rl.rType = .reader)
    (room : ∀ rl ∈ before ++ prev :: rest, rl.rCnt + 1 < 2 ^ 32) :
    (Zfs.addReaderFrom lock (before ++ [splitFront prev lock.rOff])
        (splitRear prev lock.rOff :: rest) prev.owner.toList).inTree = false ∧
      Adds lock.rOff lock.rEnd 0 (2 ^ 64) (before ++ prev :: rest)
        (Zfs.addReaderFrom lock (before ++ [splitFront prev lock.rOff])
          (splitRear prev lock.rOff :: rest) prev.owner.toList).tree
        (Zfs.addReaderFrom lock (before ++ [splitFront prev lock.rOff])
          (splitRear prev lock.rOff :: rest) prev.owner.toList).proxied := by
  obtain ⟨positive, bound⟩ := Rl.order proper
  obtain ⟨before_entries, prev_entries, apart⟩ := entries_append.mp entries
  obtain ⟨entry, rest_entries, behind⟩ := entries_cons.mp prev_entries
  have prev_member : prev ∈ before ++ prev :: rest := mem_append_right _ mem_cons_self
  have pieces := entry.parts starts reaches
  have rest_member : ∀ rl ∈ rest, rl ∈ before ++ prev :: rest :=
    fun rl member => mem_append_right _ (.tail _ member)
  have rear_entries : Entries (splitRear prev lock.rOff :: rest) := by
    refine entries_cons.mpr ⟨pieces.rear, rest_entries, fun rl member => ?_⟩
    rw [pieces.rear_rEnd]
    exact behind rl member
  rw [addReaderFrom_overlap rear_entries mem_cons_self positive]
  refine ⟨rfl, ?_⟩
  have kept : Adds lock.rOff lock.rEnd 0 prev.rOff before before [] := by
    refine .keep before_entries (fun rl member => ⟨zero_le _, ?_⟩) positive.le (.inl starts.le)
    exact apart rl member prev mem_cons_self
  have covered : Adds lock.rOff lock.rEnd lock.rOff (2 ^ 64) (splitRear prev lock.rOff :: rest)
      (addLoop lock.rEnd lock.rOff (splitRear prev lock.rOff :: rest)).1
      (addLoop lock.rEnd lock.rOff (splitRear prev lock.rOff :: rest)).2 := by
    refine .addLoop rear_entries ?_ ?_ ?_ le_rfl positive bound
    · refine forall_mem_cons.mpr ⟨le_rfl, fun rl member => ?_⟩
      have := behind rl member
      omega
    · refine forall_mem_cons.mpr ⟨fun _ => rfl, fun rl member starts' => ?_⟩
      have := behind rl member
      have := rear_entries.positive rl (.tail _ member)
      exact readers rl (rest_member rl member) (by omega) starts'
    · exact forall_mem_cons.mpr ⟨room prev prev_member,
        fun rl member => room rl (rest_member rl member)⟩
  have joined := kept.append (Adds.split entry (readers prev prev_member reaches (by omega)) starts
    reaches positive.le covered) (zero_le _) (by omega)
  simpa using joined

/-- A new reader is its own entry if it overlaps no other. -/
theorem Entries.addReader (entries : Entries tree) (proper : ProperRange lock.rOff lock.rLen)
    (readers : ∀ rl ∈ tree, lock.rOff < rl.rEnd → rl.rOff < lock.rEnd → rl.rType = .reader)
    (room : ∀ rl ∈ tree, rl.rCnt + 1 < 2 ^ 32) :
    (addReader lock tree = ⟨avlAdd lock tree, true, []⟩ ∧
        ∀ rl ∈ tree, rl.rEnd ≤ lock.rOff ∨ lock.rEnd ≤ rl.rOff) ∨
      ((Zfs.addReader lock tree).inTree = false ∧
        Adds lock.rOff lock.rEnd 0 (2 ^ 64) tree (Zfs.addReader lock tree).tree
          (Zfs.addReader lock tree).proxied) := by
  obtain ⟨positive, bound⟩ := Rl.order proper
  unfold Zfs.addReader
  cases found : (prevEntry tree lock.rOff).filter fun prev => lock.rOff < prev.rEnd with
  | none =>
    have beside : ∀ rl ∈ tree, rl.rEnd ≤ lock.rOff ∨ lock.rOff < rl.rOff := by
      intro rl member
      by_contra inside
      push Not at inside
      rw [entries.prevEntry_over member ⟨inside.2, inside.1⟩] at found
      simp only [Option.filter_some, decide_eq_true inside.1, if_true] at found
      cases found
    have parts : (tree.filter fun rl => rl.rOff ≤ lock.rOff) ++
        (tree.filter fun rl => lock.rOff < rl.rOff) = tree := by
      simpa only [Nat.lt_succ_iff, Nat.succ_le_iff] using
        entries.ordered.filter_append_filter entries.positive (lock.rOff + 1)
    by_cases overlap : ∃ rl ∈ tree.filter (fun rl => lock.rOff < rl.rOff), rl.rOff < lock.rEnd
    · obtain ⟨rl, member, overlaps⟩ := overlap
      right
      rw [← parts] at entries readers room
      have added := entries.addReaderFrom proper ?_ ?_ readers room member overlaps
      · rwa [parts] at added
      · intro rl member
        obtain ⟨member, starts⟩ := mem_filter.mp member
        have := beside rl member
        simp only [decide_eq_true_eq] at starts
        omega
      · intro rl member
        have later := (mem_filter.mp member).2
        simp only [decide_eq_true_eq] at later
        exact later.le
    · left
      push Not at overlap
      rw [addReaderFrom_free overlap, parts]
      refine ⟨rfl, fun rl member => (beside rl member).imp_right fun later => ?_⟩
      exact overlap rl (mem_filter.mpr ⟨member, by simpa using later⟩)
  | some prev =>
    dsimp only
    right
    obtain ⟨found, reaches⟩ := Option.filter_eq_some_iff.mp found
    simp only [decide_eq_true_eq] at reaches
    obtain ⟨member, starts, earlier⟩ := entries.prevEntry_some found
    split
    · rename_i same
      have parts := entries.ordered.filter_append_filter entries.positive lock.rOff
      have member' : prev ∈ tree.filter fun rl => lock.rOff ≤ rl.rOff :=
        mem_filter.mpr ⟨member, by simpa using same.ge⟩
      rw [← parts] at entries readers room
      have added := entries.addReaderFrom proper ?_ ?_ readers room member' (by omega)
      · rwa [parts] at added
      · intro rl member
        obtain ⟨member, before_lock⟩ := mem_filter.mp member
        simp only [decide_eq_true_eq] at before_lock
        rcases earlier rl member before_lock.le with rfl | ends <;> omega
      · exact fun rl member => by simpa using (mem_filter.mp member).2
    · have parts := entries.ordered.filter_append_cons entries.positive member
      rw [← parts] at entries readers room
      have added := entries.addReaderFrom_split proper (by omega) reaches readers room
      rwa [parts] at added

end

end Zfs
