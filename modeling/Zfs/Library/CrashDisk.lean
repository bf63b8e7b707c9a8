import Mathlib.Tactic

/-!
# Disks that crash

Writes that were issued since the last flush may have reached the disk, may be torn, or may be lost.
Recovery reads the candidates in any order and keeps the newest one.
-/

namespace CrashDisk

/-- What has become of a write. -/
inductive Fate where
  | kept
  | torn
  | landed
  deriving DecidableEq

/-- What a write reports; a failed one leaves anything. -/
inductive Outcome where
  | good
  | failed (fate : Fate)
  deriving DecidableEq

/-- What a write has left when it is flushed. -/
def Outcome.fate : Outcome → Fate
  | good => .landed
  | failed fate => fate

section Settle

variable {Loc Block : Type*} [DecidableEq Loc] (torn : Block) (disk : Loc → Block) (locs : List Loc)
  (block : Block) (fate : Loc → Fate)

/-- The disk after writes of a block, as they have fared. -/
def settle : Loc → Block := fun loc =>
  if loc ∈ locs then
    match fate loc with
    | .kept => disk loc
    | .torn => torn
    | .landed => block
  else
    disk loc

variable {torn disk locs block fate}

theorem settle_of_notMem {loc : Loc} (outside : loc ∉ locs) :
    settle torn disk locs block fate loc = disk loc := if_neg outside

theorem settle_landed {loc : Loc} (inside : loc ∈ locs) (landed : fate loc = .landed) :
    settle torn disk locs block fate loc = block := by
  rw [settle, if_pos inside, landed]

theorem settle_torn {loc : Loc} (inside : loc ∈ locs) (damaged : fate loc = .torn) :
    settle torn disk locs block fate loc = torn := by
  rw [settle, if_pos inside, damaged]

theorem settle_kept {loc : Loc} (kept : fate loc = .kept) :
    settle torn disk locs block fate loc = disk loc := by
  rw [settle, kept]
  split_ifs <;> rfl

/-- A place holds what it held, or what was written, or a torn block. -/
theorem settle_cases (loc : Loc) :
    settle torn disk locs block fate loc = disk loc ∨
      loc ∈ locs ∧ settle torn disk locs block fate loc = block ∨
      loc ∈ locs ∧ fate loc = .torn ∧ settle torn disk locs block fate loc = torn := by
  by_cases inside : loc ∈ locs
  · cases result : fate loc with
    | kept => exact .inl (settle_kept result)
    | torn => exact .inr (.inr ⟨inside, rfl, settle_torn inside result⟩)
    | landed => exact .inr (.inl ⟨inside, settle_landed inside result⟩)
  · exact .inl (settle_of_notMem inside)

end Settle

section KeepBest

variable {α Key : Type*} [LinearOrder Key] (key : α → Key)

/-- Keep the newer one of two candidates. -/
def keepBest (best next : α) : α := if key best < key next then next else best

variable {key}

theorem foldl_keepBest_mem (start : α) (candidates : List α) :
    candidates.foldl (keepBest key) start = start ∨
      candidates.foldl (keepBest key) start ∈ candidates := by
  induction candidates generalizing start with
  | nil => exact .inl rfl
  | cons next candidates ih =>
    rw [List.foldl_cons]
    rcases ih (keepBest key start next) with same | member
    · rw [same, keepBest]
      split_ifs
      · exact .inr List.mem_cons_self
      · exact .inl rfl
    · exact .inr (List.mem_cons_of_mem _ member)

theorem le_foldl_keepBest (start : α) (candidates : List α) : ∀ candidate ∈ start :: candidates,
    key candidate ≤ key (candidates.foldl (keepBest key) start) := by
  induction candidates generalizing start with
  | nil => simp
  | cons next candidates ih =>
    have best := ih (keepBest key start next)
    simp only [List.forall_mem_cons, List.foldl_cons, keepBest] at best ⊢
    split_ifs at best ⊢ with newer
    · exact ⟨newer.le.trans best.1, best⟩
    · exact ⟨best.1, (not_lt.mp newer).trans best.1, best.2⟩

theorem foldl_keepBest {start best : α} {candidates : List α}
    (present : best ∈ candidates ∨ start = best)
    (newest : ∀ candidate ∈ candidates, candidate = best ∨ key candidate < key best)
    (older : start = best ∨ key start < key best) :
    candidates.foldl (keepBest key) start = best := by
  have member : best ∈ start :: candidates := by
    rcases present with member | rfl
    · exact List.mem_cons_of_mem start member
    · exact List.mem_cons_self
  have upper := (@le_foldl_keepBest _ _ _ key start candidates best member).not_gt
  rcases @foldl_keepBest_mem _ _ _ key start candidates with same | kept
  · rw [same] at upper ⊢
    exact older.resolve_right upper
  · exact (newest _ kept).resolve_right upper

end KeepBest

end CrashDisk
