import Mathlib.Tactic

/-!
# The lowest free slot behind a hint

A table of slots is searched for a free one from a hint on.  The hint may lag behind, and it is
negative after a search that failed; what makes the search right is that no slot below it is free.
-/

namespace LowestSlot

variable {free free' : ℕ → Bool} {size : ℕ} {hint : ℤ}

/-- Search `left` slots from the given one on. -/
def seekFrom (free : ℕ → Bool) : ℕ → ℕ → ℤ
  | 0, _ => -1
  | left + 1, slot => if free slot then slot else seekFrom free left (slot + 1)

/-- The first free slot from the hint on, or `-1`. -/
def seek (free : ℕ → Bool) (size : ℕ) (hint : ℤ) : ℤ :=
  seekFrom free (size - hint.toNat) hint.toNat

/-- No slot below the hint is free, and the hint is in the table. -/
def Valid (free : ℕ → Bool) (size : ℕ) (hint : ℤ) : Prop :=
  hint ≤ size ∧ ∀ slot : ℕ, slot < hint → free slot = false

/-- The lowest free slot, or `-1` when there is none. -/
def Lowest (free : ℕ → Bool) (size : ℕ) (result : ℤ) : Prop :=
  (∃ slot : ℕ, slot < size ∧ result = slot ∧ free slot = true ∧
    ∀ below < slot, free below = false) ∨
    result = -1 ∧ ∀ slot < size, free slot = false

theorem lowest_seekFrom (left slot : ℕ) (none_below : ∀ below < slot, free below = false) :
    Lowest free (slot + left) (seekFrom free left slot) := by
  induction left generalizing slot with
  | zero => exact .inr ⟨rfl, none_below⟩
  | succ left ih =>
    rw [seekFrom]
    cases free_slot : free slot with
    | true => exact .inl ⟨slot, by omega, rfl, free_slot, none_below⟩
    | false =>
      rw [show slot + (left + 1) = slot + 1 + left by omega]
      exact ih (slot + 1) fun below lower => by
        rcases Nat.lt_succ_iff_lt_or_eq.mp lower with lower | rfl
        · exact none_below below lower
        · exact free_slot

theorem Valid.lowest_seek (valid : Valid free size hint) :
    Lowest free size (seek free size hint) := by
  have found := lowest_seekFrom (size - hint.toNat) hint.toNat fun below lower =>
    valid.2 below (by omega)
  rwa [Nat.add_sub_cancel' (by have := valid.1; omega)] at found

theorem Lowest.valid {result : ℤ} (lowest : Lowest free size result)
    (taken : ∀ slot, free slot = false → free' slot = false) : Valid free' size result := by
  obtain ⟨found, inside, rfl, -, none_below⟩ | ⟨rfl, -⟩ := lowest
  · exact ⟨by omega, fun slot below => taken slot (none_below slot (by omega))⟩
  · exact ⟨by omega, fun slot below => by omega⟩

theorem Valid.mono (valid : Valid free size hint)
    (taken : ∀ slot, free slot = false → free' slot = false) : Valid free' size hint :=
  ⟨valid.1, fun slot below => taken slot (valid.2 slot below)⟩

theorem Valid.lower (valid : Valid free size hint) {slot : ℤ}
    (freed : ∀ other : ℕ, (other : ℤ) ≠ slot → free' other = free other) :
    Valid free' size (if slot < hint then slot else hint) := by
  refine ⟨by have := valid.1; split_ifs <;> omega, fun other below => ?_⟩
  have lower : (other : ℤ) ≠ slot ∧ (other : ℤ) < hint := by split_ifs at below <;> omega
  rw [freed other lower.1]
  exact valid.2 other lower.2

end LowestSlot
