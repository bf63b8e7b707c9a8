import Mathlib.Tactic

/-!
# Writes to distinct places

Writes to distinct places leave the same store whatever order they are done in.
-/

namespace KeyedWrites

open Function List

variable {Key Value : Type*}

/-- The store holds what was written. -/
def Holds (store : Key → Option Value) (writes : List (Key × Value)) : Prop :=
  ∀ write ∈ writes, store write.1 = some write.2

variable {store : Key → Option Value} {writes : List (Key × Value)}

theorem Holds.of_append_left {more : List (Key × Value)} (holds : Holds store (writes ++ more)) :
    Holds store writes := fun write mem => holds write (mem_append_left _ mem)

theorem Holds.of_append_right {more : List (Key × Value)} (holds : Holds store (more ++ writes)) :
    Holds store writes := fun write mem => holds write (mem_append_right _ mem)

variable [DecidableEq Key]

/-- Do the writes in turn. -/
def perform (store : Key → Option Value) (writes : List (Key × Value)) : Key → Option Value :=
  writes.foldl (fun store write => update store write.1 (some write.2)) store

theorem perform_of_notMem {key : Key} (outside : key ∉ writes.map Prod.fst) :
    perform store writes key = store key := by
  induction writes generalizing store with
  | nil => rfl
  | cons write writes ih =>
    rw [map_cons, mem_cons, not_or] at outside
    exact (ih outside.2).trans (update_of_ne outside.1 _ _)

/-- What is written to distinct places stays there. -/
theorem holds_perform (distinct : (writes.map Prod.fst).Nodup) :
    Holds (perform store writes) writes := by
  induction writes generalizing store with
  | nil => exact fun _ mem => absurd mem not_mem_nil
  | cons write writes ih =>
    rw [map_cons, nodup_cons] at distinct
    intro other mem
    rcases mem_cons.mp mem with rfl | later
    · exact (perform_of_notMem distinct.1).trans (update_self _ _ _)
    · exact ih distinct.2 other later

theorem holds_perform_of_perm {order : List (Key × Value)} (perm : order.Perm writes)
    (distinct : (writes.map Prod.fst).Nodup) : Holds (perform store order) writes :=
  fun write mem => holds_perform ((perm.map Prod.fst).nodup_iff.mpr distinct) write
    (perm.mem_iff.mpr mem)

theorem perform_cases (key : Key) :
    perform store writes key = store key ∨
      ∃ value, (key, value) ∈ writes ∧ perform store writes key = some value := by
  induction writes generalizing store with
  | nil => exact .inl rfl
  | cons write writes ih =>
    rcases @ih (update store write.1 (some write.2)) with same | ⟨value, mem, new⟩
    · by_cases here : key = write.1
      · refine .inr ⟨write.2, ?_, ?_⟩
        · rw [here]
          exact mem_cons_self
        · exact same.trans (here ▸ update_self _ _ _)
      · exact .inl (same.trans (update_of_ne here _ _))
    · exact .inr ⟨value, mem_cons_of_mem _ mem, new⟩

end KeyedWrites
