import Mathlib.Tactic

/-!
# First matches, bit by bit

A list of entries, each with a mask, decides every bit by the first entry whose mask has it.  A
sweep through the list keeps the bits that are still open and removes those that an entry decides.
-/

namespace FirstMatch

variable {w : ℕ} {α : Type}

/-- What the first entry with a bit in its mask says. -/
def verdict (entries : List (BitVec w × α)) (bit : ℕ) : Option α :=
  (entries.find? fun entry => entry.1.getLsbD bit).map Prod.snd

/-- The bits still open, and the marked ones among the others. -/
structure Sweep (w : ℕ) where
  open_ : BitVec w
  marked : BitVec w

/-- An entry decides the open bits of its mask. -/
def Sweep.step (marks : α → Bool) (sweep : Sweep w) (entry : BitVec w × α) : Sweep w :=
  ⟨sweep.open_ &&& ~~~(entry.1 &&& sweep.open_),
    if marks entry.2 then sweep.marked ||| (entry.1 &&& sweep.open_) else sweep.marked⟩

variable {marks : α → Bool} {entries : List (BitVec w × α)} {bit : ℕ}

@[simp]
theorem verdict_nil : verdict ([] : List (BitVec w × α)) bit = none := rfl

theorem verdict_cons (entry : BitVec w × α) : verdict (entry :: entries) bit =
    if entry.1.getLsbD bit then some entry.2 else verdict entries bit := by
  unfold verdict
  rw [List.find?_cons]
  cases entry.1.getLsbD bit <;> rfl

namespace Sweep

variable (sweep : Sweep w)

theorem open_step (entry : BitVec w × α) : (sweep.step marks entry).open_.getLsbD bit =
    (sweep.open_.getLsbD bit && !entry.1.getLsbD bit) := by
  simp only [step, BitVec.getLsbD_and, BitVec.getLsbD_not]
  cases opened : sweep.open_.getLsbD bit with
  | false => rfl
  | true =>
    have inside : bit < w := BitVec.lt_of_getLsbD opened
    simp [inside]

theorem marked_step (entry : BitVec w × α) : (sweep.step marks entry).marked.getLsbD bit =
    (sweep.marked.getLsbD bit ||
      (sweep.open_.getLsbD bit && entry.1.getLsbD bit && marks entry.2)) := by
  unfold step
  cases marks entry.2 <;> simp [Bool.and_comm]

/-- A bit stays open when no entry decides it. -/
theorem open_foldl : (entries.foldl (step marks) sweep).open_.getLsbD bit =
    (sweep.open_.getLsbD bit && (verdict entries bit).isNone) := by
  induction entries generalizing sweep with
  | nil => simp
  | cons entry entries ih =>
    rw [List.foldl_cons, ih, open_step, verdict_cons]
    cases entry.1.getLsbD bit <;> simp

/-- A bit is marked when the entry that decides it marks. -/
theorem marked_foldl : (entries.foldl (step marks) sweep).marked.getLsbD bit =
    (sweep.marked.getLsbD bit ||
      (sweep.open_.getLsbD bit && (verdict entries bit).any marks)) := by
  induction entries generalizing sweep with
  | nil => simp
  | cons entry entries ih =>
    rw [List.foldl_cons, ih, open_step, marked_step, verdict_cons]
    cases mentions : entry.1.getLsbD bit <;> cases sweep.open_.getLsbD bit <;>
      simp

/-- Without open bits the entries change nothing. -/
theorem foldl_of_closed (closed : sweep.open_ = 0#w) :
    entries.foldl (step marks) sweep = sweep := by
  induction entries with
  | nil => rfl
  | cons entry entries ih =>
    have same : sweep.step marks entry = sweep := by
      cases sweep with
      | mk open_ marked =>
        obtain rfl : open_ = 0#w := closed
        simp [step]
    rw [List.foldl_cons, same, ih]

/-- Nothing is left open when an entry that does not mark decides each bit. -/
theorem foldl_clear_iff (request : BitVec w) :
    (entries.foldl (step marks) ⟨request, 0#w⟩).marked = 0#w ∧
    (entries.foldl (step marks) ⟨request, 0#w⟩).open_ = 0#w ↔
    ∀ bit, request.getLsbD bit = true →
      ∃ value, verdict entries bit = some value ∧ marks value = false := by
  constructor
  · rintro ⟨unmarked, closed⟩ bit requested
    have notOpen := (open_foldl ⟨request, 0#w⟩).symm.trans (congrArg (·.getLsbD bit) closed)
    have notMarked := (marked_foldl ⟨request, 0#w⟩).symm.trans
      (congrArg (·.getLsbD bit) unmarked)
    cases decided : verdict entries bit with
    | none => simp [requested, decided] at notOpen
    | some value => exact ⟨value, rfl, by simpa [requested, decided] using notMarked⟩
  · intro decided
    constructor
    · refine BitVec.eq_of_getLsbD_eq fun bit _ => ?_
      rw [marked_foldl, BitVec.getLsbD_zero, Bool.false_or, Bool.and_eq_false_imp]
      intro requested
      obtain ⟨value, verdict_eq, unmarked⟩ := decided bit requested
      simp [verdict_eq, unmarked]
    · refine BitVec.eq_of_getLsbD_eq fun bit _ => ?_
      rw [open_foldl, BitVec.getLsbD_zero, Bool.and_eq_false_imp]
      intro requested
      obtain ⟨value, verdict_eq, unmarked⟩ := decided bit requested
      simp [verdict_eq]

end Sweep

end FirstMatch
