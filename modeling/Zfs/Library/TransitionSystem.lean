import Mathlib.Tactic

/-!
# Labelled transition systems

Reachable states, and the rule that carries an invariant from the start along every run.
-/

/-- A labelled transition system. -/
structure TransitionSystem (State Label : Type*) where
  /-- The states to start in. -/
  Start : State → Prop
  /-- The steps. -/
  Step : State → Label → State → Prop

namespace TransitionSystem

variable {State Label : Type*} (system : TransitionSystem State Label)

/-- The states on the runs of the system. -/
inductive Reachable : State → Prop where
  | start {state : State} (start : system.Start state) : Reachable state
  | step {state next : State} {label : Label} (reachable : Reachable state)
    (step : system.Step state label next) : Reachable next

variable {system}

variable {Holds : State → Prop} {state next later last : State} {steps : List (State × Label)}

theorem Reachable.take (reachable : system.Reachable state) (label : Label)
    (step : system.Step state label next) : system.Reachable next := .step reachable step

/-- What holds at the start and is kept by every step holds in every reachable state. -/
theorem Reachable.invariant (reachable : system.Reachable state)
    (start : ∀ state, system.Start state → Holds state)
    (step : ∀ state label next, Holds state → system.Step state label next → Holds next) :
    Holds state := by
  induction reachable with
  | start first => exact start _ first
  | step _ taken ih => exact step _ _ _ ih taken

/-- A run leads from one state to another. -/
def Leads (system : TransitionSystem State Label) : State → State → Prop :=
  Relation.ReflTransGen fun state next => ∃ label, system.Step state label next

theorem Reachable.leads (reachable : system.Reachable state) (run : system.Leads state later) :
    system.Reachable later := by
  induction run with
  | refl => exact reachable
  | tail _ taken ih =>
    obtain ⟨label, step⟩ := taken
    exact .step ih step

/-- What every step keeps is kept along a run. -/
theorem Leads.keeps (run : system.Leads state later)
    (step : ∀ state label next, Holds state → system.Step state label next → Holds next)
    (holds : Holds state) : Holds later := by
  induction run with
  | refl => exact holds
  | tail _ taken ih =>
    obtain ⟨label, taken⟩ := taken
    exact step _ label _ ih taken

/-- A run, with the states in which its steps are taken. -/
inductive Run (system : TransitionSystem State Label) :
    State → List (State × Label) → State → Prop where
  | nil (state : State) : Run system state [] state
  | cons {state next last : State} {label : Label} {steps : List (State × Label)}
    (step : system.Step state label next) (run : Run system next steps last) :
    Run system state ((state, label) :: steps) last

theorem Run.concat (run : system.Run state steps last) (label : Label)
    (step : system.Step last label next) : system.Run state (steps ++ [(last, label)]) next := by
  induction run with
  | nil state => exact .cons step (.nil _)
  | cons first _ ih => exact .cons first (ih step)

/-- A run stays good exactly when every step keeps the states good. -/
theorem Run.good_iff {Inv Good : State → Prop} {Fits : State → Label → Prop} {first : State}
    (run : system.Run first steps last)
    (step : ∀ state label next, Inv state → Good state → system.Step state label next →
      Inv next ∧ (Good next ↔ Fits state label)) (inv : Inv first) (good : Good first) :
    (∀ visited ∈ steps, Good visited.1) ∧ Good last ↔
      ∀ visited ∈ steps, Fits visited.1 visited.2 := by
  induction run with
  | nil state => simpa using good
  | @cons _ next _ _ _ taken run ih =>
    obtain ⟨inv', good_iff⟩ := step _ _ _ inv good taken
    simp only [List.forall_mem_cons]
    constructor
    · rintro ⟨⟨-, later⟩, end_good⟩
      have good' : Good next := by
        cases run with
        | nil => exact end_good
        | cons _ _ => exact (List.forall_mem_cons.mp later).1
      exact ⟨good_iff.mp good', (ih inv' good').mp ⟨later, end_good⟩⟩
    · rintro ⟨fits, later⟩
      obtain ⟨good_later, end_good⟩ := (ih inv' (good_iff.mpr fits)).mpr later
      exact ⟨⟨good, good_later⟩, end_good⟩

end TransitionSystem
