import Mathlib.Data.Set.Basic

/-!
# Labelled transition systems

Initial states and a labelled step relation, with the reachable states and the
rules that reduce a property of every run to one of every step.
-/

namespace Library

universe u v

/-- Initial states and labelled steps. -/
structure TransitionSystem (State : Type u) (Label : Type v) where
  /-- States a run may start in. -/
  initial : State -> Prop
  /-- Steps a run may take. -/
  step : State -> Label -> State -> Prop

namespace TransitionSystem

variable {State : Type u} {Label : Type v}

/-- States some run reaches. -/
inductive Reachable (system : TransitionSystem State Label) : State -> Prop
  | start {state : State} (initial : system.initial state) :
      Reachable system state
  | step {state next : State} (label : Label)
      (reachable : Reachable system state)
      (steps : system.step state label next) :
      Reachable system next

variable {system : TransitionSystem State Label}

/-- A property of every initial state that every step from a reachable state
preserves holds in every reachable state. -/
theorem Reachable.invariant
    {state : State}
    (reachable : system.Reachable state)
    (holds : State -> Prop)
    (initial : ∀ state, system.initial state -> holds state)
    (preserved : ∀ state label next, system.Reachable state -> holds state ->
      system.step state label next -> holds next) :
    holds state := by
  induction reachable with
  | start start => exact initial _ start
  | step label reachable steps hypothesis =>
      exact preserved _ _ _ reachable hypothesis steps

/-- The same system with fewer steps. -/
def restrict
    (system : TransitionSystem State Label)
    (allowed : State -> Label -> Prop) : TransitionSystem State Label where
  initial := system.initial
  step state label next := system.step state label next ∧ allowed state label

/-- A run whose steps are all allowed is a run. -/
theorem Reachable.of_restrict
    {allowed : State -> Label -> Prop}
    {state : State}
    (reachable : (system.restrict allowed).Reachable state) :
    system.Reachable state := by
  induction reachable with
  | start initial => exact .start initial
  | step label _ steps hypothesis => exact .step label hypothesis steps.1

end TransitionSystem

end Library
