import Mathlib.Data.List.Forall2
import Mathlib.Control.Basic

/-!
# Total correctness of partial programs

A program that may diverge or panic returns an option.  It is totally correct
for a postcondition when it returns a value that satisfies it.  The stateful
rules carry one invariant of the state through a program, so that a cache whose
contents are right stays right.
-/

namespace Library

universe u

/-! ## Related lists -/

section Related

variable {Left Right : Type u} {relation : Left -> Right -> Prop}
  {lefts : List Left} {rights : List Right}

theorem exists_mem_iff_of_forall₂
    {leftHolds : Left -> Prop}
    {rightHolds : Right -> Prop}
    (related : List.Forall₂ relation lefts rights)
    (agree : ∀ left right, relation left right ->
      (leftHolds left ↔ rightHolds right)) :
    (∃ right ∈ rights, rightHolds right) ↔ ∃ left ∈ lefts, leftHolds left := by
  induction related with
  | nil => simp
  | cons headRelated _ hypothesis =>
      rw [List.exists_mem_cons_iff, List.exists_mem_cons_iff, hypothesis,
        agree _ _ headRelated]

theorem forall_mem_iff_of_forall₂
    {leftHolds : Left -> Prop}
    {rightHolds : Right -> Prop}
    (related : List.Forall₂ relation lefts rights)
    (agree : ∀ left right, relation left right ->
      (leftHolds left ↔ rightHolds right)) :
    (∀ right ∈ rights, rightHolds right) ↔ ∀ left ∈ lefts, leftHolds left := by
  induction related with
  | nil => simp
  | cons headRelated _ hypothesis =>
      rw [List.forall_mem_cons, List.forall_mem_cons, hypothesis,
        agree _ _ headRelated]

theorem forall_mem_of_forall₂
    {rightHolds : Right -> Prop}
    (related : List.Forall₂ relation lefts rights)
    (holds : ∀ left right, relation left right -> rightHolds right) :
    ∀ right ∈ rights, rightHolds right := by
  induction related with
  | nil => simp
  | cons headRelated _ hypothesis =>
      exact List.forall_mem_cons.mpr ⟨holds _ _ headRelated, hypothesis⟩

theorem map_eq_map_of_forall₂
    {Image : Type u}
    {leftImage : Left -> Image}
    {rightImage : Right -> Image}
    (related : List.Forall₂ relation lefts rights)
    (agree : ∀ left right, relation left right ->
      leftImage left = rightImage right) :
    rights.map rightImage = lefts.map leftImage := by
  induction related with
  | nil => rfl
  | cons headRelated _ hypothesis =>
      rw [List.map_cons, List.map_cons, hypothesis, agree _ _ headRelated]

end Related

/-! ## Programs that return an option -/

/-- The program returns a value that satisfies the postcondition. -/
def Returns {Value : Type u}
    (program : Option Value)
    (post : Value -> Prop) : Prop :=
  ∃ value, program = some value ∧ post value

namespace Returns

variable {Value Result : Type u}

theorem of_eq_some
    {program : Option Value}
    {value : Value}
    {post : Value -> Prop}
    (returned : program = some value)
    (holds : post value) : Returns program post :=
  ⟨value, returned, holds⟩

/-- A value that was returned satisfies the postcondition. -/
theorem of_returned
    {program : Option Value}
    {value : Value}
    {post : Value -> Prop}
    (returns : Returns program post)
    (returned : program = some value) : post value := by
  obtain ⟨other, otherReturned, holds⟩ := returns
  rw [returned, Option.some.injEq] at otherReturned
  exact otherReturned ▸ holds

@[simp] theorem some_iff {value : Value} {post : Value -> Prop} :
    Returns (some value) post ↔ post value := by
  simp [Returns]

theorem imp
    {program : Option Value}
    {first second : Value -> Prop}
    (returns : Returns program first)
    (weaker : ∀ value, first value -> second value) :
    Returns program second := by
  obtain ⟨value, returned, holds⟩ := returns
  exact ⟨value, returned, weaker value holds⟩

theorem bind
    {program : Option Value}
    {next : Value -> Option Result}
    {first : Value -> Prop}
    {second : Result -> Prop}
    (returns : Returns program first)
    (continues : ∀ value, first value -> Returns (next value) second) :
    Returns (program >>= next) second := by
  obtain ⟨value, returned, holds⟩ := returns
  obtain ⟨result, resultEq, resultHolds⟩ := continues value holds
  exact ⟨result, by rw [returned]; exact resultEq, resultHolds⟩

/-- A program that returns, returns its value. -/
theorem self
    {program : Option Value}
    {post : Value -> Prop}
    (returns : Returns program post) :
    Returns program fun value => program = some value :=
  ⟨_, returns.choose_spec.1, returns.choose_spec.1⟩

/-- A list is mapped to the values its elements are mapped to. -/
theorem mapM_eq_some
    {program : Value -> Option Result}
    {values : List Value}
    {results : List Result}
    (related : List.Forall₂ (fun value result => program value = some result)
      values results) :
    values.mapM program = some results := by
  induction related with
  | nil => rfl
  | cons headEq _ hypothesis =>
      rw [List.mapM_cons, headEq, hypothesis]
      rfl

/-- A list is mapped when each of its elements is. -/
theorem mapM
    {program : Value -> Option Result}
    {post : Value -> Result -> Prop}
    {values : List Value}
    (returns : ∀ value ∈ values, Returns (program value) (post value)) :
    Returns (values.mapM program) (List.Forall₂ post values) := by
  induction values with
  | nil => simp
  | cons value values hypothesis =>
      obtain ⟨headReturns, tailReturns⟩ := List.forall_mem_cons.mp returns
      rw [List.mapM_cons]
      refine headReturns.bind fun head headHolds => ?_
      refine (hypothesis tailReturns).bind fun tail tailHolds => ?_
      exact some_iff.mpr (List.Forall₂.cons headHolds tailHolds)

/-- A fold returns when its step keeps an invariant of the accumulator. -/
theorem foldlM
    {step : Result -> Value -> Option Result}
    (invariant : List Value -> Result -> Prop)
    {values : List Value}
    (stepReturns : ∀ done value accumulator, value ∈ values ->
      invariant done accumulator ->
        Returns (step accumulator value) (invariant (done ++ [value])))
    {done : List Value}
    {accumulator : Result}
    (holds : invariant done accumulator) :
    Returns (values.foldlM step accumulator) (invariant (done ++ values)) := by
  induction values generalizing done accumulator with
  | nil => simpa using holds
  | cons value values hypothesis =>
      rw [List.foldlM_cons]
      have first := stepReturns done value accumulator List.mem_cons_self holds
      refine first.bind fun next nextHolds => ?_
      have rest := hypothesis
        (fun done value accumulator member =>
          stepReturns done value accumulator (List.mem_cons_of_mem _ member))
        nextHolds
      simpa using rest

end Returns

/-! ## Lists of questions -/

section Questions

variable {Operand Result : Type u}

theorem anyM_eq_some
    {test : Operand -> Option Bool}
    {verdict : Operand -> Bool}
    {operands : List Operand}
    (answers : ∀ operand ∈ operands, test operand = some (verdict operand)) :
    operands.anyM test = some (operands.any verdict) := by
  induction operands with
  | nil => rfl
  | cons operand operands hypothesis =>
      obtain ⟨first, rest⟩ := List.forall_mem_cons.mp answers
      rw [List.anyM, first, List.any_cons]
      cases verdict operand with
      | true => rfl
      | false => exact hypothesis rest

theorem allM_eq_some
    {test : Operand -> Option Bool}
    {verdict : Operand -> Bool}
    {operands : List Operand}
    (answers : ∀ operand ∈ operands, test operand = some (verdict operand)) :
    operands.allM test = some (operands.all verdict) := by
  induction operands with
  | nil => rfl
  | cons operand operands hypothesis =>
      obtain ⟨first, rest⟩ := List.forall_mem_cons.mp answers
      rw [List.allM, first, List.all_cons]
      cases verdict operand with
      | true => exact hypothesis rest
      | false => rfl

theorem mapM_eq_some_map
    {program : Operand -> Option Result}
    {result : Operand -> Result}
    {operands : List Operand}
    (answers : ∀ operand ∈ operands,
      program operand = some (result operand)) :
    operands.mapM program = some (operands.map result) := by
  induction operands with
  | nil => rfl
  | cons operand operands hypothesis =>
      obtain ⟨first, rest⟩ := List.forall_mem_cons.mp answers
      rw [List.mapM_cons, first, hypothesis rest]
      rfl

end Questions

/-! ## Programs with a state -/

section Stateful

variable {State Value Result : Type u}

@[simp] theorem get_bind_apply
    (next : State -> StateT State Option Value)
    (state : State) :
    (get >>= next) state = next state state :=
  rfl

@[simp] theorem modify_bind_apply
    (change : State -> State)
    (next : PUnit -> StateT State Option Value)
    (state : State) :
    (modify change >>= next) state = next ⟨⟩ (change state) :=
  rfl

@[simp] theorem pure_apply (value : Value) (state : State) :
    (pure value : StateT State Option Value) state = some (value, state) :=
  rfl

/-- Sequencing from one given state. -/
theorem Returns.bindState
    {program : StateT State Option Value}
    {next : Value -> StateT State Option Result}
    {state : State}
    {first : Value × State -> Prop}
    {second : Result × State -> Prop}
    (returns : Returns (program state) first)
    (continues : ∀ value between, first (value, between) ->
      Returns (next value between) second) :
    Returns ((program >>= next) state) second :=
  returns.bind fun outcome holds => continues outcome.1 outcome.2 holds

/-- Sequencing after a program whose outcome is known. -/
theorem bind_apply_of_eq
    {program : StateT State Option Value}
    {next : Value -> StateT State Option Result}
    {state between : State}
    {value : Value}
    (runs : program state = some (value, between)) :
    (program >>= next) state = next value between := by
  change (program state).bind (fun outcome => next outcome.1 outcome.2) = _
  rw [runs]
  rfl

/-- Lifted programs leave the state alone. -/
theorem Returns.liftState
    {program : Option Value}
    {post : Value -> Prop}
    (returns : Returns program post)
    (state : State) :
    Returns ((StateT.lift program : StateT State Option Value) state)
      fun outcome => post outcome.1 ∧ outcome.2 = state := by
  obtain ⟨value, returned, holds⟩ := returns
  exact ⟨(value, state), by simp [StateT.lift, returned], holds, rfl⟩

end Stateful

/-- From every state that satisfies the invariant, the program returns a value
that satisfies the postcondition and a state that satisfies the invariant. -/
def Establishes {State Value : Type u}
    (invariant : State -> Prop)
    (program : StateT State Option Value)
    (post : Value -> Prop) : Prop :=
  ∀ state, invariant state ->
    Returns (program state) fun outcome =>
      post outcome.1 ∧ invariant outcome.2

namespace Establishes

variable {State Value Result : Type u} {invariant : State -> Prop}

theorem pure
    {value : Value}
    {post : Value -> Prop}
    (holds : post value) :
    Establishes invariant (Pure.pure value) post :=
  fun state kept => ⟨(value, state), rfl, holds, kept⟩

theorem lift
    {program : Option Value}
    {post : Value -> Prop}
    (returns : Returns program post) :
    Establishes invariant (StateT.lift program) post := by
  intro state kept
  obtain ⟨value, returned, holds⟩ := returns
  exact ⟨(value, state), by simp [StateT.lift, returned], holds, kept⟩

theorem imp
    {program : StateT State Option Value}
    {first second : Value -> Prop}
    (establishes : Establishes invariant program first)
    (weaker : ∀ value, first value -> second value) :
    Establishes invariant program second :=
  fun state kept => (establishes state kept).imp fun _ holds =>
    ⟨weaker _ holds.1, holds.2⟩

theorem bind
    {program : StateT State Option Value}
    {next : Value -> StateT State Option Result}
    {first : Value -> Prop}
    {second : Result -> Prop}
    (establishes : Establishes invariant program first)
    (continues : ∀ value, first value ->
      Establishes invariant (next value) second) :
    Establishes invariant (program >>= next) second :=
  fun state kept => (establishes state kept).bind fun outcome holds =>
    continues outcome.1 holds.1 outcome.2 holds.2

/-- A list is mapped when each of its elements is. -/
theorem mapM
    {program : Value -> StateT State Option Result}
    {post : Value -> Result -> Prop}
    {values : List Value}
    (establishes : ∀ value ∈ values,
      Establishes invariant (program value) (post value)) :
    Establishes invariant (values.mapM program) (List.Forall₂ post values) := by
  induction values with
  | nil => exact pure List.Forall₂.nil
  | cons value values hypothesis =>
      obtain ⟨headEstablishes, tailEstablishes⟩ :=
        List.forall_mem_cons.mp establishes
      rw [List.mapM_cons]
      refine headEstablishes.bind fun head headHolds => ?_
      refine (hypothesis tailEstablishes).bind fun tail tailHolds => ?_
      exact pure (List.Forall₂.cons headHolds tailHolds)

end Establishes

end Library
