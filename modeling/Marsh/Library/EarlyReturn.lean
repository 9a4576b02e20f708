import Marsh.Library.Operation

/-!
# Loops that may return early

A turn of the loop hands a value to the next one, or returns from the whole
operation.
-/

namespace Library
namespace Operation

/-- What follows a look, by what it finds. -/
theorem look_bind
    {σ ε α β : Type}
    {question : σ -> Except ε α}
    {rest : α -> Operation σ ε β}
    {state : σ} :
    (look question >>= rest) state =
      match question state with
      | .ok value => rest value state
      | .error error => (.error error, state) := by
  cases answers : question state with
  | ok value => exact bind_of_ok (look_of_ok answers)
  | error error => exact bind_of_error (look_of_error answers)

/-- What follows a change, by whether it is made. -/
theorem change_bind
    {σ ε β : Type}
    {operation : σ -> Except ε σ}
    {rest : Unit -> Operation σ ε β}
    {state : σ} :
    (change operation >>= rest) state =
      match operation state with
      | .ok next => rest () next
      | .error error => (.error error, state) := by
  cases changes : operation state with
  | ok next => exact bind_of_ok (change_of_ok changes)
  | error error => exact bind_of_error (change_of_error changes)

section ForEach

variable {κ σ ε ρ α : Type}
variable {body : κ -> α -> Operation σ ε (Except ρ α)}

/-- One turn for each item, up to one that fails or returns. -/
def forEach (body : κ -> α -> Operation σ ε (Except ρ α)) :
    List κ -> α -> Operation σ ε (Except ρ α)
  | [], value => pure (.ok value)
  | turn :: turns, value => do
      match ← body turn value with
      | .error returned => return .error returned
      | .ok next => forEach body turns next

/-- A loop of one turn. -/
theorem forEach_singleton
    {turn : κ}
    {value next : α}
    {state last : σ}
    (runs : body turn value state = (.ok (.ok next), last)) :
    forEach body [turn] value state = (.ok (.ok next), last) := by
  rw [forEach, bind_of_ok runs]
  rfl

/-- A loop that does not fail returns at its first turn or goes on. -/
theorem forEach_cons_eq_ok
    {turn : κ}
    {turns : List κ}
    {value : α}
    {state last : σ}
    {result : Except ρ α}
    (runs : forEach body (turn :: turns) value state = (.ok result, last)) :
    (∃ returned, body turn value state = (.ok (.error returned), last) ∧
        result = .error returned) ∨
      ∃ next middle, body turn value state = (.ok (.ok next), middle) ∧
        forEach body turns next middle = (.ok result, last) := by
  rw [forEach] at runs
  obtain ⟨ended, middle, ran, rest⟩ := bind_eq_ok runs
  cases ended with
  | error returned =>
      cases rest
      exact .inl ⟨returned, ran, rfl⟩
  | ok next => exact .inr ⟨next, middle, ran, rest⟩

/-- What every turn keeps holds after the last one, of a loop that runs
through. -/
theorem forEach_invariant
    {holds : List κ -> α -> σ -> Prop}
    {turns : List κ}
    (step : ∀ done turn later value next state middle,
      turns = done ++ turn :: later ->
      holds done value state ->
      body turn value state = (.ok (.ok next), middle) ->
      holds (done ++ [turn]) next middle)
    {value final : α}
    {state last : σ}
    (start : holds [] value state)
    (runs : forEach body turns value state = (.ok (.ok final), last)) :
    holds turns final last := by
  suffices generalized : ∀ done rest, turns = done ++ rest ->
      ∀ value state, holds done value state ->
        forEach body rest value state = (.ok (.ok final), last) ->
        holds turns final last from
    generalized [] turns rfl value state start runs
  intro done rest
  induction rest generalizing done with
  | nil =>
      intro split value state held runs
      cases runs
      rwa [split, List.append_nil]
  | cons turn rest hypothesis =>
      intro split value state held runs
      obtain ⟨returned, -, stops⟩ | ⟨next, middle, ran, goes⟩ :=
        forEach_cons_eq_ok runs
      · cases stops
      · exact hypothesis (done ++ [turn]) (by simp [split]) next middle
          (step done turn rest value next state middle split held ran) goes

/-- A loop that returns does so in a turn that starts in a state the turns
before it have kept. -/
theorem forEach_returned
    {holds : α -> σ -> Prop}
    {turns : List κ}
    (step : ∀ turn ∈ turns, ∀ value next state middle, holds value state ->
      body turn value state = (.ok (.ok next), middle) -> holds next middle)
    {value : α}
    {state last : σ}
    {returned : ρ}
    (start : holds value state)
    (runs : forEach body turns value state = (.ok (.error returned), last)) :
    ∃ turn ∈ turns, ∃ reached middle, holds reached middle ∧
      body turn reached middle = (.ok (.error returned), last) := by
  induction turns generalizing value state with
  | nil => cases runs
  | cons turn turns hypothesis =>
      obtain ⟨early, ran, stops⟩ | ⟨next, middle, ran, goes⟩ :=
        forEach_cons_eq_ok runs
      · cases stops
        exact ⟨turn, List.mem_cons_self, value, state, start, ran⟩
      · have kept := step turn List.mem_cons_self value next state middle start
          ran
        obtain ⟨other, member, reached, between, held, ends⟩ := hypothesis
          (fun later listed => step later (List.mem_cons_of_mem _ listed))
          kept goes
        exact ⟨other, List.mem_cons_of_mem _ member, reached, between, held,
          ends⟩

/-- A loop keeps what each of its turns keeps. -/
theorem Keeps.forEach
    {relation : σ -> σ -> Prop}
    [Std.Refl relation]
    [IsTrans σ relation]
    {turns : List κ}
    (each : ∀ turn ∈ turns, ∀ value, Keeps relation (body turn value))
    (value : α) :
    Keeps relation (Operation.forEach body turns value) := by
  induction turns generalizing value with
  | nil => exact Keeps.pure _
  | cons turn turns hypothesis =>
      refine (each turn List.mem_cons_self value).bind fun ended => ?_
      cases ended with
      | error returned => exact Keeps.pure _
      | ok next =>
          exact hypothesis
            (fun later listed => each later (List.mem_cons_of_mem _ listed)) next

end ForEach

/-! ## What an operation does, by its result -/

section Results

variable {σ ε α β : Type}
variable {relation : σ -> σ -> Prop} {such : Except ε α -> Prop}

/-- Whether an operation leaves a related state when its result is such. -/
def KeepsWhen
    (relation : σ -> σ -> Prop)
    (such : Except ε α -> Prop)
    (action : Operation σ ε α) : Prop :=
  ∀ state, such (action state).1 -> relation state (action state).2

/-- Whether every result of an operation is such. -/
def Yields (such : Except ε α -> Prop) (action : Operation σ ε α) : Prop :=
  ∀ state, such (action state).1

theorem Keeps.keepsWhen
    {action : Operation σ ε α}
    (kept : Keeps relation action)
    (such : Except ε α -> Prop) : KeepsWhen relation such action :=
  fun state _ => kept state

/-- An operation without such a result owes nothing. -/
theorem Yields.keepsWhen
    {action : Operation σ ε α}
    (others : Yields (fun result => ¬ such result) action)
    (relation : σ -> σ -> Prop) : KeepsWhen relation such action :=
  fun state result => absurd result (others state)

theorem KeepsWhen.bind
    [IsTrans σ relation]
    {action : Operation σ ε β}
    {rest : β -> Operation σ ε α}
    (first : Keeps relation action)
    (later : ∀ value, KeepsWhen relation such (rest value)) :
    KeepsWhen relation such (action >>= rest) := by
  intro state result
  have kept := first state
  cases ran : action state with
  | mk ended middle =>
      rw [ran] at kept
      cases ended with
      | error error =>
          rw [bind_of_error ran]
          exact kept
      | ok value =>
          rw [bind_of_ok ran] at result ⊢
          exact IsTrans.trans _ _ _ kept (later value middle result)

theorem Yields.bind
    {those : Except ε β -> Prop}
    {action : Operation σ ε β}
    {rest : β -> Operation σ ε α}
    (first : Yields those action)
    (later : ∀ value, those (.ok value) -> Yields such (rest value))
    (fails : ∀ error, such (.error error)) :
    Yields such (action >>= rest) := by
  intro state
  have yielded := first state
  cases ran : action state with
  | mk ended middle =>
      rw [ran] at yielded
      cases ended with
      | error error =>
          rw [bind_of_error ran]
          exact fails error
      | ok value =>
          rw [bind_of_ok ran]
          exact later value yielded middle

/-- What follows an operation whatever it yields. -/
theorem Yields.after
    {action : Operation σ ε β}
    {rest : β -> Operation σ ε α}
    (later : ∀ value, Yields such (rest value))
    (fails : ∀ error, such (.error error)) :
    Yields such (action >>= rest) :=
  @Yields.bind σ ε α β such (fun _ => True) action rest (fun _ => trivial)
    (fun value _ => later value) fails

/-- The results of a turn that does not return early. -/
def Continues {ρ : Type} (result : Except ε (Except ρ α)) : Prop :=
  ∀ returned, result ≠ .ok (.error returned)

theorem continues_error {ρ : Type} (error : ε) :
    Continues (.error error : Except ε (Except ρ α)) :=
  fun _ same => by cases same

theorem yields_continues_pure {ρ : Type} (value : α) :
    Yields Continues (Pure.pure (.ok value) : Operation σ ε (Except ρ α)) :=
  fun _ _ same => by cases same

/-- A loop returns early in none of its turns when no turn returns. -/
theorem Yields.forEach
    {κ ρ : Type}
    {body : κ -> α -> Operation σ ε (Except ρ α)}
    (each : ∀ turn value, Yields Continues (body turn value))
    (turns : List κ)
    (value : α) :
    Yields Continues (Operation.forEach body turns value) := by
  induction turns generalizing value with
  | nil => exact yields_continues_pure value
  | cons turn turns hypothesis =>
      refine (each turn value).bind (fun ended others => ?_) continues_error
      cases ended with
      | error returned => exact absurd rfl (others returned)
      | ok next => exact hypothesis next

end Results

end Operation
end Library
