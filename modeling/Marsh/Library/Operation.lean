import Mathlib.Data.List.Basic

/-!
# Operations that keep what they did

An operation on a state that may fail, and leaves what it has done so far when
it does.
-/

namespace Library

/-- An operation: its result, and the state it leaves, also when it fails. -/
abbrev Operation (σ ε α : Type) := ExceptT ε (StateM σ) α

namespace Operation

section Definitions

variable {σ ε δ α : Type}

/-- Changes the state, or fails and leaves it. -/
def change (operation : σ -> Except ε σ) : Operation σ ε Unit :=
  fun state =>
    match operation state with
    | .ok next => (.ok (), next)
    | .error error => (.error error, state)

/-- Looks at the state. -/
def look (question : σ -> Except ε α) : Operation σ ε α :=
  fun state => (question state, state)

/-- Handles the error of an operation that fails. -/
def recover
    (action : Operation σ ε α)
    (handler : ε -> Operation σ ε α) : Operation σ ε α :=
  fun state =>
    match action state with
    | (.ok value, next) => (.ok value, next)
    | (.error error, next) => handler error next

/-- Another name for each error. -/
def mapError (name : ε -> δ) (action : Operation σ ε α) : Operation σ δ α :=
  fun state => ((action state).1.mapError name, (action state).2)

end Definitions

section Runs

variable {σ ε δ α β : Type} {state next : σ} {error : ε} {value : α}

/-- An operation that only returns. -/
theorem pure_eq_ok (value : α) (state : σ) :
    (pure value : Operation σ ε α) state = (.ok value, state) := rfl

/-- What runs after an operation that succeeds. -/
theorem bind_of_ok
    {action : Operation σ ε α}
    {rest : α -> Operation σ ε β}
    (runs : action state = (.ok value, next)) :
    (action >>= rest) state = rest value next := by
  change (ExceptT.bindCont rest (action state).1) (action state).2 = _
  rw [runs]
  rfl

/-- Nothing runs after an operation that fails. -/
theorem bind_of_error
    {action : Operation σ ε α}
    {rest : α -> Operation σ ε β}
    (runs : action state = (.error error, next)) :
    (action >>= rest) state = (.error error, next) := by
  change (ExceptT.bindCont rest (action state).1) (action state).2 = _
  rw [runs]
  rfl

/-- An operation that succeeds after another one: both succeed. -/
theorem bind_eq_ok
    {action : Operation σ ε α}
    {rest : α -> Operation σ ε β}
    {last : β}
    (runs : (action >>= rest) state = (.ok last, next)) :
    ∃ value middle, action state = (.ok value, middle) ∧
      rest value middle = (.ok last, next) := by
  cases ran : action state with
  | mk result middle =>
      cases result with
      | error error =>
          rw [bind_of_error ran] at runs
          cases runs
      | ok value =>
          rw [bind_of_ok ran] at runs
          exact ⟨value, middle, rfl, runs⟩

theorem change_of_ok
    {operation : σ -> Except ε σ}
    (changes : operation state = .ok next) :
    change operation state = (.ok (), next) := by
  rw [change, changes]

theorem change_of_error
    {operation : σ -> Except ε σ}
    (fails : operation state = .error error) :
    change operation state = (.error error, state) := by
  rw [change, fails]

/-- A change that succeeds. -/
theorem change_eq_ok
    {operation : σ -> Except ε σ}
    {done : Unit}
    (runs : change operation state = (.ok done, next)) :
    operation state = .ok next := by
  cases ran : operation state with
  | error error =>
      rw [change_of_error ran] at runs
      cases runs
  | ok middle =>
      rw [change_of_ok ran] at runs
      cases runs
      rfl

theorem look_of_ok
    {question : σ -> Except ε α}
    (answers : question state = .ok value) :
    look question state = (.ok value, state) := by
  rw [look, answers]

theorem look_of_error
    {question : σ -> Except ε α}
    (fails : question state = .error error) :
    look question state = (.error error, state) := by
  rw [look, fails]

/-- A look that succeeds changes nothing. -/
theorem look_eq_ok
    {question : σ -> Except ε α}
    (runs : look question state = (.ok value, next)) :
    question state = .ok value ∧ next = state :=
  ⟨congrArg Prod.fst runs, (congrArg Prod.snd runs).symm⟩

theorem recover_of_ok
    {action : Operation σ ε α}
    {handler : ε -> Operation σ ε α}
    (runs : action state = (.ok value, next)) :
    recover action handler state = (.ok value, next) := by
  rw [recover, runs]

theorem recover_of_error
    {action : Operation σ ε α}
    {handler : ε -> Operation σ ε α}
    (runs : action state = (.error error, next)) :
    recover action handler state = handler error next := by
  rw [recover, runs]

theorem mapError_of_ok
    {name : ε -> δ}
    {action : Operation σ ε α}
    (runs : action state = (.ok value, next)) :
    mapError name action state = (.ok value, next) := by
  rw [mapError, runs]
  rfl

theorem mapError_of_error
    {name : ε -> δ}
    {action : Operation σ ε α}
    (runs : action state = (.error error, next)) :
    mapError name action state = (.error (name error), next) := by
  rw [mapError, runs]
  rfl

/-- Only an operation that succeeds does so under other names. -/
theorem mapError_eq_ok
    {name : ε -> δ}
    {action : Operation σ ε α}
    (runs : mapError name action state = (.ok value, next)) :
    action state = (.ok value, next) := by
  cases ran : action state with
  | mk result middle =>
      cases result with
      | error error =>
          rw [mapError_of_error ran] at runs
          cases runs
      | ok other =>
          rw [mapError_of_ok ran] at runs
          cases runs
          rfl

end Runs

/-! ## What an operation keeps -/

section Keeps

variable {σ ε δ α β : Type} {relation : σ -> σ -> Prop}

/-- Whether the state an operation leaves, also when it fails, is related to the
one it started in. -/
def Keeps (relation : σ -> σ -> Prop) (action : Operation σ ε α) : Prop :=
  ∀ state, relation state (action state).2

theorem Keeps.pure [Std.Refl relation] (value : α) :
    Keeps relation (Pure.pure value : Operation σ ε α) :=
  Std.Refl.refl

theorem Keeps.throw [Std.Refl relation] (error : ε) :
    Keeps relation (MonadExcept.throw error : Operation σ ε α) :=
  Std.Refl.refl

theorem Keeps.look
    [Std.Refl relation]
    (question : σ -> Except ε α) :
    Keeps relation (Operation.look question) :=
  Std.Refl.refl

theorem Keeps.change
    [Std.Refl relation]
    {operation : σ -> Except ε σ}
    (changes : ∀ {state next}, operation state = .ok next ->
      relation state next) :
    Keeps relation (Operation.change operation) := by
  intro state
  cases ran : operation state with
  | error error =>
      rw [change_of_error ran]
      exact Std.Refl.refl state
  | ok next =>
      rw [change_of_ok ran]
      exact changes ran

theorem Keeps.bind
    [IsTrans σ relation]
    {action : Operation σ ε α}
    {rest : α -> Operation σ ε β}
    (first : Keeps relation action)
    (later : ∀ value, Keeps relation (rest value)) :
    Keeps relation (action >>= rest) := by
  intro state
  have kept := first state
  cases ran : action state with
  | mk result middle =>
      rw [ran] at kept
      cases result with
      | error error =>
          rw [bind_of_error ran]
          exact kept
      | ok value =>
          rw [bind_of_ok ran]
          exact IsTrans.trans _ _ _ kept (later value middle)

theorem Keeps.recover
    [IsTrans σ relation]
    {action : Operation σ ε α}
    {handler : ε -> Operation σ ε α}
    (first : Keeps relation action)
    (later : ∀ error, Keeps relation (handler error)) :
    Keeps relation (Operation.recover action handler) := by
  intro state
  have kept := first state
  cases ran : action state with
  | mk result middle =>
      rw [ran] at kept
      cases result with
      | error error =>
          rw [recover_of_error ran]
          exact IsTrans.trans _ _ _ kept (later error middle)
      | ok value =>
          rw [recover_of_ok ran]
          exact kept

theorem Keeps.mapError
    {name : ε -> δ}
    {action : Operation σ ε α}
    (kept : Keeps relation action) :
    Keeps relation (Operation.mapError name action) :=
  kept

end Keeps

/-! ## Operations in order -/

section InOrder

variable {κ σ ε : Type} {run : κ -> Operation σ ε Unit}

/-- One operation for each turn, up to one that fails. -/
def inOrder (run : κ -> Operation σ ε Unit) : List κ -> Operation σ ε Unit
  | [] => pure ()
  | turn :: turns => do
      run turn
      inOrder run turns

/-- Whether something holds of each turn that comes, in the state it starts
in. -/
def AtEach (run : κ -> Operation σ ε Unit) (holds : κ -> σ -> Prop) :
    List κ -> σ -> Prop
  | [], _ => True
  | turn :: turns, state =>
      holds turn state ∧
        ∀ next, run turn state = (.ok (), next) -> AtEach run holds turns next

theorem AtEach.and
    {holds others : κ -> σ -> Prop}
    {turns : List κ}
    {state : σ}
    (each : AtEach run holds turns state)
    (other : AtEach run others turns state) :
    AtEach run (fun turn state => holds turn state ∧ others turn state) turns
      state := by
  induction turns generalizing state with
  | nil => trivial
  | cons turn turns hypothesis =>
      refine ⟨⟨each.1, other.1⟩, fun next ran => ?_⟩
      exact hypothesis (each.2 next ran) (other.2 next ran)

theorem AtEach.imp
    {holds others : κ -> σ -> Prop}
    {turns : List κ}
    (implies : ∀ turn ∈ turns, ∀ {state}, holds turn state -> others turn state)
    {state : σ}
    (each : AtEach run holds turns state) : AtEach run others turns state := by
  induction turns generalizing state with
  | nil => trivial
  | cons turn turns hypothesis =>
      refine ⟨implies turn List.mem_cons_self each.1, fun next ran => ?_⟩
      exact hypothesis
        (fun other member => implies other (List.mem_cons_of_mem _ member))
        (each.2 next ran)

/-- What a turn does to a state, whatever comes after it. -/
theorem inOrder_cons
    (turn : κ)
    (turns : List κ)
    (state : σ) :
    (inOrder run (turn :: turns) state).2 = (run turn state).2 ∨
      ∃ next, run turn state = (.ok (), next) ∧
        (inOrder run (turn :: turns) state).2 = (inOrder run turns next).2 := by
  cases ran : run turn state with
  | mk result next =>
      cases result with
      | error error =>
          rw [inOrder, bind_of_error ran]
          exact .inl rfl
      | ok done =>
          rw [inOrder, bind_of_ok ran]
          exact .inr ⟨next, rfl, rfl⟩

/-- A relation that each turn keeps, where something holds of it, holds between
the first state and the last. -/
theorem relates_inOrder
    {relation : σ -> σ -> Prop}
    [Std.Refl relation]
    [IsTrans σ relation]
    {holds : κ -> σ -> Prop}
    {turns : List κ}
    (step : ∀ turn ∈ turns, ∀ {state}, holds turn state ->
      relation state (run turn state).2)
    {state : σ}
    (each : AtEach run holds turns state) :
    relation state (inOrder run turns state).2 := by
  induction turns generalizing state with
  | nil => exact Std.Refl.refl state
  | cons turn turns hypothesis =>
      have first := step turn List.mem_cons_self each.1
      obtain stops | ⟨next, ran, goes⟩ := inOrder_cons turn turns state
      · rw [stops]
        exact first
      · rw [ran] at first
        rw [goes]
        refine IsTrans.trans _ _ _ first (hypothesis (fun other member => ?_) ?_)
        · exact step other (List.mem_cons_of_mem _ member)
        · exact each.2 next ran

end InOrder

end Operation

end Library
