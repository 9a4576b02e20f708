import Marsh.Validator.Correctness

/-!
# The fast paths of the matcher

Precompiled tables, the truth assignment cache and the last result only save
work: whatever they hold after any compilation and any queries, the verdict is
the one of stepping the derivative and evaluating every guard on every event.
-/

namespace Marsh
namespace Validator

open Library

section Order

variable [LinearOrder TestNode] [LinearOrder Regex] [LinearOrder TransitionNode]

/-! ## Direct evaluation -/

/-- The successor of a state: its derivative, with every guard evaluated. -/
def stepDirectly
    (substitution : CandidateSubstitution)
    (state : Regex)
    (event : Event) : Option Regex :=
  (symbolicDerivative state).map (evaluate substitution event)

/-- Steps through a history and reads the verdict off the last state. -/
def acceptsDirectly
    (root : Regex)
    (history : List Event)
    (substitution : CandidateSubstitution) : Option Bool :=
  (history.foldlM (stepDirectly substitution) root).map ExtendedRegex.nullable

theorem CanonicalRegex.returns_stepDirectly
    (substitution : CandidateSubstitution)
    {state : Regex}
    (canonical : CanonicalRegex state)
    (event : Event) :
    Returns (stepDirectly substitution state event) fun next =>
      CanonicalRegex next ∧
        (eventAlphabet substitution).language next =
          ((eventAlphabet substitution).language state).residual event := by
  obtain ⟨transition, derived, closed, residual⟩ :=
    canonical.returns_symbolicDerivative (eventAlphabet substitution)
  obtain ⟨nextCanonical, nextLanguage⟩ :=
    closed.evaluate_correct substitution event
  refine .of_eq_some (by rw [stepDirectly, derived]; rfl) ⟨nextCanonical, ?_⟩
  rw [nextLanguage, residual event]

/-- Direct evaluation decides membership in the language of its root. -/
theorem CanonicalRegex.returns_acceptsDirectly
    (substitution : CandidateSubstitution)
    (history : List Event)
    {root : Regex}
    (canonical : CanonicalRegex root) :
    Returns (acceptsDirectly root history substitution) fun accepted =>
      accepted = true ↔
        history ∈ (eventAlphabet substitution).language root := by
  induction history generalizing root with
  | nil =>
      exact Returns.some_iff.mpr ((eventAlphabet substitution).nullable_iff root)
  | cons event history hypothesis =>
      obtain ⟨next, stepped, nextCanonical, residual⟩ :=
        canonical.returns_stepDirectly substitution event
      obtain ⟨accepted, rest, meaning⟩ := hypothesis nextCanonical
      refine .of_eq_some ?_ (meaning.trans ?_)
      · rw [acceptsDirectly, List.foldlM_cons, stepped]
        exact rest
      · rw [residual, Language.mem_residual]

/-! ## Caches of a rule -/

/-- The caches a rule's matcher can hold: after the compilation of the rule, after
exploring any of its states within any budget, and after any queries. -/
inductive Warmed (root : Regex) : SymbolicDerivativeCache -> Prop
  | new : Warmed root .new
  | precompiled
      {cache next : SymbolicDerivativeCache}
      (warmed : Warmed root cache)
      (runs : precompile root cache = some ((), next)) :
      Warmed root next
  | explored
      {cache middle next : SymbolicDerivativeCache}
      (warmed : Warmed root cache)
      {substitution : CandidateSubstitution}
      {history : List Event}
      {state : Regex}
      (reached :
        history.foldlM (stepDirectly substitution) root = some state)
      {transition : TransitionNode}
      (derived : derivative state cache = some (transition, middle))
      {compiledMinterms : Nat}
      {tabulated : Option (List Regex × Nat)}
      (runs : tabulate transition compiledMinterms middle =
        some (tabulated, next)) :
      Warmed root next
  | queried
      {cache next : SymbolicDerivativeCache}
      (warmed : Warmed root cache)
      {history : List Event}
      {substitution : CandidateSubstitution}
      {accepted : Bool}
      (runs : accepts root history substitution cache =
        some (accepted, next)) :
      Warmed root next

theorem CanonicalRegex.of_reached
    {substitution : CandidateSubstitution}
    {history : List Event}
    {root state : Regex}
    (canonical : CanonicalRegex root)
    (reached : history.foldlM (stepDirectly substitution) root = some state) :
    CanonicalRegex state := by
  induction history generalizing root with
  | nil =>
      rw [← Option.some.inj reached]
      exact canonical
  | cons event history hypothesis =>
      obtain ⟨next, stepped, nextCanonical, _⟩ :=
        canonical.returns_stepDirectly substitution event
      rw [List.foldlM_cons, stepped] at reached
      exact hypothesis nextCanonical reached

/-- Every such cache holds what would be computed. -/
theorem Warmed.sound
    {root : Regex}
    (canonical : CanonicalRegex root)
    {cache : SymbolicDerivativeCache}
    (warmed : Warmed root cache) : CacheSound cache := by
  induction warmed with
  | new => exact .new
  | precompiled _ runs hypothesis =>
      exact ((canonical.establishes_precompile _ hypothesis).of_returned runs).2
  | explored _ reached derived runs hypothesis =>
      have stateCanonical := canonical.of_reached reached
      obtain ⟨derives, middleSound⟩ :=
        (stateCanonical.derivesSoundly _ hypothesis).of_returned derived
      have closed := closed_of_symbolicDerivative stateCanonical derives
      exact ((closed.establishes_tabulate _ _ middleSound).of_returned runs).2
  | queried _ runs hypothesis =>
      exact ((canonical.establishes_accepts _ _ _ hypothesis).of_returned
        runs).2

/-- A compiled rule starts with the cache its tail was explored into. -/
theorem warmed_of_compileRule
    {source : Rule}
    {rule : RuntimeRule}
    (compiles : compileRule source = some (.ok rule)) :
    Warmed rule.tail rule.derivatives := by
  unfold compileRule at compiles
  split at compiles
  · cases compiles
  · split at compiles
    · cases compiles
    · rename_i tail tailEq
      obtain ⟨⟨done, cache⟩, explored, compiled⟩ :=
        Option.bind_eq_some_iff.mp compiles
      cases compiled
      exact Warmed.new.precompiled explored

/-- The verdict of a compiled rule's matcher, with any cache it can hold, is the
one of direct evaluation.  That it is a verdict at all means that every lookup
the matcher expects to succeed does, and every table index is in range. -/
theorem accepts_eq_acceptsDirectly
    {source : Rule}
    {rule : RuntimeRule}
    (compiles : compileRule source = some (.ok rule)) :
    Warmed rule.tail rule.derivatives ∧
      ∀ cache, Warmed rule.tail cache ->
        ∀ (history : List Event) (substitution : CandidateSubstitution),
          ∃ accepted next,
            accepts rule.tail history substitution cache =
                some (accepted, next) ∧
              Warmed rule.tail next ∧
              acceptsDirectly rule.tail history substitution =
                some accepted := by
  refine ⟨warmed_of_compileRule compiles, ?_⟩
  intro cache warmed history substitution
  obtain ⟨environment, _, tailEq⟩ :=
    ((returns_compileRule source).of_returned compiles rule rfl).compiled
  have canonical := (compiledRegex_of_compileRegex tailEq).1
  obtain ⟨⟨accepted, next⟩, runs, verdict, _⟩ :=
    canonical.establishes_accepts history substitution cache
      (warmed.sound canonical)
  obtain ⟨direct, runsDirectly, directVerdict⟩ :=
    canonical.returns_acceptsDirectly substitution history
  have same : direct = accepted :=
    Bool.eq_iff_iff.mpr (directVerdict.trans verdict.symm)
  exact ⟨accepted, next, runs, .queried warmed runs, same ▸ runsDirectly⟩

end Order

/-- The rule that forbids the first edit, asked about one edit. -/
theorem accepts_eq_acceptsDirectly_forbidFirstEdit :
    letI := someOrder TestNode
    letI := someOrder Regex
    letI := someOrder TransitionNode
    ∃ rule accepted next, compileRule forbidFirstEdit = some (.ok rule) ∧
      accepts rule.tail [⟨⟨"alice"⟩, .edit, ⟨["a"]⟩⟩] .empty
          rule.derivatives = some (accepted, next) ∧
        acceptsDirectly rule.tail [⟨⟨"alice"⟩, .edit, ⟨["a"]⟩⟩] .empty =
          some accepted := by
  let _ := someOrder TestNode
  let _ := someOrder Regex
  let _ := someOrder TransitionNode
  obtain ⟨rule, compiles⟩ : ∃ rule,
      compileRule forbidFirstEdit = some (.ok rule) :=
    exists_compileRule_eq_ok (by rfl) (by rw [forbidFirstEdit, compileRegex])
  obtain ⟨warmed, agrees⟩ := accepts_eq_acceptsDirectly compiles
  obtain ⟨accepted, next, runs, _, direct⟩ := agrees rule.derivatives warmed
    [⟨⟨"alice"⟩, .edit, ⟨["a"]⟩⟩] .empty
  exact ⟨rule, accepted, next, compiles, runs, direct⟩

end Validator
end Marsh
