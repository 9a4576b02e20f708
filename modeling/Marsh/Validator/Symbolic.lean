import Mathlib.Control.Monad.Basic
import Marsh.Validator.Transition

/-!
# Symbolic matcher

Derivatives that do not depend on the event, kept in a cache shared by every
request of a rule, and their interpretation under one candidate substitution.
Small transitions are tabulated in advance, one successor for each truth
assignment of their atoms.  String symbols and resolved values are modelled by
the strings and values they stand for, since interning is injective.
-/

namespace Marsh
namespace Validator

open Library

/-! ## Substitutions -/

/-- Heterogeneous resolved value stored in a candidate substitution. -/
inductive ResolvedValue
  | principal (value : Principal)
  | action (value : Action)
  | resource (value : Resource)
  deriving DecidableEq, Repr

namespace ResolvedValue

/-- Projects a principal. -/
def principal? : ResolvedValue -> Option Principal
  | .principal value => some value
  | _ => none

/-- Projects an action. -/
def action? : ResolvedValue -> Option Action
  | .action value => some value
  | _ => none

/-- Projects a resource. -/
def resource? : ResolvedValue -> Option Resource
  | .resource value => some value
  | _ => none

end ResolvedValue

/-- Resolved candidate values assigned to variables during one evaluation. -/
structure CandidateSubstitution where
  /-- Bindings of variable names; the first one of a name counts. -/
  values : List (String × ResolvedValue)

namespace CandidateSubstitution

/-- The value bound to a variable. -/
def get (substitution : CandidateSubstitution) (name : String) :
    Option ResolvedValue :=
  substitution.values.lookup name

/-- The substitution that binds nothing. -/
def empty : CandidateSubstitution := ⟨[]⟩

/-- Creates one partial substitution assignment. -/
def singleton (name : String) (value : ResolvedValue) :
    CandidateSubstitution :=
  ⟨[(name, value)]⟩

/-- Compatible union of two substitutions. -/
def merge (left right : CandidateSubstitution) :
    Option CandidateSubstitution :=
  if right.values.any fun binding =>
      (left.get binding.1).any fun existing => decide (existing ≠ binding.2)
  then none
  else some ⟨right.values ++ left.values⟩

end CandidateSubstitution

/-- Applies a candidate substitution in the selected component domain. -/
def ComponentPattern.subst {Value : Type}
    (project : ResolvedValue -> Option Value)
    (substitution : CandidateSubstitution) :
    ComponentPattern Value -> Option Value
  | .constant expected => some expected
  | .variable name => (substitution.get name).bind project

/-- Applies candidate bindings and compares the component with the event's. -/
def AtomPattern.matchesEvent
    (substitution : CandidateSubstitution)
    (event : Event) : AtomPattern -> Bool
  | .principal pattern =>
      (pattern.subst ResolvedValue.principal? substitution).any
        fun expected => decide (expected = event.principal)
  | .action pattern =>
      (pattern.subst ResolvedValue.action? substitution).any
        fun expected => decide (expected = event.action)
  | .resource pattern =>
      (pattern.subst ResolvedValue.resource? substitution).any
        fun expected => decide (expected = event.resource)

/-- Evaluates one canonical test against an event and a substitution. -/
def evalTest
    (test : TestNode)
    (event : Event)
    (substitution : CandidateSubstitution) : Bool :=
  test.eval fun atom =>
    atom.comparison.apply (atom.pattern.matchesEvent substitution event)

/-! ## Atoms of a transition -/

mutual

/-- Component patterns of a test, in order of occurrence. -/
def collectTestAtoms : TestNode -> List AtomPattern
  | .tt => []
  | .ff => []
  | .atom atom => [atom.pattern]
  | .and children => collectTestAtomsAll children
  | .or children => collectTestAtomsAll children

/-- Component patterns of the listed tests. -/
def collectTestAtomsAll : List TestNode -> List AtomPattern
  | [] => []
  | child :: children => collectTestAtoms child ++ collectTestAtomsAll children

end

mutual

/-- Component patterns tested by a transition, in order of occurrence. -/
def collectTransitionAtomsInto : TransitionNode -> List AtomPattern
  | .const _ => []
  | .conditional test thenTransition elseTransition =>
      collectTestAtoms test ++ collectTransitionAtomsInto thenTransition ++
        collectTransitionAtomsInto elseTransition
  | .union children => collectTransitionAtomsAll children
  | .intersect children => collectTransitionAtomsAll children
  | .not inner => collectTransitionAtomsInto inner
  | .append transition _ => collectTransitionAtomsInto transition

/-- Component patterns tested by the listed transitions. -/
def collectTransitionAtomsAll : List TransitionNode -> List AtomPattern
  | [] => []
  | child :: children =>
      collectTransitionAtomsInto child ++ collectTransitionAtomsAll children

end

/-- Distinct component patterns tested by a transition, in first-seen order.
The visited sets of the traversal only skip nodes whose patterns are listed. -/
def collectTransitionAtoms (transition : TransitionNode) :
    List AtomPattern :=
  (collectTransitionAtomsInto transition).eraseDups

/-! ## Dense minterms -/

mutual

/-- Evaluates a test from a dense truth assignment; `none` is the failed
expectation that every atom is listed. -/
def evalTestMinterm
    (atoms : List AtomPattern)
    (minterm : Nat) : TestNode -> Option Bool
  | .tt => some true
  | .ff => some false
  | .atom atom => do
      let index ← atoms.findIdx? fun listed => decide (listed = atom.pattern)
      let equal := decide (minterm &&& (1 <<< index) ≠ 0)
      pure (atom.comparison.apply equal)
  | .and children => evalTestMintermAll atoms minterm children
  | .or children => evalTestMintermAny atoms minterm children

/-- Every listed test holds, stopping at the first that does not. -/
def evalTestMintermAll
    (atoms : List AtomPattern)
    (minterm : Nat) : List TestNode -> Option Bool
  | [] => some true
  | child :: children => do
      if ← evalTestMinterm atoms minterm child then
        evalTestMintermAll atoms minterm children
      else pure false

/-- Some listed test holds, stopping at the first that does. -/
def evalTestMintermAny
    (atoms : List AtomPattern)
    (minterm : Nat) : List TestNode -> Option Bool
  | [] => some false
  | child :: children => do
      if ← evalTestMinterm atoms minterm child then pure true
      else evalTestMintermAny atoms minterm children

end

/-- The minterm of the patterns that match, bit `index` for the pattern at
`index`. -/
def mintermOf
    (holds : AtomPattern -> Bool)
    (atoms : List AtomPattern) : Nat :=
  atoms.zipIdx.foldl
    (fun assignment atom =>
      assignment ||| ((holds atom.1).toNat <<< atom.2)) 0

section Order

variable [LinearOrder TestNode] [LinearOrder Regex]

mutual

/-- Interprets one transition under a precomputed minterm. -/
def evaluateMinterm
    (atoms : List AtomPattern)
    (minterm : Nat) : TransitionNode -> Option Regex
  | .const regex => some regex
  | .conditional test thenTransition elseTransition => do
      if ← evalTestMinterm atoms minterm test then
        evaluateMinterm atoms minterm thenTransition
      else evaluateMinterm atoms minterm elseTransition
  | .union children => do
      let regexes ← evaluateMintermAll atoms minterm children
      pure (regexUnion regexes)
  | .intersect children => do
      let regexes ← evaluateMintermAll atoms minterm children
      pure (regexIntersect regexes)
  | .not inner => do
      let regex ← evaluateMinterm atoms minterm inner
      pure (regexNot regex)
  | .append transition suffix => do
      let regex ← evaluateMinterm atoms minterm transition
      pure (regexConcat (regex :: suffix))

/-- Interprets the listed transitions. -/
def evaluateMintermAll
    (atoms : List AtomPattern)
    (minterm : Nat) : List TransitionNode -> Option (List Regex)
  | [] => some []
  | child :: children => do
      let regex ← evaluateMinterm atoms minterm child
      let regexes ← evaluateMintermAll atoms minterm children
      pure (regex :: regexes)

end

mutual

/-- Interprets one transition under fixed candidate bindings and one event. -/
def evaluate
    (substitution : CandidateSubstitution)
    (event : Event) : TransitionNode -> Regex
  | .const regex => regex
  | .conditional test thenTransition elseTransition =>
      if evalTest test event substitution then
        evaluate substitution event thenTransition
      else evaluate substitution event elseTransition
  | .union children => regexUnion (evaluateAll substitution event children)
  | .intersect children =>
      regexIntersect (evaluateAll substitution event children)
  | .not inner => regexNot (evaluate substitution event inner)
  | .append transition suffix =>
      regexConcat (evaluate substitution event transition :: suffix)

/-- Interprets the listed transitions. -/
def evaluateAll
    (substitution : CandidateSubstitution)
    (event : Event) : List TransitionNode -> List Regex
  | [] => []
  | child :: children =>
      evaluate substitution event child ::
        evaluateAll substitution event children

end

/-! ## Derivative cache -/

/-- Maximum atoms expanded into one dense minterm table. -/
def maxPrecompiledAtoms : Nat := 12

/-- Global per-rule budget for eagerly compiled minterm successors. -/
def maxPrecompiledMinterms : Nat := 4096

/-- Global per-rule budget for eagerly explored states. -/
def maxPrecompiledStates : Nat := 64

/-- Persistent event-independent derivatives, atom alphabets, and precompiled
minterm tables. -/
structure SymbolicDerivativeCache where
  /-- Derivatives computed so far. -/
  derivatives : Regex -> Option TransitionNode
  /-- Atom alphabets collected so far. -/
  atoms : TransitionNode -> Option (List AtomPattern)
  /-- Successors of tabulated transitions, indexed by minterm. -/
  minterms : TransitionNode -> Option (List Regex)

/-- The cache of a rule before it is compiled. -/
def SymbolicDerivativeCache.new : SymbolicDerivativeCache where
  derivatives _ := none
  atoms _ := none
  minterms _ := none

variable [LinearOrder TransitionNode]

namespace SymbolicDerivativeCache

/-- Retains the derivative of a regex. -/
def insertDerivative
    (cache : SymbolicDerivativeCache)
    (regex : Regex)
    (transition : TransitionNode) : SymbolicDerivativeCache :=
  { cache with
    derivatives := Function.update cache.derivatives regex (some transition) }

/-- Retains the atom alphabet of a transition. -/
def insertAtoms
    (cache : SymbolicDerivativeCache)
    (transition : TransitionNode)
    (atoms : List AtomPattern) : SymbolicDerivativeCache :=
  { cache with atoms := Function.update cache.atoms transition (some atoms) }

/-- Retains the table of a transition. -/
def insertMinterms
    (cache : SymbolicDerivativeCache)
    (transition : TransitionNode)
    (successors : List Regex) : SymbolicDerivativeCache :=
  { cache with
    minterms := Function.update cache.minterms transition (some successors) }

end SymbolicDerivativeCache

/-- A function from regexes to transitions, which may use and fill a cache. -/
abbrev CachedDerivation :=
  Regex -> StateT SymbolicDerivativeCache Option TransitionNode

/-- A function from factors to the alternatives of their concatenation. -/
abbrev CachedAlternatives :=
  List Regex -> StateT SymbolicDerivativeCache Option (List TransitionNode)

-- A call is written with `apply`, which leaves no mark of where it stands in the
-- fixpoint that is taken.
mutual

/-- Returns the normalized symbolic derivative of a regex. -/
def derivative (regex : Regex) :
    StateT SymbolicDerivativeCache Option TransitionNode := do
  match (← get).derivatives regex with
  | some transition => pure transition
  | none =>
      let transition ← (by apply computeDerivative : CachedDerivation) regex
      modify (·.insertDerivative regex transition)
      pure transition
partial_fixpoint

/-- Computes a derivative that the cache does not hold. -/
def computeDerivative (regex : Regex) :
    StateT SymbolicDerivativeCache Option TransitionNode :=
  match regex with
  | .empty => pure transitionEmpty
  | .epsilon => pure transitionEmpty
  | .all => pure transitionAll
  | .test test =>
      StateT.lift (transitionIf test transitionEpsilon transitionEmpty)
  | .union children => do
      let transitions ← children.mapM (by apply derivative)
      pure (transitionUnion transitions)
  | .intersect children => do
      let transitions ← children.mapM (by apply derivative)
      StateT.lift (transitionIntersect transitions)
  | .not inner => do
      let transition ← (by apply derivative : CachedDerivation) inner
      StateT.lift (transitionNot transition)
  | .concat factors => do
      let alternatives ←
        (by apply factorAlternatives : CachedAlternatives) factors
      pure (transitionUnion alternatives)
  | .star inner => do
      let transition ← (by apply derivative : CachedDerivation) inner
      StateT.lift (transitionAppend transition [regex])
partial_fixpoint

/-- Derivatives of a concatenation by each of its leading factors, up to the
first one that is not nullable. -/
def factorAlternatives (remaining : List Regex) :
    StateT SymbolicDerivativeCache Option (List TransitionNode) :=
  match remaining with
  | [] => pure []
  | factor :: suffix => do
      let transition ← (by apply derivative : CachedDerivation) factor
      let alternative ← StateT.lift (transitionAppend transition suffix)
      if factor.nullable then do
        let alternatives ←
          (by apply factorAlternatives : CachedAlternatives) suffix
        pure (alternative :: alternatives)
      else pure [alternative]
partial_fixpoint

end

/-- The atom alphabet of a transition, collected on first use. -/
def cachedAtoms (transition : TransitionNode) :
    StateT SymbolicDerivativeCache Option (List AtomPattern) := do
  match (← get).atoms transition with
  | some atoms => pure atoms
  | none =>
      let atoms := collectTransitionAtoms transition
      modify (·.insertAtoms transition atoms)
      pure atoms

/-- Tabulates one transition; `none` is a transition over budget, otherwise the
successors and the number of minterms added. -/
def tabulate (transition : TransitionNode) (compiledMinterms : Nat) :
    StateT SymbolicDerivativeCache Option (Option (List Regex × Nat)) := do
  match (← get).minterms transition with
  | some successors => pure (some (successors, 0))
  | none =>
      let atoms ← cachedAtoms transition
      if maxPrecompiledAtoms < atoms.length then pure none
      else
        let mintermCount := 1 <<< atoms.length
        if maxPrecompiledMinterms < compiledMinterms + mintermCount then
          pure none
        else
          let successors ← StateT.lift
            ((List.range mintermCount).mapM fun minterm =>
              evaluateMinterm atoms minterm transition)
          modify (·.insertMinterms transition successors)
          pure (some (successors, mintermCount))

/-- An exploration of the states pending, from those seen and the minterms
compiled. -/
abbrev Exploration :=
  List Regex -> List Regex -> Nat -> StateT SymbolicDerivativeCache Option Unit

/-- Explores reachable states breadth first, within the budgets. -/
def precompileFrom
    (pending seen : List Regex)
    (compiledMinterms : Nat) :
    StateT SymbolicDerivativeCache Option Unit :=
  if seen.length < maxPrecompiledStates then
    match pending with
    | [] => pure ()
    | regex :: pending =>
        if regex ∈ seen then
          (by apply precompileFrom : Exploration) pending seen compiledMinterms
        else do
          let transition ← derivative regex
          match transition with
          | .const _ =>
              (by apply precompileFrom : Exploration) pending (regex :: seen)
                compiledMinterms
          | _ => do
              match ← tabulate transition compiledMinterms with
              | none =>
                  (by apply precompileFrom : Exploration) pending
                    (regex :: seen) compiledMinterms
              | some (successors, added) =>
                  (by apply precompileFrom : Exploration)
                    (pending ++ successors) (regex :: seen)
                    (compiledMinterms + added)
  else pure ()
partial_fixpoint

/-- Eagerly explores the reachable states of a root regex. -/
def precompile (root : Regex) :
    StateT SymbolicDerivativeCache Option Unit :=
  precompileFrom [root] [] 0

/-! ## Matching a history -/

/-- Successors selected under one fixed candidate substitution. -/
structure InstantiationCache where
  /-- Successors by transition and truth assignment of its atoms. -/
  values : TransitionNode × List Bool -> Option Regex
  /-- Transition, event and successor of the last step. -/
  last : Option (TransitionNode × Event × Regex)

/-- The instantiation cache at the start of a history. -/
def InstantiationCache.new : InstantiationCache where
  values _ := none
  last := none

/-- All mutable state of the matcher. -/
structure SymbolicMatcher where
  /-- Persistent cache of the rule. -/
  derivatives : SymbolicDerivativeCache
  /-- Cache of the current history replay. -/
  instances : InstantiationCache

/-- Runs a program on the persistent cache alone. -/
def SymbolicMatcher.onCache {Value : Type}
    (program : StateT SymbolicDerivativeCache Option Value) :
    StateT SymbolicMatcher Option Value := fun matcher => do
  let (value, derivatives) ← program matcher.derivatives
  pure (value, { matcher with derivatives := derivatives })

/-- Remembers the last step. -/
def SymbolicMatcher.remember
    (matcher : SymbolicMatcher)
    (transition : TransitionNode)
    (event : Event)
    (regex : Regex) : SymbolicMatcher :=
  { matcher with instances := { matcher.instances with
      last := some (transition, event, regex) } }

/-- Retains the successor of a transition for one truth assignment. -/
def SymbolicMatcher.insertValue
    (matcher : SymbolicMatcher)
    (transition : TransitionNode)
    (assignment : List Bool)
    (regex : Regex) : SymbolicMatcher :=
  { matcher with instances := { matcher.instances with
      values := Function.update matcher.instances.values
        (transition, assignment) (some regex) } }

/-- Selects the successor of a transition that is not constant. -/
def SymbolicMatcher.select
    (transition : TransitionNode)
    (substitution : CandidateSubstitution)
    (event : Event) : StateT SymbolicMatcher Option Regex := do
  match (← get).derivatives.minterms transition with
  | some successors =>
      -- A tabulated transition retains its atom order.
      let atoms ← StateT.lift ((← get).derivatives.atoms transition)
      StateT.lift
        (successors[mintermOf (·.matchesEvent substitution event) atoms]?)
  | none =>
      let atoms ← onCache (cachedAtoms transition)
      let assignment := atoms.map (·.matchesEvent substitution event)
      match (← get).instances.values (transition, assignment) with
      | some regex => pure regex
      | none =>
          let regex := evaluate substitution event transition
          modify (·.insertValue transition assignment regex)
          pure regex

/-- Instantiates one transition, reusing earlier results. -/
def SymbolicMatcher.instantiate
    (transition : TransitionNode)
    (substitution : CandidateSubstitution)
    (event : Event) : StateT SymbolicMatcher Option Regex := do
  match transition with
  | .const regex => pure regex
  | _ =>
      match (← get).instances.last with
      | some (previousTransition, previousEvent, regex) =>
          if previousTransition = transition ∧ previousEvent = event then
            pure regex
          else
            let regex ← select transition substitution event
            modify (·.remember transition event regex)
            pure regex
      | none =>
          let regex ← select transition substitution event
          modify (·.remember transition event regex)
          pure regex

/-- The derivative of a state, reusing the one of the previous state. -/
def SymbolicMatcher.stateDerivative
    (state : Regex)
    (previousDerivative : Option (Regex × TransitionNode)) :
    StateT SymbolicMatcher Option TransitionNode :=
  match previousDerivative with
  | some (previousState, transition) =>
      if previousState = state then pure transition
      else onCache (derivative state)
  | none => onCache (derivative state)

/-- Steps through the rest of a history from one state, with the derivative of
the previous state at hand. -/
def SymbolicMatcher.acceptsFrom
    (substitution : CandidateSubstitution) :
    List Event -> Regex -> Option (Regex × TransitionNode) ->
      StateT SymbolicMatcher Option Bool
  | [], state, _ => pure state.nullable
  | event :: history, state, previousDerivative => do
      if state = .all ∨ state = .empty then pure state.nullable
      else
        let transition ← stateDerivative state previousDerivative
        let next ← instantiate transition substitution event
        acceptsFrom substitution history next (some (state, transition))

/-- Evaluates a complete history from a fresh instantiation cache. -/
def accepts
    (root : Regex)
    (history : List Event)
    (substitution : CandidateSubstitution) :
    StateT SymbolicDerivativeCache Option Bool := fun derivatives => do
  let (accepted, matcher) ←
    SymbolicMatcher.acceptsFrom substitution history root none
      { derivatives := derivatives, instances := .new }
  pure (accepted, matcher.derivatives)

end Order

end Validator
end Marsh
