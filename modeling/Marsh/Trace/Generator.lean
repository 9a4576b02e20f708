import Marsh.Policy.Git

/-!
# The trace generator

Generates candidate operations on pooled paths whose file-system preconditions
hold in its own model of the work tree and the index, and reduces them to the
operations the git policy grants.  The decoder of the entropy is a parameter.
-/

namespace Marsh
namespace Trace

open Validator Policy Policy.Git

/-! ## Operations -/

/-- Number of principals. -/
def maxAgents : Nat := 3

/-- Number of pooled paths. -/
def maxFiles : Nat := 4

/-- Upper bound on a generated trace's length. -/
def maxTraceLength : Nat := 32

/-- One concrete generated operation. -/
inductive GeneratedOperation
  /-- Write a currently absent pooled path. -/
  | create
  /-- Append to a present pooled path. -/
  | modify
  /-- Remove a present pooled path from the working tree. -/
  | delete
  | stage
  | unstage
  | commit
  | checkout
  | stash
  | read
  | diff
  | history
  /-- `git rm`. -/
  | remove
  | clean
  deriving DecidableEq, Repr

/-- Every generated operation, in a fixed order. -/
def ops : List GeneratedOperation :=
  [.create, .modify, .delete, .stage, .unstage, .commit, .checkout, .stash,
    .read, .diff, .history, .remove, .clean]

/-- The action an operation requests at a step. -/
def GeneratedOperation.action (step : Nat) : GeneratedOperation -> Action
  | .create | .modify | .delete => .edit
  | .stage => .stage
  | .unstage => .unstage
  | .commit => .commit (some s!"step {step}")
  | .checkout => .checkout
  | .stash => .stash
  | .read => .read
  | .diff => .diff
  | .history => .history
  | .remove => .delete
  | .clean => .clean

/-- The principal name for an agent index. -/
def principalFor (agent : Nat) : Principal := ⟨s!"agent{agent}"⟩

/-- The resource of a pooled path. -/
def resourceFor (file : Fin maxFiles) : Resource :=
  ⟨["src", s!"file{file.val}.txt"]⟩

/-- The capability an operation requests, exactly. -/
def expectedEvent
    (agent : Nat)
    (operation : GeneratedOperation)
    (file : Fin maxFiles)
    (step : Nat) : Event where
  principal := principalFor agent
  action := operation.action step
  resource := resourceFor file

/-- One generated candidate operation. -/
structure Candidate where
  /-- Agent index. -/
  agent : Nat
  /-- Operation to perform. -/
  operation : GeneratedOperation
  /-- Pooled path index. -/
  file : Fin maxFiles
  /-- Generation step, also the commit-message suffix. -/
  step : Nat
  deriving DecidableEq, Repr

/-- The capability event this candidate must produce. -/
def Candidate.event (candidate : Candidate) : Event :=
  expectedEvent candidate.agent candidate.operation candidate.file
    candidate.step

theorem resourceFor_injective : Function.Injective resourceFor := by decide

/-! ## The model of the work tree and the index -/

/-- Working-tree presence and index membership of each pooled path. -/
structure PoolState where
  /-- `exists`. -/
  present : Fin maxFiles -> Bool
  tracked : Fin maxFiles -> Bool

namespace PoolState

/-- Every pooled path present and tracked, matching the seed commit. -/
def seeded : PoolState where
  present _ := true
  tracked _ := true

/-- Whether an operation can execute on a path right now. -/
def allows
    (pool : PoolState)
    (operation : GeneratedOperation)
    (file : Fin maxFiles) : Bool :=
  match operation with
  | .create => !pool.present file && pool.tracked file
  | .modify | .delete | .remove | .commit | .read => pool.present file
  | .stage | .unstage | .checkout | .stash | .diff | .history | .clean => true

/-- Pooled path indices, ascending, on which an operation can execute. -/
def eligible
    (pool : PoolState)
    (operation : GeneratedOperation) : List (Fin maxFiles) :=
  (List.finRange maxFiles).filter (pool.allows operation)

/-- Applies the working-tree and index effect of a granted candidate. -/
def recordGrant (pool : PoolState) (candidate : Candidate) : PoolState :=
  let file := candidate.file
  match candidate.operation with
  | .create => { pool with present := Function.update pool.present file true }
  | .delete => { pool with present := Function.update pool.present file false }
  | .remove =>
      { present := Function.update pool.present file false
        tracked := Function.update pool.tracked file false }
  | .stage =>
      { pool with
        tracked := Function.update pool.tracked file (pool.present file) }
  | .unstage => { pool with tracked := Function.update pool.tracked file true }
  | .checkout | .stash =>
      { present := Function.update pool.present file true
        tracked := Function.update pool.tracked file true }
  | .commit | .modify | .read | .diff | .history | .clean => pool

theorem mem_eligible
    {pool : PoolState}
    {operation : GeneratedOperation}
    {file : Fin maxFiles} :
    file ∈ pool.eligible operation ↔ pool.allows operation file = true := by
  simp [eligible]

/-- A granted candidate changes what is modelled of its own path only. -/
theorem recordGrant_of_ne
    {pool : PoolState}
    {candidate : Candidate}
    {file : Fin maxFiles}
    (apart : file ≠ candidate.file) :
    (pool.recordGrant candidate).present file = pool.present file ∧
      (pool.recordGrant candidate).tracked file = pool.tracked file := by
  unfold recordGrant
  cases candidate.operation <;> simp [apart]

end PoolState

/-! ## Generation -/

/-- `arbitrary::Unstructured`: what is drawn from the entropy that is left. -/
structure Unstructured (σ : Type) where
  isEmpty : σ -> Bool
  /-- A number of a range. -/
  intInRange : σ -> Nat -> Nat -> Option Nat × σ
  /-- The index of one of so many choices. -/
  choose : σ -> Nat -> Option Nat × σ

/-- Sequential generator. -/
structure SeqGenerator (σ : Type) where
  /-- The unconsumed entropy. -/
  unstructured : σ
  pool : PoolState
  /-- Candidates emitted so far, the ones a policy later refused included. -/
  step : Nat

section Generation

variable {σ : Type} (entropy : Unstructured σ)

/-- Starts generation, every pooled path present and tracked. -/
def SeqGenerator.new (data : σ) : SeqGenerator σ where
  unstructured := data
  pool := .seeded
  step := 0

/-- One of a list of choices. -/
def chooseOf
    {α : Type}
    (state : σ)
    (choices : List α) : Option α × σ :=
  let (index, rest) := entropy.choose state choices.length
  (index.bind fun index => choices[index]?, rest)

/-- Consumes the encoded step budget. -/
def SeqGenerator.stepBudget
    (generator : SeqGenerator σ) : Nat × SeqGenerator σ :=
  let (budget, rest) :=
    entropy.intInRange generator.unstructured 0 maxTraceLength
  (budget.getD 0, { generator with unstructured := rest })

/-- Next candidate whose file-system precondition currently holds. -/
def SeqGenerator.nextCandidate
    (generator : SeqGenerator σ) : Option Candidate × SeqGenerator σ :=
  if entropy.isEmpty generator.unstructured then (none, generator)
  else
    match entropy.intInRange generator.unstructured 0 (maxAgents - 1) with
    | (none, rest) => (none, { generator with unstructured := rest })
    | (some agent, rest) =>
        match chooseOf entropy rest (ops.filter fun operation =>
            generator.pool.eligible operation ≠ []) with
        | (none, rest) => (none, { generator with unstructured := rest })
        | (some operation, rest) =>
            match chooseOf entropy rest (generator.pool.eligible operation) with
            | (none, rest) => (none, { generator with unstructured := rest })
            | (some file, rest) =>
                (some ⟨agent, operation, file, generator.step⟩,
                  { generator with
                    unstructured := rest
                    step := generator.step + 1 })

/-- Applies the effect of a granted candidate. -/
def SeqGenerator.recordGrant
    (generator : SeqGenerator σ)
    (candidate : Candidate) : SeqGenerator σ :=
  { generator with pool := generator.pool.recordGrant candidate }

/-! ## Validation -/

/-- Counters describing one generated and validated trace. -/
structure TraceSummary where
  granted : Nat
  denied : Nat
  commits : Nat
  deriving DecidableEq, Repr

/-- A generated trace reduced to the operations the policy granted. -/
structure ValidatedTrace where
  /-- Granted operations in generation order. -/
  operations : List Candidate
  /-- The granted events in order. -/
  history : List Event
  /-- Counters for the whole trace, the refused candidates included. -/
  summary : TraceSummary

/-- A trace before any candidate. -/
def ValidatedTrace.empty : ValidatedTrace where
  operations := []
  history := []
  summary := ⟨0, 0, 0⟩

/-- Adds a granted candidate. -/
def ValidatedTrace.grant
    (trace : ValidatedTrace)
    (candidate : Candidate) : ValidatedTrace where
  operations := trace.operations ++ [candidate]
  history := trace.history ++ [candidate.event]
  summary :=
    { trace.summary with
      granted := trace.summary.granted + 1
      commits :=
        if candidate.operation = .commit then trace.summary.commits + 1
        else trace.summary.commits }

/-- Counts a refused candidate. -/
def ValidatedTrace.deny (trace : ValidatedTrace) : ValidatedTrace :=
  { trace with
    summary := { trace.summary with denied := trace.summary.denied + 1 } }

variable [LinearOrder TestNode] [LinearOrder Regex] [LinearOrder TransitionNode]

/-- The loop of `validate_trace`, for a budget; `none` is a panic of the
policy. -/
def validateSteps :
    Nat -> GitPolicy -> SeqGenerator σ -> ValidatedTrace ->
      Option (SeqGenerator σ × ValidatedTrace)
  | 0, _, generator, trace => some (generator, trace)
  | budget + 1, policy, generator, trace =>
      match generator.nextCandidate entropy with
      | (none, generator) => some (generator, trace)
      | (some candidate, generator) => do
          let (decision, policy) ← policy.decide trace.history candidate.event
          match decision with
          | .grant =>
              validateSteps budget policy (generator.recordGrant candidate)
                (trace.grant candidate)
          | .deny _ _ => validateSteps budget policy generator trace.deny

/-- `validate_trace`, with the generator it ends in. -/
def validateTrace (data : σ) : Option (SeqGenerator σ × ValidatedTrace) := do
  let policy ← GitPolicy.new
  let (budget, generator) := (SeqGenerator.new data).stepBudget entropy
  validateSteps entropy budget policy generator .empty

end Generation

end Trace
end Marsh
