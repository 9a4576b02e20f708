import Marsh.Validator.Compile

/-!
# The policy kernel

The pieces every trace policy is built from: one-event tests over the
head-bound principal and resource, the two tail shapes that classify a
resource's history, the pairing of a rule with the diagnostic its violation
renders, and the loop that walks a compiled table.
-/

namespace Marsh
namespace Policy

open Library Validator

/-! ## Atoms -/

/-- Head variable bound to the acting principal. -/
def principalVar : String := "p"

/-- Head variable bound to the candidate's resource. -/
def resourceVar : String := "r"

/-- An event whose principal compares against the head-bound principal. -/
def principalIs (comparison : Comparison) : TestExpr :=
  .atom ⟨comparison, .principal (.variable principalVar)⟩

/-- An event whose resource compares against the head-bound resource. -/
def resourceIs (comparison : Comparison) : TestExpr :=
  .atom ⟨comparison, .resource (.variable resourceVar)⟩

/-- An event whose action compares against a constant. -/
def actionIs (action : Action) (comparison : Comparison) : TestExpr :=
  .atom ⟨comparison, .action (.constant action)⟩

/-! ## Tail shapes -/

/-- The last state-changing event on the head resource is `setter`. -/
def lastStateChange (setter stable : TestExpr) : RegexExpr :=
  .concat [.all, .test setter, .star (.test stable)]

/-- Every event in history is `stable`. -/
def neverStateChange (stable : TestExpr) : RegexExpr :=
  .star (.test stable)

/-! ## Rules and decisions -/

/-- Renders a violated rule's failed precondition and allowed fixes. -/
abbrev Diagnostic (Context : Type) := Context -> String × List String

/-- One trace-policy rule paired with the diagnostic its violation surfaces. -/
structure PolicyRule (Context : Type) where
  /-- Source rule. -/
  rule : Rule
  /-- Rendering of its violation. -/
  diagnostic : Diagnostic Context

/-- A `forbid` rule with an action-constant head over the acting principal and
resource. -/
def forbid {Context : Type}
    (action : Action)
    (tail : RegexExpr)
    (diagnostic : Diagnostic Context) : PolicyRule Context where
  rule :=
    { mode := .forbid
      head :=
        { principal := .variable principalVar
          action := .constant action
          resource := .variable resourceVar }
      tail := tail }
  diagnostic := diagnostic

/-- Verdict of a policy on one candidate event. -/
inductive PolicyDecision
  /-- Request is legal under the policy. -/
  | grant
  /-- The precondition the request violated, and fixes that would unblock it. -/
  | deny (failedPrecondition : String) (allowedFixes : List String)
  deriving DecidableEq, Repr

section Order

variable [LinearOrder TestNode] [LinearOrder Regex] [LinearOrder TransitionNode]

/-- One compiled rule paired with the diagnostic of its violation. -/
structure CompiledPolicyRule (Context : Type) where
  /-- Compiled rule with its derivative cache. -/
  runtime : RuntimeRule
  /-- Rendering of its violation. -/
  diagnostic : Diagnostic Context

/-- A policy table compiled once; decisions change only derivative caches. -/
structure CompiledPolicy (Context : Type) where
  /-- Compiled rules in source order. -/
  rules : List (CompiledPolicyRule Context)

variable {Context : Type}

/-- Compiles every source rule in order, up to the first failure. -/
def compileRules :
    List (PolicyRule Context) ->
      Option (Except CompileError (List (CompiledPolicyRule Context)))
  | [] => some (.ok [])
  | source :: sources => do
      match ← compileRule source.rule with
      | .error failure => pure (.error failure)
      | .ok runtime =>
          match ← compileRules sources with
          | .error failure => pure (.error failure)
          | .ok compiled =>
              pure (.ok (⟨runtime, source.diagnostic⟩ :: compiled))

/-- Compiles a policy table. -/
def CompiledPolicy.new (rules : List (PolicyRule Context)) :
    Option (Except CompileError (CompiledPolicy Context)) := do
  match ← compileRules rules with
  | .error failure => pure (.error failure)
  | .ok compiled => pure (.ok ⟨compiled⟩)

/-- Walks compiled rules in order and renders the first violation. -/
def decideRules
    (history : List Event)
    (probe : Event)
    (context : Context) :
    List (CompiledPolicyRule Context) ->
      Option (PolicyDecision × List (CompiledPolicyRule Context))
  | [] => some (.grant, [])
  | rule :: rules => do
      let (inside, runtime) ← rule.runtime.acceptsHistory history probe
      let next := { rule with runtime := runtime }
      let proceed := do
        let (decision, rules) ← decideRules history probe context rules
        pure (decision, next :: rules)
      match inside with
      | none => proceed
      | some inside =>
          if runtime.mode.violated inside then
            let (failedPrecondition, allowedFixes) := rule.diagnostic context
            pure (.deny failedPrecondition allowedFixes, next :: rules)
          else proceed

/-- Decides a probe against a history; `context` is what a violated rule's
diagnostic renders from. -/
def CompiledPolicy.decide
    (policy : CompiledPolicy Context)
    (history : List Event)
    (probe : Event)
    (context : Context) :
    Option (PolicyDecision × CompiledPolicy Context) := do
  let (decision, rules) ← decideRules history probe context policy.rules
  pure (decision, ⟨rules⟩)

end Order

end Policy
end Marsh
