import Marsh.Validator.Compile

/-!
# Stateful authorization

A validator holds compiled rules in source order and the committed history.
One check consults the rules in order, stops at the first violated one, and
appends the event when there is none.
-/

set_option linter.dupNamespace false

namespace Marsh
namespace Validator

/-- Diagnostic returned when the first matching rule is violated. -/
structure Denial where
  /-- Whether the violated rule required or forbade its tail language. -/
  mode : RuleMode
  /-- Candidate event that was denied and was not appended. -/
  event : Event
  /-- Human-readable explanation of the failed history relation. -/
  message : String
  deriving DecidableEq

/-- Result of checking one capability request. -/
inductive Decision (Metadata : Type)
  /-- Request was accepted and appended to committed history. -/
  | grant (grant : Grant Metadata)
  /-- Request was rejected; committed history is unchanged. -/
  | denied (denial : Denial)

/-- Whether the decision is a grant. -/
def Decision.isGrant {Metadata : Type} : Decision Metadata -> Bool
  | .grant _ => true
  | .denied _ => false

/-- Opaque committed-history cursor. -/
structure Checkpoint where
  /-- Length of the history when the checkpoint was taken. -/
  position : Nat
  deriving DecidableEq

/-- Stateful validator for a fixed ordered rule set. -/
structure Validator where
  /-- Compiled rules in source order. -/
  rules : List RuntimeRule
  /-- Granted events in acceptance order. -/
  history : List Event

/-- Compiled rules of a validator under construction. -/
structure ValidatorBuilder where
  /-- Compiled rules in source order. -/
  rules : List RuntimeRule

/-- The denial a violated rule produces. -/
def RuleMode.denial (mode : RuleMode) (event : Event) : Denial where
  mode := mode
  event := event
  message :=
    let relation := match mode with
      | .require => "does not satisfy required"
      | .forbid => "satisfies forbidden"
    "committed history " ++ relation ++ " past-regex rule"

section Order

variable [LinearOrder TestNode] [LinearOrder Regex] [LinearOrder TransitionNode]

namespace ValidatorBuilder

/-- Creates an empty builder. -/
def new : ValidatorBuilder := ⟨[]⟩

/-- Resolves and appends one complete source rule. -/
def addRule
    (builder : ValidatorBuilder)
    (source : Rule) : Option (Except CompileError ValidatorBuilder) := do
  match ← compileRule source with
  | .error failure => pure (.error failure)
  | .ok rule => pure (.ok ⟨builder.rules ++ [rule]⟩)

/-- Appends source rules in order, up to the first that does not compile. -/
def addRules (builder : ValidatorBuilder) :
    List Rule -> Option (Except CompileError ValidatorBuilder)
  | [] => some (.ok builder)
  | source :: sources => do
      match ← builder.addRule source with
      | .error failure => pure (.error failure)
      | .ok builder => builder.addRules sources

/-- Finishes compilation with an empty committed history. -/
def finish (builder : ValidatorBuilder) : Validator where
  rules := builder.rules
  history := []

end ValidatorBuilder

/-- Consults the rules in order: the denial of the first violated one, and the
rules with the derivatives learned on the way. -/
def checkRules
    (history : List Event)
    (event : Event) :
    List RuntimeRule -> Option (Option Denial × List RuntimeRule)
  | [] => some (none, [])
  | rule :: rules => do
      let (accepted, rule) ← rule.acceptsHistory history event
      match accepted with
      | some accepted =>
          if rule.mode.violated accepted then
            pure (some (rule.mode.denial event), rule :: rules)
          else
            let (denial, rules) ← checkRules history event rules
            pure (denial, rule :: rules)
      | none =>
          let (denial, rules) ← checkRules history event rules
          pure (denial, rule :: rules)

namespace Validator

/-- Checks one request against all rules in source order. -/
def check {Metadata : Type}
    (validator : Validator)
    (request : Request Metadata) :
    Option (Decision Metadata × Validator) := do
  let (denial, rules) ←
    checkRules validator.history request.event validator.rules
  match denial with
  | some denial => pure (.denied denial, { validator with rules := rules })
  | none =>
      pure (.grant { event := request.event, metadata := request.metadata },
        { rules := rules, history := validator.history ++ [request.event] })

/-- Captures the current committed-history position. -/
def checkpoint (validator : Validator) : Checkpoint :=
  ⟨validator.history.length⟩

/-- Restores history to a captured position; `none` is the panic on a
checkpoint beyond the history. -/
def rollback
    (validator : Validator)
    (checkpoint : Checkpoint) : Option Validator :=
  if checkpoint.position ≤ validator.history.length then
    some { validator with
      history := validator.history.take checkpoint.position }
  else none

end Validator

end Order

end Validator
end Marsh
