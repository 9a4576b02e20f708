import Marsh.Library.BooleanTest
import Marsh.Library.ExtendedRegex
import Marsh.Validator.Model

/-!
# Source language of policy rules

Owned expressions a rule is written in, with their denotational semantics: a
valuation of the head's variables turns the tail into a set of histories, with
no reference to how a matcher decides membership.
-/

namespace Marsh
namespace Validator

open Library

/-- Coordinate of the capability product. -/
inductive Component
  | principal
  | action
  | resource
  deriving DecidableEq, Repr

/-- Constant-or-variable pattern for one product component. -/
inductive ComponentPattern (Value : Type)
  | constant (value : Value)
  | variable (name : String)
  deriving DecidableEq, Repr

/-- Candidate-only pattern over the capability product. -/
structure Head where
  /-- Principal constant or variable. -/
  principal : ComponentPattern Principal
  /-- Action constant or variable. -/
  action : ComponentPattern Action
  /-- Resource constant or variable. -/
  resource : ComponentPattern Resource

/-- Comparison applied by a one-event atom. -/
inductive Comparison
  | eq
  | neq
  deriving DecidableEq, Repr

namespace Comparison

/-- The opposite comparison. -/
def not : Comparison -> Comparison
  | .eq => .neq
  | .neq => .eq

/-- Outcome of the comparison, given whether the components are equal. -/
def apply : Comparison -> Bool -> Bool
  | .eq, equal => equal
  | .neq, equal => !equal

@[simp] theorem apply_eq (equal : Bool) : eq.apply equal = equal := rfl

@[simp] theorem apply_neq (equal : Bool) : neq.apply equal = !equal := rfl

@[simp] theorem apply_not (comparison : Comparison) (equal : Bool) :
    comparison.not.apply equal = !comparison.apply equal := by
  cases comparison <;> simp [not]

@[simp] theorem not_not (comparison : Comparison) :
    comparison.not.not = comparison := by
  cases comparison <;> rfl

theorem ne_iff_eq_not {left right : Comparison} :
    left ≠ right ↔ left = right.not := by
  cases left <;> cases right <;> simp [not]

end Comparison

/-- One-event component pattern. -/
inductive AtomPattern
  | principal (pattern : ComponentPattern Principal)
  | action (pattern : ComponentPattern Action)
  | resource (pattern : ComponentPattern Resource)
  deriving DecidableEq, Repr

/-- A component equality or disequality predicate. -/
structure TestAtom where
  /-- Comparison applied after resolving the component pattern. -/
  comparison : Comparison
  /-- Typed component pattern. -/
  pattern : AtomPattern
  deriving DecidableEq, Repr

/-- Boolean expression over one history event. -/
abbrev TestExpr := BooleanTest TestAtom

/-- Regular expression over complete event histories. -/
abbrev RegexExpr := ExtendedRegex TestExpr

/-- Relationship required between committed history and a matching tail. -/
inductive RuleMode
  | require
  | forbid
  deriving DecidableEq, Repr

/-- Complete source rule. -/
structure Rule where
  /-- Required or forbidden relationship to the tail language. -/
  mode : RuleMode
  /-- Candidate-only pattern declaring the rule's variables. -/
  head : Head
  /-- Complete-history language evaluated under candidate bindings. -/
  tail : RegexExpr

/-! ## Denotational semantics -/

/-- A value for every variable, in each of the three domains. -/
structure Valuation where
  /-- Values of principal variables. -/
  principal : String -> Principal
  /-- Values of action variables. -/
  action : String -> Action
  /-- Values of resource variables. -/
  resource : String -> Resource

/-- The value a pattern stands for. -/
def ComponentPattern.denote {Value : Type}
    (assignment : String -> Value) : ComponentPattern Value -> Value
  | .constant value => value
  | .variable name => assignment name

/-- The event a head stands for. -/
def Head.instantiate (head : Head) (valuation : Valuation) : Event where
  principal := head.principal.denote valuation.principal
  action := head.action.denote valuation.action
  resource := head.resource.denote valuation.resource

/-- Whether the selected component of an event is the one a pattern names. -/
def AtomPattern.denote (valuation : Valuation) (event : Event) :
    AtomPattern -> Bool
  | .principal pattern =>
      decide (pattern.denote valuation.principal = event.principal)
  | .action pattern =>
      decide (pattern.denote valuation.action = event.action)
  | .resource pattern =>
      decide (pattern.denote valuation.resource = event.resource)

/-- Whether an event satisfies a source predicate. -/
def TestExpr.accepts
    (valuation : Valuation)
    (test : TestExpr)
    (event : Event) : Prop :=
  test.eval (fun atom =>
    atom.comparison.apply (atom.pattern.denote valuation event)) = true

/-- The histories a rule's tail describes under a valuation of its head. -/
def Rule.tailLanguage
    (rule : Rule)
    (valuation : Valuation) : Language Event :=
  rule.tail.language (TestExpr.accepts valuation)

/-- The relation a rule asks of a history, under one valuation. -/
def Rule.SatisfiedUnder
    (rule : Rule)
    (valuation : Valuation)
    (history : List Event) : Prop :=
  match rule.mode with
  | .require => history ∈ rule.tailLanguage valuation
  | .forbid => history ∉ rule.tailLanguage valuation

/-- A rule admits a candidate after a history when the history stands in the
rule's relation to its tail under every valuation that makes its head the
candidate.  A rule whose head does not match admits every history. -/
def Rule.Admits
    (rule : Rule)
    (history : List Event)
    (candidate : Event) : Prop :=
  ∀ valuation, rule.head.instantiate valuation = candidate ->
    rule.SatisfiedUnder valuation history

end Validator
end Marsh
