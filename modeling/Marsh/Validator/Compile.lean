import Marsh.Validator.Symbolic

/-!
# Compilation of source rules

A rule's head declares its variables, each in one component of the product;
its tail may use no others.  Compilation resolves the tail through the smart
constructors and tabulates its reachable states.
-/

namespace Marsh
namespace Validator

open Library

/-- Rule-compilation failure detected before a validator can execute. -/
inductive CompileError
  /-- One variable name occurs in different product components. -/
  | variableComponentConflict (name : String)
  /-- A tail references a variable that its head does not bind. -/
  | unboundVariable (name : String)
  deriving DecidableEq, Repr

/-! ## Variable environment -/

/-- Rule-local type environment declared by a source head. -/
structure VariableEnvironment where
  /-- Component of each declared variable. -/
  variableDomains : List (String × Component)
  deriving DecidableEq, Repr

namespace VariableEnvironment

/-- The environment before any head coordinate is compiled. -/
def empty : VariableEnvironment := ⟨[]⟩

/-- Records one head occurrence; the error is the component the variable was
bound in before. -/
def bind
    (environment : VariableEnvironment)
    (name : String)
    (component : Component) : Except Component VariableEnvironment :=
  match environment.variableDomains.lookup name with
  | some bound =>
      if bound ≠ component then .error bound else .ok environment
  | none => .ok ⟨(name, component) :: environment.variableDomains⟩

/-- Structural failure while resolving a variable. -/
inductive ResolveError
  /-- The rule head did not declare the variable. -/
  | unbound
  /-- The head declared the variable in another component domain. -/
  | componentConflict
  deriving DecidableEq, Repr

/-- Verifies that a tail occurrence is declared in the same component. -/
def resolve
    (environment : VariableEnvironment)
    (name : String)
    (component : Component) : Except ResolveError Unit :=
  match environment.variableDomains.lookup name with
  | some bound =>
      if bound ≠ component then .error .componentConflict else .ok ()
  | none => .error .unbound

end VariableEnvironment

/-- Compiles one head coordinate and records variable declarations. -/
def compileHeadPattern {Value : Type}
    (component : Component)
    (pattern : ComponentPattern Value)
    (environment : VariableEnvironment) :
    Except CompileError (ComponentPattern Value × VariableEnvironment) :=
  match pattern with
  | .constant value => .ok (.constant value, environment)
  | .variable name =>
      match environment.bind name component with
      | .error _ => .error (.variableComponentConflict name)
      | .ok environment => .ok (.variable name, environment)

/-- Compiles the fixed capability-product head and its environment. -/
def compileHead (head : Head) :
    Except CompileError (Head × VariableEnvironment) := do
  let (principal, environment) ←
    compileHeadPattern .principal head.principal .empty
  let (action, environment) ← compileHeadPattern .action head.action environment
  let (resource, environment) ←
    compileHeadPattern .resource head.resource environment
  pure ({ principal, action, resource }, environment)

/-- Compiles one tail component pattern after resolving its variable. -/
def compilePattern {Value : Type}
    (component : Component)
    (pattern : ComponentPattern Value)
    (environment : VariableEnvironment) :
    Except CompileError (ComponentPattern Value) :=
  match pattern with
  | .constant value => .ok (.constant value)
  | .variable name =>
      match environment.resolve name component with
      | .error .unbound => .error (.unboundVariable name)
      | .error .componentConflict => .error (.variableComponentConflict name)
      | .ok () => .ok (.variable name)

/-- Compiles the atom representation retained by test nodes. -/
def compileAtomPattern
    (pattern : AtomPattern)
    (environment : VariableEnvironment) : Except CompileError AtomPattern :=
  match pattern with
  | .principal pattern => do
      pure (.principal (← compilePattern .principal pattern environment))
  | .action pattern => do
      pure (.action (← compilePattern .action pattern environment))
  | .resource pattern => do
      pure (.resource (← compilePattern .resource pattern environment))

section Order

variable [LinearOrder TestNode] [LinearOrder Regex]

mutual

/-- Recursively compiles one boolean expression. -/
def compileTest (environment : VariableEnvironment) :
    TestExpr -> Except CompileError TestNode
  | .tt => .ok .tt
  | .ff => .ok .ff
  | .atom atom => do
      let pattern ← compileAtomPattern atom.pattern environment
      pure (.atom { atom with pattern := pattern })
  | .and children => do
      let compiled ← compileTests environment children
      pure (testAnd compiled)
  | .or children => do
      let compiled ← compileTests environment children
      pure (testOr compiled)

/-- Compiles the listed boolean expressions in order. -/
def compileTests (environment : VariableEnvironment) :
    List TestExpr -> Except CompileError (List TestNode)
  | [] => .ok []
  | child :: children => do
      let compiled ← compileTest environment child
      let rest ← compileTests environment children
      pure (compiled :: rest)

end

mutual

/-- Recursively compiles one regex expression. -/
def compileRegex (environment : VariableEnvironment) :
    RegexExpr -> Except CompileError Regex
  | .empty => .ok .empty
  | .all => .ok .all
  | .epsilon => .ok .epsilon
  | .test test => do
      let test ← compileTest environment test
      pure (regexTest test)
  | .union children => do
      let compiled ← compileRegexes environment children
      pure (regexUnion compiled)
  | .concat factors => do
      let compiled ← compileRegexes environment factors
      pure (regexConcat compiled)
  | .star inner => do
      let inner ← compileRegex environment inner
      pure (regexStar inner)
  | .intersect children => do
      let compiled ← compileRegexes environment children
      pure (regexIntersect compiled)
  | .not inner => do
      let inner ← compileRegex environment inner
      pure (regexNot inner)

/-- Compiles the listed regex expressions in order. -/
def compileRegexes (environment : VariableEnvironment) :
    List RegexExpr -> Except CompileError (List Regex)
  | [] => .ok []
  | child :: children => do
      let compiled ← compileRegex environment child
      let rest ← compileRegexes environment children
      pure (compiled :: rest)

end

/-! ## Runtime rules -/

/-- Matches one head coordinate and returns its partial substitution. -/
def matchHeadPattern {Value : Type} [DecidableEq Value]
    (inject : Value -> ResolvedValue)
    (pattern : ComponentPattern Value)
    (actual : Value) : Option CandidateSubstitution :=
  match pattern with
  | .constant expected =>
      if expected = actual then some .empty else none
  | .variable name => some (.singleton name (inject actual))

/-- Matches the candidate and merges partial substitutions. -/
def Head.matchCandidate
    (head : Head)
    (event : Event) : Option CandidateSubstitution := do
  let principal ←
    matchHeadPattern ResolvedValue.principal head.principal event.principal
  let action ← matchHeadPattern ResolvedValue.action head.action event.action
  let principalAction ← principal.merge action
  let resource ←
    matchHeadPattern ResolvedValue.resource head.resource event.resource
  principalAction.merge resource

/-- Whether a rule's relation to its tail is broken. -/
def RuleMode.violated (mode : RuleMode) (accepted : Bool) : Bool :=
  match mode with
  | .require => !accepted
  | .forbid => accepted

/-- Runtime rule with a derivative cache retained across evaluations. -/
structure RuntimeRule where
  /-- Required or forbidden relationship to the tail language. -/
  mode : RuleMode
  /-- Compiled head. -/
  head : Head
  /-- Canonical tail. -/
  tail : Regex
  /-- Derivatives computed so far. -/
  derivatives : SymbolicDerivativeCache

variable [LinearOrder TransitionNode]

/-- Matches the candidate head and evaluates committed history.  The result is
`none` inside when the head does not match. -/
def RuntimeRule.acceptsHistory
    (rule : RuntimeRule)
    (history : List Event)
    (candidate : Event) : Option (Option Bool × RuntimeRule) :=
  match rule.head.matchCandidate candidate with
  | none => some (none, rule)
  | some substitution => do
      let (accepted, derivatives) ←
        accepts rule.tail history substitution rule.derivatives
      pure (some accepted, { rule with derivatives := derivatives })

/-- Compiles and validates one complete source rule. -/
def compileRule (source : Rule) :
    Option (Except CompileError RuntimeRule) :=
  match compileHead source.head with
  | .error failure => some (.error failure)
  | .ok (head, environment) =>
      match compileRegex environment source.tail with
      | .error failure => some (.error failure)
      | .ok tail => do
          let (_, derivatives) ← precompile tail .new
          pure (.ok { mode := source.mode, head, tail, derivatives })

end Order

end Validator
end Marsh
