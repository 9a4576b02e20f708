import Marsh.Library.Absorption
import Marsh.Validator.Source

/-!
# Smart constructors of tests and regexes

Canonical nodes are hash-consed: two handles are equal exactly when the nodes
they stand for are, and handles are ordered by creation.  A handle is modelled
by the term it stands for, and the creation order by an arbitrary linear order
on terms.  Sibling lists that the code keeps sorted and searches by bisection
are strictly sorted lists searched by membership.
-/

namespace Marsh
namespace Validator

open Library

/-- Canonical boolean test over one history event. -/
abbrev TestNode := BooleanTest TestAtom

/-- Canonical regular expression over complete histories. -/
abbrev Regex := ExtendedRegex TestNode

/-! ## Relations between sibling tests -/

/-- Recognizes direct complementation between two atomic tests. -/
def complementaryTest : TestNode -> TestNode -> Bool
  | .atom left, .atom right =>
      decide (left.comparison ≠ right.comparison) &&
        decide (left.pattern = right.pattern)
  | _, _ => false

/-- Recognizes unequal constants selected from the same coordinate. -/
def distinctConstantPatterns : AtomPattern -> AtomPattern -> Bool
  | .principal (.constant left), .principal (.constant right) =>
      decide (left ≠ right)
  | .action (.constant left), .action (.constant right) =>
      decide (left ≠ right)
  | .resource (.constant left), .resource (.constant right) =>
      decide (left ≠ right)
  | _, _ => false

/-- Recognizes two atoms that use `comparison` on distinct constants. -/
def distinctConstantAtoms
    (comparison : Comparison) : TestNode -> TestNode -> Bool
  | .atom left, .atom right =>
      decide (left.comparison = comparison) &&
        decide (right.comparison = comparison) &&
        distinctConstantPatterns left.pattern right.pattern
  | _, _ => false

/-- Whether a constant atom is implied by a sibling that selects a distinct
constant with the opposite comparison. -/
def redundantConstantAtom
    (candidate : TestNode)
    (siblings : List TestNode)
    (candidateComparison : Comparison) : Bool :=
  match candidate with
  | .atom atom =>
      decide (atom.comparison = candidateComparison) &&
        siblings.any fun sibling =>
          match sibling with
          | .atom other =>
              decide (other.comparison = candidateComparison.not) &&
                distinctConstantPatterns atom.pattern other.pattern
          | _ => false
  | _ => false

/-- Outer connective whose siblings are being normalized. -/
inductive TestConnective
  | and
  | or
  deriving DecidableEq

namespace TestConnective

/-- The De Morgan dual connective. -/
def dual : TestConnective -> TestConnective
  | .and => .or
  | .or => .and

/-- Identity element removed from this connective. -/
def identity : TestConnective -> TestNode
  | .and => .tt
  | .or => .ff

/-- Absorbing element that determines the whole result. -/
def absorber : TestConnective -> TestNode
  | .and => .ff
  | .or => .tt

/-- Children of a nested occurrence of this same connective. -/
def children : TestConnective -> TestNode -> Option (List TestNode)
  | .and, .and children => some children
  | .or, .or children => some children
  | _, _ => none

/-- Comparison whose distinct constants make the connective constant. -/
def contradictoryComparison : TestConnective -> Comparison
  | .and => .eq
  | .or => .neq

/-- Comparison of an atom removable when a distinct opposite atom implies it. -/
def redundantComparison (connective : TestConnective) : Comparison :=
  connective.contradictoryComparison.not

/-- The node of this connective over normalized children. -/
def node : TestConnective -> List TestNode -> TestNode
  | .and, children => .and children
  | .or, children => .or children

end TestConnective

section Order

variable [LinearOrder TestNode]

/-- Tests are compared by the order of their handles. -/
instance : LawfulBEq TestNode := inferInstance

/-- Recognizes a compound operand absorbed by another operand. -/
def absorbedBySibling
    (candidate : TestNode)
    (siblings : List TestNode) : Bool :=
  siblings.any fun sibling =>
    -- The sole representative left by idempotence is never its own absorber.
    if sibling = candidate then false
    else
      match candidate, sibling with
      | .or nested, .or children =>
          children.all fun child => decide (child ∈ nested)
      | .and nested, .and children =>
          children.all fun child => decide (child ∈ nested)
      | .or nested, _ => decide (sibling ∈ nested)
      | .and nested, _ => decide (sibling ∈ nested)
      | _, _ => false

/-! ## Boolean tests -/

/-- Collects operands: an absorber decides the result (`none`), identities are
dropped and nested uses of the same connective are flattened. -/
def flattenTests (connective : TestConnective) :
    List TestNode -> Option (List TestNode)
  | [] => some []
  | child :: rest =>
      if child = connective.absorber then none
      else if child = connective.identity then flattenTests connective rest
      else
        match connective.children child with
        | some nested => (flattenTests connective rest).map (nested ++ ·)
        | none => (flattenTests connective rest).map (child :: ·)

/-- Whether siblings make their connective constant by complementation. -/
def testsHaveComplements
    (testNot : TestNode -> TestNode)
    (tests : List TestNode)
    (connective : TestConnective) : Bool :=
  pairSatisfies complementaryTest tests ||
    tests.any fun candidate =>
      match connective.dual.children candidate with
      | none => false
      | some dualChildren =>
          dualChildren.all fun child => decide (testNot child ∈ tests)

/-- Whether some operand has a shape that absorption or constant implication
could remove. -/
def hasRemovableShape
    (connective : TestConnective)
    (tests : List TestNode) : Bool :=
  tests.any fun candidate =>
    (connective.dual.children candidate).isSome ||
      match candidate with
      | .atom atom => decide (atom.comparison = connective.redundantComparison)
      | _ => false

/-- Operands left after absorption and constant implication. -/
def retainTests
    (connective : TestConnective)
    (tests : List TestNode) : List TestNode :=
  if hasRemovableShape connective tests then
    tests.filter fun candidate =>
      !absorbedBySibling candidate tests &&
        !redundantConstantAtom candidate tests connective.redundantComparison
  else tests

/-- Closes the variadic connective over its final operands. -/
def closeTests (connective : TestConnective) : List TestNode -> TestNode
  | [] => connective.identity
  | [only] => only
  | tests => connective.node tests

/-- Normalizes one associative, commutative, idempotent connective, given the
complement used to detect complementary siblings. -/
def testConnectiveWith
    (testNot : TestNode -> TestNode)
    (children : List TestNode)
    (connective : TestConnective) : TestNode :=
  match flattenTests connective children with
  | none => connective.absorber
  | some collected =>
      let flat := sortDedup collected
      if testsHaveComplements testNot flat connective ||
          pairSatisfies
            (distinctConstantAtoms connective.contradictoryComparison) flat then
        connective.absorber
      else closeTests connective (retainTests connective flat)

/-- Complement of tests of depth at most the fuel. -/
def testNotAux : Nat -> TestNode -> TestNode
  | _, .tt => .ff
  | _, .ff => .tt
  | _, .atom atom => .atom { atom with comparison := atom.comparison.not }
  | 0, test => test
  | fuel + 1, .and children =>
      testConnectiveWith (testNotAux fuel) (children.map (testNotAux fuel)) .or
  | fuel + 1, .or children =>
      testConnectiveWith (testNotAux fuel) (children.map (testNotAux fuel)) .and

/-- Constructs the normalized Boolean complement of one event test.

The recursion through the connective smart constructor only complements
children of already complemented operands, so the depth of the test bounds it;
`testNot_and` and `testNot_or` are the equations without the bound. -/
def testNot (test : TestNode) : TestNode :=
  testNotAux test.depth test

/-- Normalizes one connective with the real complement. -/
def testConnective
    (children : List TestNode)
    (connective : TestConnective) : TestNode :=
  testConnectiveWith testNot children connective

/-- Constructs canonical conjunction over one-event tests. -/
def testAnd (children : List TestNode) : TestNode :=
  testConnective children .and

/-- Constructs canonical disjunction over one-event tests. -/
def testOr (children : List TestNode) : TestNode :=
  testConnective children .or

/-! ## Regular expressions -/

/-- Lifts a one-event test into the regex language. -/
def regexTest (test : TestNode) : Regex :=
  if test = .ff then .empty else .test test

/-- The test of a one-event operand. -/
def testOperand : Regex -> Option TestNode
  | .test test => some test
  | _ => none

/-- Recognizes the canonical language complement of epsilon. -/
def isEpsilonComplement : Regex -> Bool
  | .not .epsilon => true
  | _ => false

/-- Whether the operand is an intersection node. -/
def isIntersect : Regex -> Bool
  | .intersect _ => true
  | _ => false

/-- Whether the operand is a union node. -/
def isUnion : Regex -> Bool
  | .union _ => true
  | _ => false

/-- Collects union operands: the universal language decides the result
(`none`), empty languages are dropped and nested unions are flattened. -/
def flattenUnion : List Regex -> Option (List Regex)
  | [] => some []
  | .all :: _ => none
  | .empty :: rest => flattenUnion rest
  | .union nested :: rest => (flattenUnion rest).map (nested ++ ·)
  | child :: rest => (flattenUnion rest).map (child :: ·)

/-- Collects intersection operands, dually to `flattenUnion`. -/
def flattenIntersect : List Regex -> Option (List Regex)
  | [] => some []
  | .empty :: _ => none
  | .all :: rest => flattenIntersect rest
  | .intersect nested :: rest => (flattenIntersect rest).map (nested ++ ·)
  | child :: rest => (flattenIntersect rest).map (child :: ·)

/-- Collects concatenation factors: the empty language decides the result
(`none`), epsilons are dropped and nested concatenations are flattened. -/
def flattenConcat : List Regex -> Option (List Regex)
  | [] => some []
  | .empty :: _ => none
  | .epsilon :: rest => flattenConcat rest
  | .concat nested :: rest => (flattenConcat rest).map (nested ++ ·)
  | child :: rest => (flattenConcat rest).map (child :: ·)

variable [LinearOrder Regex]

/-- Recognizes direct whole-language complementation. -/
def complementaryRegex (left right : Regex) : Bool :=
  (match left with
    | .not inner => decide (inner = right)
    | _ => false) ||
  (match right with
    | .not inner => decide (inner = left)
    | _ => false)

/-- Regexes are compared by the order of their handles. -/
instance : LawfulBEq Regex := inferInstance

/-- Recognizes a compound regex operand absorbed by another operand. -/
def regexAbsorbedBySibling
    (candidate : Regex)
    (siblings : List Regex) : Bool :=
  siblings.any fun sibling =>
    if sibling = candidate then false
    else
      match candidate, sibling with
      | .intersect nested, .intersect children =>
          children.all fun child => decide (child ∈ nested)
      | .union nested, .union children =>
          children.all fun child => decide (child ∈ nested)
      | .intersect nested, _ => decide (sibling ∈ nested)
      | .union nested, _ => decide (sibling ∈ nested)
      | _, _ => false

/-- Combines all one-event operands of a union through `testOr`. -/
def groupUnionTests (flat : List Regex) : List Regex :=
  let tests := flat.filterMap testOperand
  let others := flat.filter fun child => (testOperand child).isNone
  if tests.isEmpty then others
  else
    let regex := regexTest (testOr tests)
    if regex ≠ .empty then others ++ [regex] else others

/-- Combines all one-event operands of an intersection through `testAnd`;
`none` is a contradictory combination, whose language is empty. -/
def groupIntersectTests (flat : List Regex) : Option (List Regex) :=
  let tests := flat.filterMap testOperand
  let others := flat.filter fun child => (testOperand child).isNone
  if tests.isEmpty then some others
  else
    let regex := regexTest (testAnd tests)
    if regex = .empty then none else some (others ++ [regex])

/-- Drops epsilon from a union beside another nullable operand. -/
def dropSubsumedEpsilon (flat : List Regex) : List Regex :=
  if decide (.epsilon ∈ flat) &&
      flat.any (fun child => decide (child ≠ .epsilon) && child.nullable) then
    flat.filter fun child => decide (child ≠ .epsilon)
  else flat

/-- Drops `Not(Epsilon)` from an intersection beside a proper operand. -/
def dropImpliedProperness (flat : List Regex) : List Regex :=
  if flat.any (fun child => !isEpsilonComplement child && !child.nullable) then
    flat.filter fun child => !isEpsilonComplement child
  else flat

/-- Drops absorbed operands when an operand of shape `compound` occurs. -/
def retainRegexes
    (compound : Regex -> Bool)
    (flat : List Regex) : List Regex :=
  if flat.any compound then
    flat.filter fun candidate => !regexAbsorbedBySibling candidate flat
  else flat

/-- Closes a union over its final operands. -/
def closeUnion : List Regex -> Regex
  | [] => .empty
  | [only] => only
  | flat => .union flat

/-- Closes an intersection over its final operands. -/
def closeIntersect : List Regex -> Regex
  | [] => .all
  | [only] => only
  | flat => .intersect flat

/-- Closes a concatenation over its final factors. -/
def closeConcat : List Regex -> Regex
  | [] => .epsilon
  | [only] => only
  | flat => .concat flat

/-- Constructs canonical language union. -/
def regexUnion (children : List Regex) : Regex :=
  match flattenUnion children with
  | none => .all
  | some collected =>
      let flat := sortDedup (groupUnionTests collected)
      if pairSatisfies complementaryRegex flat then .all
      else closeUnion (retainRegexes isIntersect (dropSubsumedEpsilon flat))

/-- Constructs canonical language intersection. -/
def regexIntersect (children : List Regex) : Regex :=
  match flattenIntersect children with
  | none => .empty
  | some collected =>
      match groupIntersectTests collected with
      | none => .empty
      | some grouped =>
          let flat := sortDedup grouped
          if pairSatisfies complementaryRegex flat then .empty
          else if .epsilon ∈ flat then
            if flat.all ExtendedRegex.nullable then .epsilon else .empty
          else
            closeIntersect (retainRegexes isUnion (dropImpliedProperness flat))

/-- Constructs canonical ordered concatenation. -/
def regexConcat (children : List Regex) : Regex :=
  match flattenConcat children with
  | none => .empty
  | some flat => closeConcat flat

/-- Constructs canonical Kleene star. -/
def regexStar (inner : Regex) : Regex :=
  match inner with
  | .empty => .epsilon
  | .epsilon => .epsilon
  | .all => .all
  | .test .tt => .all
  | .star _ => inner
  | _ => .star inner

/-- Constructs canonical whole-language complement. -/
def regexNot (inner : Regex) : Regex :=
  match inner with
  | .empty => .all
  | .all => .empty
  | .not value => value
  | _ => .not inner

end Order

end Validator
end Marsh
