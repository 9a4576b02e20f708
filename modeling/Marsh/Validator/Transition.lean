import Marsh.Validator.Normalize

/-!
# Symbolic transitions

A transition describes the successor state for every event at once, as a
decision structure over tests.  The constructors call each other freely, with
no recursion measure written down; they are modelled as partial functions
whose `none` is a call that never returns.
-/

namespace Marsh
namespace Validator

open Library

/-- Normalized symbolic transition over one unresolved event. -/
inductive TransitionNode
  | const (regex : Regex)
  | conditional
      (test : TestNode)
      (thenTransition elseTransition : TransitionNode)
  | union (children : List TransitionNode)
  | intersect (children : List TransitionNode)
  | not (inner : TransitionNode)
  | append (transition : TransitionNode) (suffix : List Regex)

/-- Lifts one regex state into a constant transition. -/
def transitionConst (regex : Regex) : TransitionNode :=
  .const regex

/-- Constant transition to the empty language. -/
def transitionEmpty : TransitionNode := transitionConst .empty

/-- Constant transition to the universal language. -/
def transitionAll : TransitionNode := transitionConst .all

/-- Constant transition to epsilon. -/
def transitionEpsilon : TransitionNode := transitionConst .epsilon

/-- The regex of a constant operand. -/
def constantOperand : TransitionNode -> Option Regex
  | .const regex => some regex
  | _ => none

/-- Collects union operands: a universal leaf decides the result (`none`),
empty leaves are dropped and nested unions are flattened. -/
def flattenTransitionUnion :
    List TransitionNode -> Option (List TransitionNode)
  | [] => some []
  | .const .all :: _ => none
  | .const .empty :: rest => flattenTransitionUnion rest
  | .union nested :: rest => (flattenTransitionUnion rest).map (nested ++ ·)
  | child :: rest => (flattenTransitionUnion rest).map (child :: ·)

/-- Collects intersection operands, dually to `flattenTransitionUnion`. -/
def flattenTransitionIntersect :
    List TransitionNode -> Option (List TransitionNode)
  | [] => some []
  | .const .empty :: _ => none
  | .const .all :: rest => flattenTransitionIntersect rest
  | .intersect nested :: rest =>
      (flattenTransitionIntersect rest).map (nested ++ ·)
  | child :: rest => (flattenTransitionIntersect rest).map (child :: ·)

/-- Closes a union over its final operands. -/
def closeTransitionUnion : List TransitionNode -> TransitionNode
  | [] => transitionEmpty
  | [only] => only
  | flat => .union flat

/-- Factors of a normalized suffix. -/
def suffixFactors : Regex -> List Regex
  | .concat factors => factors
  | normalized => [normalized]

section Order

variable [LinearOrder TestNode] [LinearOrder Regex]

/-- Combines all constant operands of a union through `regexUnion`; `none` is
a combination that is universal. -/
def groupUnionConstants
    (flat : List TransitionNode) : Option (List TransitionNode) :=
  let constants := flat.filterMap constantOperand
  let others := flat.filter fun child => (constantOperand child).isNone
  if constants.isEmpty then some others
  else
    let regex := regexUnion constants
    if regex = .all then none
    else if regex ≠ .empty then some (others ++ [transitionConst regex])
    else some others

/-- Combines all constant operands of an intersection through
`regexIntersect`; `none` is a combination that is empty. -/
def groupIntersectConstants
    (flat : List TransitionNode) : Option (List TransitionNode) :=
  let constants := flat.filterMap constantOperand
  let others := flat.filter fun child => (constantOperand child).isNone
  if constants.isEmpty then some others
  else
    let regex := regexIntersect constants
    if regex = .empty then none
    else if regex ≠ .all then some (others ++ [transitionConst regex])
    else some others

variable [LinearOrder TransitionNode]

/-- Interns an already path-cleaned conditional with local reductions. -/
def internTransitionIf
    (test : TestNode)
    (thenTransition elseTransition : TransitionNode) : TransitionNode :=
  if test = .tt then thenTransition
  else if test = .ff then elseTransition
  else if thenTransition = elseTransition then thenTransition
  else .conditional test thenTransition elseTransition

/-- Constructs flattened, ordered, deduplicated transition union. -/
def transitionUnion (children : List TransitionNode) : TransitionNode :=
  match flattenTransitionUnion children with
  | none => transitionAll
  | some collected =>
      match groupUnionConstants collected with
      | none => transitionAll
      | some grouped => closeTransitionUnion (sortDedup grouped)

/-- Whether the left of two conditionals with unequal tests expands over the
right one: a guarded conditional first, else the lower test. -/
def expandLeft
    (leftTest : TestNode)
    (leftElse : TransitionNode)
    (rightTest : TestNode)
    (rightElse : TransitionNode) : Bool :=
  if leftElse = transitionEmpty then true
  else if rightElse = transitionEmpty then false
  else decide (leftTest < rightTest)

/-- A cleaning of a transition under a path condition. -/
abbrev PathCleaning := TransitionNode -> TestNode -> Option TransitionNode

/-- A cleaning of a conditional, given by its parts, under a path condition. -/
abbrev ConditionalCleaning :=
  TestNode -> TransitionNode -> TransitionNode -> TestNode ->
    Option TransitionNode

/-- A constructor of conditionals. -/
abbrev Conditional :=
  TestNode -> TransitionNode -> TransitionNode -> Option TransitionNode

/-- An intersection of two conditionals, given by their parts. -/
abbrev ConditionalPairing :=
  TestNode -> TransitionNode -> TransitionNode ->
    TestNode -> TransitionNode -> TransitionNode -> Option TransitionNode

/-- A constructor of intersections. -/
abbrev Intersection := List TransitionNode -> Option TransitionNode

/-- A constructor of complements. -/
abbrev Complement := TransitionNode -> Option TransitionNode

/-- A constructor of appended transitions. -/
abbrev Appending := TransitionNode -> List Regex -> Option TransitionNode

-- A call is written with `apply`, which leaves no mark of where it stands in the
-- fixpoint that is taken.
mutual

/-- Rewrites a transition under one accumulated path condition. -/
def cleanTransitionPath
    (transition : TransitionNode)
    (path : TestNode) : Option TransitionNode :=
  match transition with
  | .const _ => some transition
  | .conditional test thenTransition elseTransition =>
      (by apply cleanConditionalPath : ConditionalCleaning) test thenTransition
        elseTransition path
  | .union children => do
      let children ← children.mapM fun child =>
        (by apply cleanTransitionPath : PathCleaning) child path
      pure (transitionUnion children)
  | .intersect children => do
      let children ← children.mapM fun child =>
        (by apply cleanTransitionPath : PathCleaning) child path
      (by apply transitionIntersect : Intersection) children
  | .not inner => do
      let inner ← (by apply cleanTransitionPath : PathCleaning) inner path
      (by apply transitionNot : Complement) inner
  | .append transition suffix => do
      let transition ←
        (by apply cleanTransitionPath : PathCleaning) transition path
      (by apply transitionAppend : Appending) transition suffix
partial_fixpoint

/-- Cleans one conditional and its descendants under a path condition. -/
def cleanConditionalPath
    (test : TestNode)
    (thenTransition elseTransition : TransitionNode)
    (path : TestNode) : Option TransitionNode :=
  if test = .tt then
    (by apply cleanTransitionPath : PathCleaning) thenTransition path
  else if test = .ff then
    (by apply cleanTransitionPath : PathCleaning) elseTransition path
  else if thenTransition = elseTransition then
    (by apply cleanTransitionPath : PathCleaning) thenTransition path
  else
    let truePath := testAnd [path, test]
    let falsePath := testAnd [path, testNot test]
    if truePath = .ff then
      (by apply cleanTransitionPath : PathCleaning) elseTransition falsePath
    else if falsePath = .ff then
      (by apply cleanTransitionPath : PathCleaning) thenTransition truePath
    else do
      let thenTransition ←
        (by apply cleanTransitionPath : PathCleaning) thenTransition truePath
      let elseTransition ←
        (by apply cleanTransitionPath : PathCleaning) elseTransition falsePath
      pure (internTransitionIf test thenTransition elseTransition)
partial_fixpoint

/-- Constructs a conditional and removes path-infeasible nested branches. -/
def transitionIf
    (test : TestNode)
    (thenTransition elseTransition : TransitionNode) : Option TransitionNode :=
  (by apply cleanConditionalPath : ConditionalCleaning) test thenTransition
    elseTransition .tt
partial_fixpoint

/-- Intersects two transitions with one deterministic expansion step. -/
def transitionIntersectPair
    (left right : TransitionNode) : Option TransitionNode :=
  if left = right then some left
  else
    match left, right with
    | .const .empty, _ => some transitionEmpty
    | _, .const .empty => some transitionEmpty
    | .const .all, _ => some right
    | _, .const .all => some left
    | .const leftRegex, .const rightRegex =>
        some (transitionConst (regexIntersect [leftRegex, rightRegex]))
    | .conditional leftTest leftThen leftElse,
        .conditional rightTest rightThen rightElse =>
        (by apply transitionIntersectConditionals : ConditionalPairing)
          leftTest leftThen leftElse rightTest rightThen rightElse
    | .union children, _ => do
        let intersections ← children.mapM fun child =>
          (by apply transitionIntersect : Intersection) [child, right]
        pure (transitionUnion intersections)
    | _, .union children => do
        let intersections ← children.mapM fun child =>
          (by apply transitionIntersect : Intersection) [left, child]
        pure (transitionUnion intersections)
    | .conditional test thenTransition elseTransition, _ => do
        let thenTransition ←
          (by apply transitionIntersect : Intersection) [thenTransition, right]
        let elseTransition ←
          (by apply transitionIntersect : Intersection) [elseTransition, right]
        (by apply transitionIf : Conditional) test thenTransition elseTransition
    | _, .conditional test thenTransition elseTransition => do
        let thenTransition ←
          (by apply transitionIntersect : Intersection) [left, thenTransition]
        let elseTransition ←
          (by apply transitionIntersect : Intersection) [left, elseTransition]
        (by apply transitionIf : Conditional) test thenTransition elseTransition
    | _, _ => some (.intersect (if left ≤ right then [left, right]
        else [right, left]))
partial_fixpoint

/-- Intersects two conditionals, preserving the deterministic guard order. -/
def transitionIntersectConditionals
    (leftTest : TestNode)
    (leftThen leftElse : TransitionNode)
    (rightTest : TestNode)
    (rightThen rightElse : TransitionNode) : Option TransitionNode :=
  if leftElse = transitionEmpty ∧ rightElse = transitionEmpty then
    let guard := testAnd [leftTest, rightTest]
    if guard = .ff then some transitionEmpty
    else do
      let thenTransition ←
        (by apply transitionIntersect : Intersection) [leftThen, rightThen]
      (by apply transitionIf : Conditional) guard thenTransition transitionEmpty
  else if leftTest = rightTest then do
    let thenTransition ←
      (by apply transitionIntersect : Intersection) [leftThen, rightThen]
    let elseTransition ←
      (by apply transitionIntersect : Intersection) [leftElse, rightElse]
    (by apply transitionIf : Conditional) leftTest thenTransition elseTransition
  else if expandLeft leftTest leftElse rightTest rightElse then do
    let right := .conditional rightTest rightThen rightElse
    let thenTransition ←
      (by apply transitionIntersect : Intersection) [leftThen, right]
    let elseTransition ←
      (by apply transitionIntersect : Intersection) [leftElse, right]
    (by apply transitionIf : Conditional) leftTest thenTransition elseTransition
  else do
    let left := .conditional leftTest leftThen leftElse
    let thenTransition ←
      (by apply transitionIntersect : Intersection) [left, rightThen]
    let elseTransition ←
      (by apply transitionIntersect : Intersection) [left, rightElse]
    (by apply transitionIf : Conditional) rightTest thenTransition elseTransition
partial_fixpoint

/-- Constructs transition intersection in deterministic disjunctive form. -/
def transitionIntersect
    (children : List TransitionNode) : Option TransitionNode :=
  match flattenTransitionIntersect children with
  | none => some transitionEmpty
  | some collected =>
      match groupIntersectConstants collected with
      | none => some transitionEmpty
      | some grouped =>
          match sortDedup grouped with
          | [] => some transitionAll
          | first :: rest => rest.foldlM (by apply transitionIntersectPair) first
partial_fixpoint

/-- Pushes complement through Boolean structure to the regex leaves. -/
def transitionNot (transition : TransitionNode) : Option TransitionNode :=
  match transition with
  | .const regex => some (transitionConst (regexNot regex))
  | .conditional test thenTransition elseTransition =>
      if thenTransition = transitionAll ∧ elseTransition = transitionEmpty then
        (by apply transitionIf : Conditional) (testNot test) transitionAll
          transitionEmpty
      else do
        let thenTransition ←
          (by apply transitionNot : Complement) thenTransition
        let elseTransition ←
          (by apply transitionNot : Complement) elseTransition
        (by apply transitionIf : Conditional) test thenTransition elseTransition
  | .union children => do
      let complements ← children.mapM (by apply transitionNot)
      (by apply transitionIntersect : Intersection) complements
  | .intersect children => do
      let complements ← children.mapM (by apply transitionNot)
      pure (transitionUnion complements)
  | .not inner => some inner
  | .append _ _ => some (.not transition)
partial_fixpoint

/-- Appends a fixed regex suffix to every reachable transition result. -/
def transitionAppend
    (transition : TransitionNode)
    (suffix : List Regex) : Option TransitionNode :=
  if suffix.isEmpty then some transition
  else
    let normalized := regexConcat suffix
    if normalized = .epsilon then some transition
    else if normalized = .empty then some transitionEmpty
    else
      let suffix := suffixFactors normalized
      match transition with
      | .const regex => some (transitionConst (regexConcat (regex :: suffix)))
      | .union children => do
          let appended ← children.mapM fun child =>
            (by apply transitionAppend : Appending) child suffix
          pure (transitionUnion appended)
      | .conditional test thenTransition elseTransition => do
          let thenTransition ←
            (by apply transitionAppend : Appending) thenTransition suffix
          let elseTransition ←
            (by apply transitionAppend : Appending) elseTransition suffix
          (by apply transitionIf : Conditional) test thenTransition elseTransition
      | .append transition existing =>
          (by apply transitionAppend : Appending) transition (existing ++ suffix)
      | .intersect _ => some (.append transition suffix)
      | .not _ => some (.append transition suffix)
partial_fixpoint

end

end Order

end Validator
end Marsh
