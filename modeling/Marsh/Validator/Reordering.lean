import Marsh.Library.Grouping
import Marsh.Validator.Constructors

/-!
# Order and grouping of operands

A constructor called on a list depends only on which operands are listed.  In
another grouping the handle may differ, since a group may drop an operand that
a later simplification needed; the meaning never does.
-/

namespace Marsh
namespace Validator

open Library

section Order

variable [LinearOrder TestNode]

/-! ## One call -/

/-- What an operand contributes to its connective. -/
def testPieces
    (connective : TestConnective)
    (child : TestNode) : Option (List TestNode) :=
  if child = connective.absorber then none
  else if child = connective.identity then some []
  else
    match connective.children child with
    | some nested => some nested
    | none => some [child]

theorem flattenTests_eq_collect
    (connective : TestConnective)
    (children : List TestNode) :
    flattenTests connective children =
      collect (testPieces connective) children := by
  induction children with
  | nil => rfl
  | cons child children hypothesis =>
      rw [flattenTests, collect, testPieces, hypothesis]
      split_ifs
      · rfl
      · cases collect (testPieces connective) children <;> rfl
      · cases connective.children child <;> rfl

theorem testConnective_congr
    (connective : TestConnective)
    {first second : List TestNode}
    (same : Option.Rel SameMembers
      (collect (testPieces connective) first)
      (collect (testPieces connective) second)) :
    testConnective first connective = testConnective second connective := by
  unfold testConnective testConnectiveWith
  rw [flattenTests_eq_collect, flattenTests_eq_collect]
  revert same
  generalize collect (testPieces connective) first = firstFound
  generalize collect (testPieces connective) second = secondFound
  intro same
  cases same with
  | none => rfl
  | some members =>
      dsimp only
      rw [members.sortDedup_eq]

/-- What an operand contributes to a union. -/
def unionPieces : Regex -> Option (List Regex)
  | .all => none
  | .empty => some []
  | .union nested => some nested
  | child => some [child]

/-- What an operand contributes to an intersection. -/
def intersectPieces : Regex -> Option (List Regex)
  | .empty => none
  | .all => some []
  | .intersect nested => some nested
  | child => some [child]

omit [LinearOrder TestNode] in
theorem flattenUnion_eq_collect (children : List Regex) :
    flattenUnion children = collect unionPieces children := by
  induction children with
  | nil => rfl
  | cons child children hypothesis =>
      rw [collect, ← hypothesis]
      cases child with
      | empty =>
          rw [flattenUnion]
          cases flattenUnion children <;> rfl
      | _ => rfl

omit [LinearOrder TestNode] in
theorem flattenIntersect_eq_collect (children : List Regex) :
    flattenIntersect children = collect intersectPieces children := by
  induction children with
  | nil => rfl
  | cons child children hypothesis =>
      rw [collect, ← hypothesis]
      cases child with
      | all =>
          rw [flattenIntersect]
          cases flattenIntersect children <;> rfl
      | _ => rfl

variable [LinearOrder Regex]

theorem sameMembers_groupUnionTests
    {first second : List Regex}
    (same : SameMembers first second) :
    SameMembers (groupUnionTests first) (groupUnionTests second) := by
  have tests := same.filterMap testOperand
  have others := same.filter fun child => (testOperand child).isNone
  have grouped : testOr (first.filterMap testOperand) =
      testOr (second.filterMap testOperand) :=
    testConnective_congr .or tests.collect
  unfold groupUnionTests
  dsimp only
  rw [tests.isEmpty_eq, grouped]
  split_ifs
  · exact others
  · exact others.append_right _
  · exact others

theorem groupIntersectTests_congr
    {first second : List Regex}
    (same : SameMembers first second) :
    Option.Rel SameMembers
      (groupIntersectTests first) (groupIntersectTests second) := by
  have tests := same.filterMap testOperand
  have others := same.filter fun child => (testOperand child).isNone
  have grouped : testAnd (first.filterMap testOperand) =
      testAnd (second.filterMap testOperand) :=
    testConnective_congr .and tests.collect
  unfold groupIntersectTests
  dsimp only
  rw [tests.isEmpty_eq, grouped]
  split_ifs
  · exact .some others
  · exact .none
  · exact .some (others.append_right _)

theorem regexUnion_congr
    {first second : List Regex}
    (same : Option.Rel SameMembers
      (collect unionPieces first) (collect unionPieces second)) :
    regexUnion first = regexUnion second := by
  unfold regexUnion
  rw [flattenUnion_eq_collect, flattenUnion_eq_collect]
  revert same
  generalize collect unionPieces first = firstFound
  generalize collect unionPieces second = secondFound
  intro same
  cases same with
  | none => rfl
  | some members =>
      dsimp only
      rw [(sameMembers_groupUnionTests members).sortDedup_eq]

theorem regexIntersect_congr
    {first second : List Regex}
    (same : Option.Rel SameMembers
      (collect intersectPieces first) (collect intersectPieces second)) :
    regexIntersect first = regexIntersect second := by
  unfold regexIntersect
  rw [flattenIntersect_eq_collect, flattenIntersect_eq_collect]
  revert same
  generalize collect intersectPieces first = firstFound
  generalize collect intersectPieces second = secondFound
  intro same
  cases same with
  | none => rfl
  | some members =>
      dsimp only
      have grouped := groupIntersectTests_congr members
      revert grouped
      generalize groupIntersectTests _ = firstGrouped
      generalize groupIntersectTests _ = secondGrouped
      intro grouped
      cases grouped with
      | none => rfl
      | some groupedMembers =>
          dsimp only
          rw [groupedMembers.sortDedup_eq]

/-- What an operand contributes to an intersection of transitions. -/
def transitionIntersectPieces :
    TransitionNode -> Option (List TransitionNode)
  | .const .empty => none
  | .const .all => some []
  | .intersect nested => some nested
  | child => some [child]

omit [LinearOrder TestNode] [LinearOrder Regex] in
theorem flattenTransitionIntersect_eq_collect
    (children : List TransitionNode) :
    flattenTransitionIntersect children =
      collect transitionIntersectPieces children := by
  induction children with
  | nil => rfl
  | cons child children hypothesis =>
      rw [collect, ← hypothesis]
      cases child with
      | const regex =>
          cases regex with
          | all =>
              rw [flattenTransitionIntersect]
              cases flattenTransitionIntersect children <;> rfl
          | _ => rfl
      | _ => rfl

theorem groupIntersectConstants_congr
    {first second : List TransitionNode}
    (same : SameMembers first second) :
    Option.Rel SameMembers
      (groupIntersectConstants first) (groupIntersectConstants second) := by
  have constants := same.filterMap constantOperand
  have others := same.filter fun child => (constantOperand child).isNone
  have grouped : regexIntersect (first.filterMap constantOperand) =
      regexIntersect (second.filterMap constantOperand) :=
    regexIntersect_congr constants.collect
  unfold groupIntersectConstants
  dsimp only
  rw [constants.isEmpty_eq, grouped]
  split_ifs
  · exact .some others
  · exact .none
  · exact .some (others.append_right _)
  · exact .some others

variable [LinearOrder TransitionNode]

theorem transitionIntersect_congr
    {first second : List TransitionNode}
    (same : Option.Rel SameMembers
      (collect transitionIntersectPieces first)
      (collect transitionIntersectPieces second)) :
    transitionIntersect first = transitionIntersect second := by
  unfold transitionIntersect
  rw [flattenTransitionIntersect_eq_collect,
    flattenTransitionIntersect_eq_collect]
  revert same
  generalize collect transitionIntersectPieces first = firstFound
  generalize collect transitionIntersectPieces second = secondFound
  intro same
  cases same with
  | none => rfl
  | some members =>
      dsimp only
      have grouped := groupIntersectConstants_congr members
      revert grouped
      generalize groupIntersectConstants _ = firstGrouped
      generalize groupIntersectConstants _ = secondGrouped
      intro grouped
      cases grouped with
      | none => rfl
      | some groupedMembers =>
          dsimp only
          rw [groupedMembers.sortDedup_eq]

/-! ## Every grouping -/

section Meaning

variable {Letter : Type} (alphabet : Alphabet Letter)

omit [LinearOrder Regex] [LinearOrder TransitionNode] in
theorem testConnective_regroups (connective : TestConnective) :
    Regroups
      (fun children => some (testConnective children connective))
      (testPieces connective)
      CanonicalTest
      (fun letter test => alphabet.accepts test letter) := by
  apply Regroups.of_pieces fun letter test =>
    connective.signed (alphabet.matched letter) test = true
  · intro first second same
    exact congrArg some (testConnective_congr connective same)
  · intro children canonical
    refine ⟨_, rfl, CanonicalTest.testConnective canonical, fun letter => ?_⟩
    rw [signed_testConnective connective (alphabet.consistent letter)
      canonical, List.all_eq_true]
  · intro letter first second agree
    cases connective with
    | and => exact agree
    | or =>
        change (!holdsUnder (alphabet.matched letter) first) = true ↔
          (!holdsUnder (alphabet.matched letter) second) = true at agree
        rw [Bool.not_eq_true', Bool.not_eq_true'] at agree
        change holdsUnder (alphabet.matched letter) first = true ↔
          holdsUnder (alphabet.matched letter) second = true
        rw [← Bool.not_eq_false, ← Bool.not_eq_false, agree]

omit [LinearOrder TransitionNode] in
theorem regexUnion_regroups :
    Regroups
      (fun children => some (regexUnion children))
      unionPieces
      CanonicalRegex
      (fun word regex => word ∈ alphabet.language regex) := by
  apply Regroups.of_pieces fun word regex => word ∉ alphabet.language regex
  · intro first second same
    exact congrArg some (regexUnion_congr same)
  · intro children canonical
    refine ⟨_, rfl, CanonicalRegex.regexUnion canonical, fun word => ?_⟩
    rw [mem_language_regexUnion canonical]
    simp only [not_exists, not_and]
  · intro word first second agree
    exact not_iff_not.mp agree

omit [LinearOrder TransitionNode] in
theorem regexIntersect_regroups :
    Regroups
      (fun children => some (regexIntersect children))
      intersectPieces
      CanonicalRegex
      (fun word regex => word ∈ alphabet.language regex) := by
  apply Regroups.of_pieces fun word regex => word ∈ alphabet.language regex
  · intro first second same
    exact congrArg some (regexIntersect_congr same)
  · intro children canonical
    exact ⟨_, rfl, CanonicalRegex.regexIntersect canonical,
      fun word => mem_language_regexIntersect canonical⟩
  · intro word first second agree
    exact agree

theorem transitionIntersect_regroups :
    Regroups
      transitionIntersect
      transitionIntersectPieces
      ClosedTransition
      (fun (point : Letter × List Letter) transition =>
        point.2 ∈ transition.language alphabet point.1) := by
  apply Regroups.of_pieces fun (point : Letter × List Letter) transition =>
    point.2 ∈ transition.language alphabet point.1
  · intro first second same
    exact transitionIntersect_congr same
  · intro children closed
    obtain ⟨result, returned, resultClosed, meaning⟩ :=
      returns_transitionIntersect alphabet closed
    refine ⟨result, returned, resultClosed, fun point => ?_⟩
    rw [meaning point.1]
    simp
  · intro point first second agree
    exact agree

/-- Every connective of tests, regexes and transitions is independent of order
and repetition of the operands of one call and of groups that keep their
operands; in every other grouping its result has the same meaning. -/
theorem connectives_regroup :
    Regroups
        (fun children => some (testAnd children))
        (testPieces .and)
        CanonicalTest
        (fun letter test => alphabet.accepts test letter) ∧
      Regroups
        (fun children => some (testOr children))
        (testPieces .or)
        CanonicalTest
        (fun letter test => alphabet.accepts test letter) ∧
      Regroups
        (fun children => some (regexUnion children))
        unionPieces
        CanonicalRegex
        (fun word regex => word ∈ alphabet.language regex) ∧
      Regroups
        (fun children => some (regexIntersect children))
        intersectPieces
        CanonicalRegex
        (fun word regex => word ∈ alphabet.language regex) ∧
      Regroups
        transitionIntersect
        transitionIntersectPieces
        ClosedTransition
        (fun (point : Letter × List Letter) transition =>
          point.2 ∈ transition.language alphabet point.1) :=
  ⟨testConnective_regroups alphabet .and, testConnective_regroups alphabet .or,
    regexUnion_regroups alphabet, regexIntersect_regroups alphabet,
    transitionIntersect_regroups alphabet⟩

end Meaning

end Order

/-! ## A group that loses an operand -/

section LostOperand

/-- The principal is alice. -/
def isAlice : TestNode :=
  .atom ⟨.eq, .principal (.constant ⟨"alice"⟩)⟩

/-- The principal is bob. -/
def isBob : TestNode :=
  .atom ⟨.eq, .principal (.constant ⟨"bob"⟩)⟩

/-- The principal is not bob. -/
def notBob : TestNode :=
  .atom ⟨.neq, .principal (.constant ⟨"bob"⟩)⟩

/-- The action is a read. -/
def isRead : TestNode :=
  .atom ⟨.eq, .action (.constant .read)⟩

/-- The action is not a read. -/
def notRead : TestNode :=
  .atom ⟨.neq, .action (.constant .read)⟩

variable [LinearOrder TestNode]

/-- The principal is bob or the action is a read. -/
def bobOrRead : TestNode :=
  .or (sortDedup [isBob, isRead])

/-- Four operands in one call. -/
def oneGroup : Grouping TestNode :=
  .group [.one isAlice, .one notBob, .one notRead, .one bobOrRead]

/-- The same operands, the first two in a group. -/
def nestedGroup : Grouping TestNode :=
  .group
    [.group [.one isAlice, .one notBob], .one notRead, .one bobOrRead]

/-- Operands other than constants and nested uses are collected as they are. -/
theorem flattenTests_of_plain
    {connective : TestConnective}
    {children : List TestNode}
    (plain : ∀ child ∈ children,
      child ≠ connective.absorber ∧ child ≠ connective.identity ∧
        connective.children child = none) :
    flattenTests connective children = some children := by
  induction children with
  | nil => rfl
  | cons child children hypothesis =>
      obtain ⟨⟨notAbsorber, notIdentity, notNested⟩, rest⟩ :=
        List.forall_mem_cons.mp plain
      rw [flattenTests, if_neg notAbsorber, if_neg notIdentity, notNested,
        hypothesis rest]
      rfl

theorem sortDedup_pair
    {first second : TestNode}
    (distinct : first ≠ second) :
    sortDedup [first, second] = [first, second] ∨
      sortDedup [first, second] = [second, first] := by
  rcases lt_or_gt_of_ne distinct with before | after
  · refine .inl (eq_of_pairwise_lt_of_subset (pairwise_sortDedup _)
      (List.pairwise_pair.mpr before) ?_ ?_)
    · exact fun test => mem_sortDedup.mp
    · exact fun test => mem_sortDedup.mpr
  · refine .inr (eq_of_pairwise_lt_of_subset (pairwise_sortDedup _)
      (List.pairwise_pair.mpr after) ?_ ?_)
    · intro test member
      rw [mem_sortDedup, List.mem_pair] at member
      exact List.mem_pair.mpr member.symm
    · intro test member
      rw [List.mem_pair] at member
      exact mem_sortDedup.mpr (List.mem_pair.mpr member.symm)

theorem absorbedBySibling_atom
    (value : TestAtom)
    (siblings : List TestNode) :
    absorbedBySibling (.atom value) siblings = false := by
  unfold absorbedBySibling
  rw [List.any_eq_false]
  intro sibling _
  split_ifs
  · exact not_false
  · exact not_false

/-- The group keeps only the operand that implies the other. -/
theorem testAnd_isAlice_notBob : testAnd [isAlice, notBob] = isAlice := by
  have flattened : flattenTests .and [isAlice, notBob] =
      some [isAlice, notBob] :=
    flattenTests_of_plain
      (by simp [isAlice, notBob, TestConnective.absorber,
        TestConnective.identity, TestConnective.children])
  unfold testAnd testConnective testConnectiveWith
  rw [flattened]
  dsimp only
  have distinct : isAlice ≠ notBob := by simp [isAlice, notBob]
  have kept : ∀ siblings : List TestNode,
      (!absorbedBySibling isAlice siblings) = true ∧
        (!absorbedBySibling notBob siblings) = true := by
    intro siblings
    rw [isAlice, notBob, absorbedBySibling_atom, absorbedBySibling_atom]
    exact ⟨rfl, rfl⟩
  rcases sortDedup_pair distinct with sorted | sorted
  · have alive : (testsHaveComplements testNot [isAlice, notBob] .and ||
        pairSatisfies
          (distinctConstantAtoms TestConnective.and.contradictoryComparison)
          [isAlice, notBob]) = false := rfl
    have removable : hasRemovableShape .and [isAlice, notBob] = true := rfl
    rw [sorted, alive, if_neg Bool.false_ne_true, retainTests,
      if_pos removable, List.filter_cons, List.filter_cons, (kept _).1,
      (kept _).2]
    rfl
  · have alive : (testsHaveComplements testNot [notBob, isAlice] .and ||
        pairSatisfies
          (distinctConstantAtoms TestConnective.and.contradictoryComparison)
          [notBob, isAlice]) = false := rfl
    have removable : hasRemovableShape .and [notBob, isAlice] = true := rfl
    rw [sorted, alive, if_neg Bool.false_ne_true, retainTests,
      if_pos removable, List.filter_cons, List.filter_cons, (kept _).1,
      (kept _).2]
    rfl

/-- All four operands are contradictory by complementation. -/
theorem testAnd_contradictory :
    testAnd [isAlice, notBob, notRead, bobOrRead] = .ff := by
  have flattened :
      flattenTests .and [isAlice, notBob, notRead, bobOrRead] =
        some [isAlice, notBob, notRead, bobOrRead] :=
    flattenTests_of_plain
      (by simp [isAlice, notBob, notRead, bobOrRead, TestConnective.absorber,
        TestConnective.identity, TestConnective.children])
  have complements : testsHaveComplements testNot
      (sortDedup [isAlice, notBob, notRead, bobOrRead]) .and = true := by
    rw [testsHaveComplements, Bool.or_eq_true, List.any_eq_true]
    refine .inr ⟨bobOrRead, by simp, ?_⟩
    change (sortDedup [isBob, isRead]).all _ = true
    rw [List.all_eq_true]
    intro child member
    rw [mem_sortDedup, List.mem_pair] at member
    rw [decide_eq_true_iff, mem_sortDedup]
    rcases member with rfl | rfl
    · change notBob ∈ _
      simp
    · change notRead ∈ _
      simp
  unfold testAnd testConnective testConnectiveWith
  rw [flattened]
  dsimp only
  rw [complements]
  rfl

/-- Without the lost operand no complement is complete. -/
theorem testAnd_not_contradictory :
    testAnd [isAlice, notRead, bobOrRead] ≠ .ff := by
  have flattened : flattenTests .and [isAlice, notRead, bobOrRead] =
      some [isAlice, notRead, bobOrRead] :=
    flattenTests_of_plain
      (by simp [isAlice, notRead, bobOrRead, TestConnective.absorber,
        TestConnective.identity, TestConnective.children])
  have members : ∀ {test : TestNode},
      test ∈ sortDedup [isAlice, notRead, bobOrRead] ->
        test = isAlice ∨ test = notRead ∨ test = bobOrRead := by
    intro test member
    simpa using mem_sortDedup.mp member
  have noPair : pairSatisfies complementaryTest
      (sortDedup [isAlice, notRead, bobOrRead]) = false := by
    rw [← Bool.not_eq_true]
    intro satisfied
    obtain ⟨left, leftMember, right, rightMember, complementary⟩ :=
      exists_of_pairSatisfies satisfied
    rcases members leftMember with rfl | rfl | rfl <;>
      rcases members rightMember with rfl | rfl | rfl <;>
        cases complementary
  have noCompound : testsHaveComplements testNot
      (sortDedup [isAlice, notRead, bobOrRead]) .and ≠ true := by
    rw [testsHaveComplements, noPair, Bool.false_or]
    intro satisfied
    obtain ⟨candidate, candidateMember, complemented⟩ :=
      List.any_eq_true.mp satisfied
    rcases members candidateMember with rfl | rfl | rfl
    · cases complemented
    · cases complemented
    · change (sortDedup [isBob, isRead]).all _ = true at complemented
      have found := List.all_eq_true.mp complemented isBob (by simp)
      rcases members (decide_eq_true_iff.mp found) with same | same | same
      · cases same
      · cases same
      · cases same
  have noDistinct : pairSatisfies
      (distinctConstantAtoms TestConnective.and.contradictoryComparison)
        (sortDedup [isAlice, notRead, bobOrRead]) = false := by
    rw [← Bool.not_eq_true]
    intro satisfied
    obtain ⟨left, leftMember, right, rightMember, distinct⟩ :=
      exists_of_pairSatisfies satisfied
    rcases members leftMember with rfl | rfl | rfl <;>
      rcases members rightMember with rfl | rfl | rfl <;>
        cases distinct
  unfold testAnd testConnective testConnectiveWith
  rw [flattened]
  dsimp only
  rw [noDistinct, Bool.or_false, if_neg noCompound]
  intro collapsed
  have kept := retainTests_sublist .and
    (sortDedup [isAlice, notRead, bobOrRead])
  revert collapsed kept
  generalize retainTests .and _ = retained
  intro collapsed kept
  rcases retained with _ | ⟨only, _ | ⟨second, rest⟩⟩
  · cases collapsed
  · have member := kept.subset List.mem_cons_self
    rcases members member with rfl | rfl | rfl <;> cases collapsed
  · cases collapsed

end LostOperand

/-- The grouping decides which handle the fold of four canonical tests gives. -/
theorem not_same_handle_in_every_grouping :
    letI := someOrder TestNode
    oneGroup.operands = nestedGroup.operands ∧
      (∀ operand ∈ oneGroup.operands, CanonicalTest operand) ∧
      oneGroup.fold (fun children => some (testAnd children)) ≠
        nestedGroup.fold (fun children => some (testAnd children)) := by
  let _ := someOrder TestNode
  refine ⟨rfl, ?_, ?_⟩
  · intro operand member
    change operand ∈ [isAlice, notBob, notRead, bobOrRead] at member
    simp only [List.mem_cons, List.not_mem_nil, or_false] at member
    rcases member with rfl | rfl | rfl | rfl
    · exact .atom _
    · exact .atom _
    · exact .atom _
    · refine .or (pairwise_sortDedup _) ?_ ?_
      · intro child childMember
        rw [mem_sortDedup, List.mem_pair] at childMember
        rcases childMember with rfl | rfl <;> rfl
      · intro child childMember
        rw [mem_sortDedup, List.mem_pair] at childMember
        rcases childMember with rfl | rfl <;> exact .atom _
  · change some (testAnd [isAlice, notBob, notRead, bobOrRead]) ≠
      some (testAnd [testAnd [isAlice, notBob], notRead, bobOrRead])
    rw [testAnd_contradictory, testAnd_isAlice_notBob]
    intro same
    exact testAnd_not_contradictory (Option.some.inj same).symm

end Validator
end Marsh
