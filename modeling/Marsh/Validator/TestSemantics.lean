import Marsh.Validator.Normalize
import Mathlib.Algebra.Order.BigOperators.Group.List

/-!
# Meaning of the test constructors

Every rewrite of the test constructors is read through one sign: a conjunction
is made of operands that must hold, a disjunction of operands that must fail.
Under that sign the two connectives follow the same laws, so each stage of
`testConnective` is justified once.  Absorption needs the canonical shape of
nested operands: two differently ordered copies of one disjunction would absorb
each other.
-/

namespace Marsh
namespace Validator

open Library

/-- Truth of an atom, given which component patterns match the event. -/
def truthOf (matched : AtomPattern -> Bool) (atom : TestAtom) : Bool :=
  atom.comparison.apply (matched atom.pattern)

/-- Distinct constants of one coordinate never match the same event. -/
def Consistent (matched : AtomPattern -> Bool) : Prop :=
  ∀ left right, distinctConstantPatterns left right = true ->
    matched left = true -> matched right = false

/-- Truth of a test, given which component patterns match the event. -/
abbrev holdsUnder (matched : AtomPattern -> Bool) (test : TestNode) : Bool :=
  test.eval (truthOf matched)

namespace TestConnective

/-- Truth of an operand, as this connective requires it. -/
def signed
    (connective : TestConnective)
    (matched : AtomPattern -> Bool)
    (test : TestNode) : Bool :=
  match connective with
  | .and => holdsUnder matched test
  | .or => !holdsUnder matched test

variable (connective : TestConnective) (matched : AtomPattern -> Bool)

@[simp] theorem signed_identity :
    connective.signed matched connective.identity = true := by
  cases connective <;> simp [signed, identity]

@[simp] theorem signed_absorber :
    connective.signed matched connective.absorber = false := by
  cases connective <;> simp [signed, absorber]

theorem signed_node (children : List TestNode) :
    connective.signed matched (connective.node children) =
      children.all (connective.signed matched) := by
  cases connective with
  | and => exact BooleanTest.eval_and (truthOf matched) children
  | or =>
      change (!BooleanTest.eval (truthOf matched) (.or children)) =
        children.all fun child => !BooleanTest.eval (truthOf matched) child
      rw [BooleanTest.eval_or, List.not_any_eq_all_not]

theorem signed_dual (test : TestNode) :
    connective.dual.signed matched test = !connective.signed matched test := by
  cases connective <;> simp [signed, dual]

theorem eq_node_of_children
    {connective : TestConnective}
    {test : TestNode}
    {nested : List TestNode}
    (found : connective.children test = some nested) :
    test = connective.node nested := by
  cases connective <;> cases test <;> simp_all [children, node]

/-- An atom of the contradictory comparison has the sign of its match. -/
theorem signed_contradictory_atom
    {atom : TestAtom}
    (comparison : atom.comparison = connective.contradictoryComparison) :
    connective.signed matched (.atom atom) = matched atom.pattern := by
  cases connective <;>
    simp_all [signed, contradictoryComparison, truthOf]

/-- An atom of the redundant comparison has the opposite sign. -/
theorem signed_redundant_atom
    {atom : TestAtom}
    (comparison : atom.comparison = connective.redundantComparison) :
    connective.signed matched (.atom atom) = !matched atom.pattern := by
  cases connective <;>
    simp_all [signed, redundantComparison, contradictoryComparison, truthOf,
      Comparison.not]

end TestConnective

/-! ## Canonical tests -/

section Canonical

variable [LinearOrder TestNode]

/-- Shape of the tests the constructors build: operands of a connective are
strictly sorted and are not nodes of the same connective. -/
inductive CanonicalTest : TestNode -> Prop
  | tt : CanonicalTest .tt
  | ff : CanonicalTest .ff
  | atom (atom : TestAtom) : CanonicalTest (.atom atom)
  | and {children : List TestNode}
      (sorted : children.Pairwise (· < ·))
      (flat : ∀ child ∈ children, TestConnective.and.children child = none)
      (canonical : ∀ child ∈ children, CanonicalTest child) :
      CanonicalTest (.and children)
  | or {children : List TestNode}
      (sorted : children.Pairwise (· < ·))
      (flat : ∀ child ∈ children, TestConnective.or.children child = none)
      (canonical : ∀ child ∈ children, CanonicalTest child) :
      CanonicalTest (.or children)

theorem CanonicalTest.node
    {connective : TestConnective}
    {children : List TestNode}
    (sorted : children.Pairwise (· < ·))
    (flat : ∀ child ∈ children, connective.children child = none)
    (canonical : ∀ child ∈ children, CanonicalTest child) :
    CanonicalTest (connective.node children) := by
  cases connective with
  | and => exact .and sorted flat canonical
  | or => exact .or sorted flat canonical

theorem CanonicalTest.of_node
    {connective : TestConnective}
    {children : List TestNode}
    (canonical : CanonicalTest (connective.node children)) :
    children.Pairwise (· < ·) ∧
      (∀ child ∈ children, connective.children child = none) ∧
        ∀ child ∈ children, CanonicalTest child := by
  cases connective with
  | and =>
      cases canonical with
      | and sorted flat childrenCanonical =>
          exact ⟨sorted, flat, childrenCanonical⟩
  | or =>
      cases canonical with
      | or sorted flat childrenCanonical =>
          exact ⟨sorted, flat, childrenCanonical⟩

theorem CanonicalTest.identity (connective : TestConnective) :
    CanonicalTest connective.identity := by
  cases connective with
  | and => exact .tt
  | or => exact .ff

theorem CanonicalTest.absorber (connective : TestConnective) :
    CanonicalTest connective.absorber := by
  cases connective with
  | and => exact .ff
  | or => exact .tt

end Canonical

/-! ## Depth of the intermediate operands -/

theorem TestConnective.depth_identity (connective : TestConnective) :
    connective.identity.depth = 0 := by
  cases connective <;> simp [TestConnective.identity, BooleanTest.depth]

theorem TestConnective.depth_absorber (connective : TestConnective) :
    connective.absorber.depth = 0 := by
  cases connective <;> simp [TestConnective.absorber, BooleanTest.depth]

theorem TestConnective.depth_node_le_iff
    {connective : TestConnective}
    {bound : Nat}
    {children : List TestNode} :
    (connective.node children).depth ≤ bound + 1 ↔
      ∀ child ∈ children, child.depth ≤ bound := by
  cases connective with
  | and => exact BooleanTest.depth_and_le_iff
  | or => exact BooleanTest.depth_or_le_iff

theorem TestConnective.exists_depth_node
    (connective : TestConnective)
    (children : List TestNode) :
    ∃ bound, (connective.node children).depth = bound + 1 := by
  cases connective with
  | and => exact ⟨_, by rw [TestConnective.node, BooleanTest.depth]⟩
  | or => exact ⟨_, by rw [TestConnective.node, BooleanTest.depth]⟩

theorem TestConnective.depth_child_lt
    (connective : TestConnective)
    {children : List TestNode}
    {child : TestNode}
    (member : child ∈ children) :
    child.depth < (connective.node children).depth := by
  obtain ⟨bound, depthEq⟩ := connective.exists_depth_node children
  have childBound := TestConnective.depth_node_le_iff.mp depthEq.le child member
  omega

theorem TestConnective.size_child_lt
    {connective : TestConnective}
    {children : List TestNode}
    {child : TestNode}
    (member : child ∈ children) :
    child.size < (connective.node children).size := by
  have childBound : child.size ≤ (children.map BooleanTest.size).sum :=
    List.single_le_sum (by simp) _ (List.mem_map_of_mem member)
  cases connective <;>
    simp only [TestConnective.node, BooleanTest.size,
      BooleanTest.sizeAll_eq_sum] <;> omega

/-! ## Pairs of atoms -/

/-- Complementary atoms have opposite signs. -/
theorem signed_complementaryTest
    (connective : TestConnective)
    (matched : AtomPattern -> Bool)
    {left right : TestNode}
    (complementary : complementaryTest left right = true) :
    connective.signed matched left = !connective.signed matched right := by
  cases left with
  | atom leftAtom =>
      cases right with
      | atom rightAtom =>
          simp only [complementaryTest, Bool.and_eq_true,
            decide_eq_true_eq] at complementary
          obtain ⟨comparisons, patterns⟩ := complementary
          rw [Comparison.ne_iff_eq_not] at comparisons
          cases connective <;>
            simp [TestConnective.signed, truthOf, comparisons, patterns]
      | _ => simp [complementaryTest] at complementary
  | _ => simp [complementaryTest] at complementary

/-- Two distinct constants under the contradictory comparison fail together. -/
theorem signed_distinctConstantAtoms
    {connective : TestConnective}
    {matched : AtomPattern -> Bool}
    (consistent : Consistent matched)
    {left right : TestNode}
    (distinct : distinctConstantAtoms
      connective.contradictoryComparison left right = true)
    (leftHolds : connective.signed matched left = true) :
    connective.signed matched right = false := by
  cases left with
  | atom leftAtom =>
      cases right with
      | atom rightAtom =>
          simp only [distinctConstantAtoms, Bool.and_eq_true,
            decide_eq_true_eq] at distinct
          obtain ⟨⟨leftComparison, rightComparison⟩, patterns⟩ := distinct
          rw [connective.signed_contradictory_atom matched leftComparison]
            at leftHolds
          rw [connective.signed_contradictory_atom matched rightComparison]
          exact consistent _ _ patterns leftHolds
      | _ => simp [distinctConstantAtoms] at distinct
  | _ => simp [distinctConstantAtoms] at distinct

/-! ## Stage one: flattening -/

section Order

variable [LinearOrder TestNode]

variable {connective : TestConnective}

theorem absorber_mem_of_flattenTests_eq_none
    {children : List TestNode}
    (absorbed : flattenTests connective children = none) :
    connective.absorber ∈ children := by
  induction children with
  | nil => simp [flattenTests] at absorbed
  | cons child rest hypothesis =>
      rw [flattenTests] at absorbed
      split_ifs at absorbed with isAbsorber isIdentity
      · exact isAbsorber ▸ List.mem_cons_self
      · exact List.mem_cons_of_mem child (hypothesis absorbed)
      · cases found : connective.children child with
        | none =>
            rw [found, Option.map_eq_none_iff] at absorbed
            exact List.mem_cons_of_mem child (hypothesis absorbed)
        | some nested =>
            rw [found, Option.map_eq_none_iff] at absorbed
            exact List.mem_cons_of_mem child (hypothesis absorbed)

/-- Flattening keeps the meaning of the operands together. -/
theorem signed_flattenTests
    (matched : AtomPattern -> Bool)
    {children flat : List TestNode}
    (flattened : flattenTests connective children = some flat) :
    flat.all (connective.signed matched) =
      children.all (connective.signed matched) := by
  induction children generalizing flat with
  | nil =>
      rw [flattenTests, Option.some.injEq] at flattened
      rw [← flattened]
  | cons child rest hypothesis =>
      rw [flattenTests] at flattened
      split_ifs at flattened with isAbsorber isIdentity
      · rw [List.all_cons, isIdentity, TestConnective.signed_identity,
          Bool.true_and]
        exact hypothesis flattened
      · cases found : connective.children child with
        | none =>
            rw [found, Option.map_eq_some_iff] at flattened
            obtain ⟨tail, tailEq, rfl⟩ := flattened
            rw [List.all_cons, List.all_cons, hypothesis tailEq]
        | some nested =>
            rw [found, Option.map_eq_some_iff] at flattened
            obtain ⟨tail, tailEq, rfl⟩ := flattened
            rw [List.all_cons, List.all_append, hypothesis tailEq,
              TestConnective.eq_node_of_children found,
              TestConnective.signed_node]

/-- Flattened operands are canonical, are no nodes of the connective, and are
no deeper than the operands they come from. -/
theorem shape_of_flattenTests
    {bound : Nat}
    {children flat : List TestNode}
    (canonical : ∀ child ∈ children, CanonicalTest child)
    (bounded : ∀ child ∈ children, child.depth ≤ bound)
    (flattened : flattenTests connective children = some flat) :
    ∀ test ∈ flat, CanonicalTest test ∧
      connective.children test = none ∧ test.depth ≤ bound := by
  induction children generalizing flat with
  | nil =>
      rw [flattenTests, Option.some.injEq] at flattened
      simp [← flattened]
  | cons child rest hypothesis =>
      obtain ⟨childCanonical, restCanonical⟩ := List.forall_mem_cons.mp canonical
      obtain ⟨childBounded, restBounded⟩ := List.forall_mem_cons.mp bounded
      rw [flattenTests] at flattened
      split_ifs at flattened with isAbsorber isIdentity
      · exact hypothesis restCanonical restBounded flattened
      · cases found : connective.children child with
        | none =>
            rw [found, Option.map_eq_some_iff] at flattened
            obtain ⟨tail, tailEq, rfl⟩ := flattened
            rw [List.forall_mem_cons]
            exact ⟨⟨childCanonical, found, childBounded⟩,
              hypothesis restCanonical restBounded tailEq⟩
        | some nested =>
            rw [found, Option.map_eq_some_iff] at flattened
            obtain ⟨tail, tailEq, rfl⟩ := flattened
            rw [List.forall_mem_append]
            refine ⟨?_, hypothesis restCanonical restBounded tailEq⟩
            rw [TestConnective.eq_node_of_children found] at childCanonical
            rw [TestConnective.eq_node_of_children found] at childBounded
            obtain ⟨_, nestedFlat, nestedCanonical⟩ := childCanonical.of_node
            intro test member
            have shallower := connective.depth_child_lt member
            exact ⟨nestedCanonical test member, nestedFlat test member,
              by omega⟩

/-! ## Stage two: complements and distinct constants -/

/-- Siblings recognized as complementary make the connective constant, when
the complement used is right on the children of dual operands. -/
theorem signed_testsHaveComplements
    {matched : AtomPattern -> Bool}
    {testNot : TestNode -> TestNode}
    {tests : List TestNode}
    (testNotSound : ∀ candidate ∈ tests, ∀ nested,
      connective.dual.children candidate = some nested ->
        ∀ child ∈ nested, holdsUnder matched (testNot child) =
          !holdsUnder matched child)
    (complements : testsHaveComplements testNot tests connective = true) :
    tests.all (connective.signed matched) = false := by
  rw [testsHaveComplements, Bool.or_eq_true] at complements
  rw [List.all_eq_false]
  rcases complements with atoms | compound
  · obtain ⟨left, leftMem, right, rightMem, complementary⟩ :=
      exists_of_pairSatisfies atoms
    have opposite := signed_complementaryTest connective matched complementary
    cases leftSign : connective.signed matched left with
    | false => exact ⟨left, leftMem, by simp [leftSign]⟩
    | true =>
        rw [leftSign] at opposite
        exact ⟨right, rightMem, by simpa using opposite⟩
  · rw [List.any_eq_true] at compound
    obtain ⟨candidate, candidateMem, accepted⟩ := compound
    cases found : connective.dual.children candidate with
    | none => simp [found] at accepted
    | some nested =>
        simp only [found, List.all_eq_true, decide_eq_true_eq] at accepted
        have nodeEq := TestConnective.eq_node_of_children found
        -- Either the dual operand fails, or one of its complements does.
        cases candidateSign : connective.signed matched candidate with
        | false => exact ⟨candidate, candidateMem, by simp [candidateSign]⟩
        | true =>
            have dualSign : connective.dual.signed matched candidate = false := by
              rw [TestConnective.signed_dual, candidateSign, Bool.not_true]
            rw [nodeEq, TestConnective.signed_node, List.all_eq_false]
              at dualSign
            obtain ⟨child, childMem, childSign⟩ := dualSign
            rw [TestConnective.signed_dual, Bool.not_eq_true',
              Bool.not_eq_false] at childSign
            refine ⟨testNot child, accepted child childMem, ?_⟩
            have complement :=
              testNotSound candidate candidateMem nested found child childMem
            cases connective <;>
              simp_all [TestConnective.signed]

/-! ## Stage three: absorption and constant implication -/

/-- Weight that every absorbing sibling strictly decreases: absorbing operands
are smaller nodes, and implying atoms use the other comparison. -/
def retentionWeight
    (connective : TestConnective)
    (test : TestNode) : Nat :=
  match test with
  | .atom atom =>
      if atom.comparison = connective.redundantComparison then 3 else 2
  | _ => 2 * test.size + 1

omit [LinearOrder TestNode] in
theorem retentionWeight_lt_of_size_lt
    {left right : TestNode}
    (smaller : left.size < right.size) :
    retentionWeight connective left < retentionWeight connective right := by
  have leftPositive := left.size_pos
  have leftBound : retentionWeight connective left ≤ 2 * left.size + 1 := by
    unfold retentionWeight
    split
    · split_ifs <;> simp [BooleanTest.size]
    · exact le_rfl
  have rightBound : 2 * right.size ≤ retentionWeight connective right := by
    unfold retentionWeight
    split
    · split_ifs <;> simp [BooleanTest.size]
    · omega
  omega

/-- An absorbed operand is implied by a strictly smaller sibling. -/
theorem exists_implied_of_absorbedBySibling
    (matched : AtomPattern -> Bool)
    {tests : List TestNode}
    (canonical : ∀ test ∈ tests, CanonicalTest test)
    (flat : ∀ test ∈ tests, connective.children test = none)
    {candidate : TestNode}
    (candidateMem : candidate ∈ tests)
    (absorbed : absorbedBySibling candidate tests = true) :
    ∃ sibling ∈ tests, sibling.size < candidate.size ∧
      (connective.signed matched sibling = true ->
        connective.signed matched candidate = true) := by
  rw [absorbedBySibling, List.any_eq_true] at absorbed
  obtain ⟨sibling, siblingMem, accepted⟩ := absorbed
  refine ⟨sibling, siblingMem, ?_⟩
  split_ifs at accepted with same
  -- An absorbed operand is a node of the dual connective.
  obtain ⟨nested, rfl⟩ : ∃ nested, candidate = connective.dual.node nested := by
    have notSame := flat candidate candidateMem
    cases connective <;> cases candidate <;>
      simp_all [TestConnective.children, TestConnective.node,
        TestConnective.dual]
  have candidateSign : connective.signed matched (connective.dual.node nested) =
      nested.any (connective.signed matched) := by
    rw [← Bool.not_not (connective.signed matched _),
      ← TestConnective.signed_dual, TestConnective.signed_node,
      List.not_all_eq_any_not]
    simp [TestConnective.signed_dual]
  obtain ⟨nestedSorted, _, _⟩ := (canonical _ candidateMem).of_node
  rw [candidateSign]
  cases found : connective.dual.children sibling with
  | none =>
      have direct : sibling ∈ nested := by
        cases connective <;> cases sibling <;>
          simp_all [TestConnective.node, TestConnective.dual,
            TestConnective.children]
      refine ⟨TestConnective.size_child_lt direct, fun siblingHolds => ?_⟩
      exact List.any_eq_true.mpr ⟨sibling, direct, siblingHolds⟩
  | some children =>
      have nodeEq := TestConnective.eq_node_of_children found
      subst nodeEq
      obtain ⟨childrenSorted, _, _⟩ := (canonical _ siblingMem).of_node
      have contained : children ⊆ nested := by
        intro child member
        cases connective <;>
          simp_all [TestConnective.node, TestConnective.dual]
      have different : children ≠ nested := by
        rintro rfl
        exact same rfl
      have lighter := weight_lt_of_pairwise_lt_of_subset BooleanTest.size_pos
        childrenSorted nestedSorted contained different
      refine ⟨?_, fun siblingHolds => ?_⟩
      · cases connective <;>
          simpa [TestConnective.node, TestConnective.dual, BooleanTest.size,
            BooleanTest.sizeAll_eq_sum] using lighter
      · rw [← Bool.not_not (connective.signed matched _),
          ← TestConnective.signed_dual, TestConnective.signed_node,
          Bool.not_eq_true', List.all_eq_false] at siblingHolds
        obtain ⟨child, childMem, childSign⟩ := siblingHolds
        rw [TestConnective.signed_dual, Bool.not_eq_true',
          Bool.not_eq_false] at childSign
        exact List.any_eq_true.mpr ⟨child, contained childMem, childSign⟩

omit [LinearOrder TestNode] in
/-- A redundant atom is implied by a sibling of the other comparison. -/
theorem exists_implied_of_redundantConstantAtom
    {matched : AtomPattern -> Bool}
    (consistent : Consistent matched)
    {tests : List TestNode}
    {candidate : TestNode}
    (redundant : redundantConstantAtom candidate tests
      connective.redundantComparison = true) :
    ∃ sibling ∈ tests,
      retentionWeight connective sibling <
        retentionWeight connective candidate ∧
      (connective.signed matched sibling = true ->
        connective.signed matched candidate = true) := by
  cases candidate with
  | atom atom =>
      simp only [redundantConstantAtom, Bool.and_eq_true, decide_eq_true_eq,
        List.any_eq_true] at redundant
      obtain ⟨comparison, sibling, siblingMem, accepted⟩ := redundant
      cases sibling with
      | atom other =>
          simp only [Bool.and_eq_true, decide_eq_true_eq] at accepted
          obtain ⟨otherComparison, patterns⟩ := accepted
          have contradictory :
              other.comparison = connective.contradictoryComparison := by
            rw [otherComparison, TestConnective.redundantComparison,
              Comparison.not_not]
          refine ⟨.atom other, siblingMem, ?_, fun siblingHolds => ?_⟩
          · have notRedundant :
                other.comparison ≠ connective.redundantComparison := by
              rw [otherComparison]
              cases connective <;> decide
            simp [retentionWeight, comparison, notRedundant]
          · rw [connective.signed_contradictory_atom matched contradictory]
              at siblingHolds
            rw [connective.signed_redundant_atom matched comparison]
            cases matches_ : matched atom.pattern with
            | false => rfl
            | true =>
                have excluded := consistent _ _ patterns matches_
                rw [siblingHolds] at excluded
                exact absurd excluded (by decide)
      | _ => simp at accepted
  | _ => simp [redundantConstantAtom] at redundant

/-- Absorption and constant implication keep the meaning of the operands. -/
theorem signed_retainTests
    {matched : AtomPattern -> Bool}
    (consistent : Consistent matched)
    {tests : List TestNode}
    (canonical : ∀ test ∈ tests, CanonicalTest test)
    (flat : ∀ test ∈ tests, connective.children test = none) :
    (retainTests connective tests).all (connective.signed matched) =
      tests.all (connective.signed matched) := by
  rw [retainTests]
  split_ifs with removable
  · rw [Bool.eq_iff_iff, List.all_eq_true, List.all_eq_true]
    refine forall_mem_filter_iff_of_implied (retentionWeight connective) ?_
    intro candidate candidateMem dropped
    rw [Bool.and_eq_false_iff, Bool.not_eq_false', Bool.not_eq_false']
      at dropped
    rcases dropped with absorbed | redundant
    · obtain ⟨sibling, siblingMem, smaller, implication⟩ :=
        exists_implied_of_absorbedBySibling matched canonical flat candidateMem
          absorbed
      exact ⟨sibling, siblingMem, retentionWeight_lt_of_size_lt smaller,
        implication⟩
    · exact exists_implied_of_redundantConstantAtom consistent redundant
  · rfl

theorem retainTests_sublist
    (connective : TestConnective)
    (tests : List TestNode) :
    (retainTests connective tests).Sublist tests := by
  rw [retainTests]
  split_ifs
  · exact List.filter_sublist
  · exact List.Sublist.refl tests

/-! ## Stage four: closing the connective -/

omit [LinearOrder TestNode] in
theorem signed_closeTests
    (matched : AtomPattern -> Bool)
    (tests : List TestNode) :
    connective.signed matched (closeTests connective tests) =
      tests.all (connective.signed matched) := by
  unfold closeTests
  split
  · simp
  · simp
  · exact TestConnective.signed_node connective matched tests

theorem shape_of_closeTests
    {bound : Nat}
    {tests : List TestNode}
    (sorted : tests.Pairwise (· < ·))
    (shape : ∀ test ∈ tests, CanonicalTest test ∧
      connective.children test = none ∧ test.depth ≤ bound) :
    CanonicalTest (closeTests connective tests) ∧
      (closeTests connective tests).depth ≤ bound + 1 := by
  unfold closeTests
  split
  · exact ⟨.identity connective, by simp [TestConnective.depth_identity]⟩
  · rename_i only
    obtain ⟨canonical, _, bounded⟩ := shape only List.mem_cons_self
    exact ⟨canonical, by omega⟩
  · refine ⟨.node sorted (fun test member => (shape test member).2.1)
      (fun test member => (shape test member).1), ?_⟩
    exact TestConnective.depth_node_le_iff.mpr
      fun test member => (shape test member).2.2

/-! ## The connective constructor -/

/-- The connective constructor builds canonical tests, at most one level deeper
than its operands. -/
theorem shape_of_testConnectiveWith
    (connective : TestConnective)
    (testNot : TestNode -> TestNode)
    {bound : Nat}
    {children : List TestNode}
    (canonical : ∀ child ∈ children, CanonicalTest child)
    (bounded : ∀ child ∈ children, child.depth ≤ bound) :
    CanonicalTest (testConnectiveWith testNot children connective) ∧
      (testConnectiveWith testNot children connective).depth ≤ bound + 1 := by
  have absorberShape : CanonicalTest connective.absorber ∧
      connective.absorber.depth ≤ bound + 1 :=
    ⟨.absorber connective, by simp [TestConnective.depth_absorber]⟩
  unfold testConnectiveWith
  split
  · exact absorberShape
  · rename_i collected flattened
    have shape := shape_of_flattenTests canonical bounded flattened
    dsimp only
    split_ifs
    · exact absorberShape
    · have sublist :=
        retainTests_sublist connective (sortDedup collected)
      refine shape_of_closeTests ((pairwise_sortDedup collected).sublist sublist)
        fun test member => shape test ?_
      exact mem_sortDedup.mp (sublist.subset member)

/-- The connective constructor denotes the connective, when the complement it
detects complementary siblings with is right on shallower tests. -/
theorem signed_testConnectiveWith
    (connective : TestConnective)
    {matched : AtomPattern -> Bool}
    (consistent : Consistent matched)
    {testNot : TestNode -> TestNode}
    {bound : Nat}
    {children : List TestNode}
    (canonical : ∀ child ∈ children, CanonicalTest child)
    (bounded : ∀ child ∈ children, child.depth ≤ bound)
    (testNotSound : ∀ test, CanonicalTest test -> test.depth < bound ->
      holdsUnder matched (testNot test) = !holdsUnder matched test) :
    connective.signed matched (testConnectiveWith testNot children connective) =
      children.all (connective.signed matched) := by
  unfold testConnectiveWith
  split
  · rename_i absorbed
    rw [TestConnective.signed_absorber, eq_comm, List.all_eq_false]
    exact ⟨connective.absorber, absorber_mem_of_flattenTests_eq_none absorbed,
      by simp⟩
  · rename_i collected flattened
    have shape := shape_of_flattenTests canonical bounded flattened
    have flatShape : ∀ test ∈ sortDedup collected, CanonicalTest test ∧
        connective.children test = none ∧ test.depth ≤ bound :=
      fun test member => shape test (mem_sortDedup.mp member)
    have flatSign : (sortDedup collected).all (connective.signed matched) =
        children.all (connective.signed matched) := by
      rw [← signed_flattenTests matched flattened, Bool.eq_iff_iff]
      simp
    rw [← flatSign]
    dsimp only
    split_ifs with constant
    · rw [TestConnective.signed_absorber, eq_comm]
      rw [Bool.or_eq_true] at constant
      rcases constant with complements | distinct
      · refine signed_testsHaveComplements ?_ complements
        intro candidate candidateMem nested found child childMem
        obtain ⟨candidateCanonical, _, candidateBounded⟩ :=
          flatShape candidate candidateMem
        rw [TestConnective.eq_node_of_children found] at candidateCanonical
        rw [TestConnective.eq_node_of_children found] at candidateBounded
        have shallower := connective.dual.depth_child_lt childMem
        exact testNotSound child (candidateCanonical.of_node.2.2 child childMem)
          (by omega)
      · obtain ⟨left, leftMem, right, rightMem, accepted⟩ :=
          exists_of_pairSatisfies distinct
        rw [List.all_eq_false]
        cases leftSign : connective.signed matched left with
        | false => exact ⟨left, leftMem, by simp [leftSign]⟩
        | true =>
            refine ⟨right, rightMem, ?_⟩
            simp [signed_distinctConstantAtoms consistent accepted leftSign]
    · rw [signed_closeTests, signed_retainTests consistent
        (fun test member => (flatShape test member).1)
        (fun test member => (flatShape test member).2.1)]

/-! ## Complement -/

theorem testNotAux_node
    (fuel : Nat)
    (connective : TestConnective)
    (children : List TestNode) :
    testNotAux (fuel + 1) (connective.node children) =
      testConnectiveWith (testNotAux fuel) (children.map (testNotAux fuel))
        connective.dual := by
  cases connective <;> rfl

/-- With enough fuel the complement is canonical, no deeper than the test, and
true exactly where the test is false. -/
theorem testNotAux_correct
    (fuel : Nat)
    {test : TestNode}
    (canonical : CanonicalTest test)
    (bounded : test.depth ≤ fuel) :
    CanonicalTest (testNotAux fuel test) ∧
      (testNotAux fuel test).depth ≤ test.depth ∧
        ∀ matched, Consistent matched ->
          holdsUnder matched (testNotAux fuel test) =
            !holdsUnder matched test := by
  induction fuel generalizing test with
  | zero =>
      cases canonical with
      | tt => simp [testNotAux, CanonicalTest.ff, BooleanTest.depth]
      | ff => simp [testNotAux, CanonicalTest.tt, BooleanTest.depth]
      | atom value =>
          simp [testNotAux, CanonicalTest.atom, BooleanTest.depth, truthOf]
      | and => simp [BooleanTest.depth] at bounded
      | or => simp [BooleanTest.depth] at bounded
  | succ fuel hypothesis =>
      have nodeCorrect : ∀ (connective : TestConnective) (children : List TestNode),
          CanonicalTest (connective.node children) ->
          (connective.node children).depth ≤ fuel + 1 ->
          CanonicalTest (testNotAux (fuel + 1) (connective.node children)) ∧
            (testNotAux (fuel + 1) (connective.node children)).depth ≤
              (connective.node children).depth ∧
              ∀ matched, Consistent matched ->
                holdsUnder matched
                  (testNotAux (fuel + 1) (connective.node children)) =
                  !holdsUnder matched (connective.node children) := by
        intro connective children nodeCanonical nodeBounded
        obtain ⟨_, _, childrenCanonical⟩ := nodeCanonical.of_node
        obtain ⟨bound, depthEq⟩ := connective.exists_depth_node children
        have childBounded := TestConnective.depth_node_le_iff.mp depthEq.le
        have complementCorrect := fun child member =>
          hypothesis (childrenCanonical child member)
            ((childBounded child member).trans (by omega))
        have complementCanonical : ∀ complement ∈ children.map (testNotAux fuel),
            CanonicalTest complement := by
          simpa using fun child member => (complementCorrect child member).1
        have complementBounded : ∀ complement ∈ children.map (testNotAux fuel),
            complement.depth ≤ bound := by
          simpa using fun child member =>
            ((complementCorrect child member).2.1).trans
              (childBounded child member)
        have shape := shape_of_testConnectiveWith connective.dual
          (testNotAux fuel) complementCanonical complementBounded
        rw [testNotAux_node, depthEq]
        refine ⟨shape.1, shape.2, fun matched consistent => ?_⟩
        have sign := signed_testConnectiveWith connective.dual consistent
          complementCanonical
          complementBounded fun test testCanonical shallower =>
            (hypothesis testCanonical (by omega)).2.2 matched consistent
        have childSigns : (children.map (testNotAux fuel)).all
            (connective.dual.signed matched) =
              children.all (connective.signed matched) := by
          rw [List.all_map, Bool.eq_iff_iff, List.all_eq_true,
            List.all_eq_true]
          refine forall₂_congr fun child member => ?_
          have opposite := (complementCorrect child member).2.2 matched consistent
          cases connective <;>
            simp [TestConnective.signed, TestConnective.dual, opposite]
        rw [childSigns, ← TestConnective.signed_node] at sign
        cases connective <;>
          simp_all [TestConnective.signed, TestConnective.dual]
      cases canonical with
      | tt => simp [testNotAux, CanonicalTest.ff, BooleanTest.depth]
      | ff => simp [testNotAux, CanonicalTest.tt, BooleanTest.depth]
      | atom value =>
          simp [testNotAux, CanonicalTest.atom, BooleanTest.depth, truthOf]
      | and sorted flat childrenCanonical =>
          exact nodeCorrect .and _ (.and sorted flat childrenCanonical) bounded
      | or sorted flat childrenCanonical =>
          exact nodeCorrect .or _ (.or sorted flat childrenCanonical) bounded

/-- The connective constructor consults the complement only on canonical tests
shallower than its operands. -/
theorem testConnectiveWith_congr
    {first second : TestNode -> TestNode}
    (bound : Nat)
    {children : List TestNode}
    (canonical : ∀ child ∈ children, CanonicalTest child)
    (bounded : ∀ child ∈ children, child.depth ≤ bound)
    (agree : ∀ test, CanonicalTest test -> test.depth < bound ->
      first test = second test) :
    testConnectiveWith first children connective =
      testConnectiveWith second children connective := by
  unfold testConnectiveWith
  split
  · rfl
  · rename_i collected flattened
    have shape := shape_of_flattenTests canonical bounded flattened
    have sameComplements :
        testsHaveComplements first (sortDedup collected) connective =
          testsHaveComplements second (sortDedup collected) connective := by
      unfold testsHaveComplements
      congr 1
      rw [Bool.eq_iff_iff, List.any_eq_true, List.any_eq_true]
      refine exists_congr fun candidate =>
        and_congr_right fun candidateMem => ?_
      cases found : connective.dual.children candidate with
      | none => rfl
      | some nested =>
          simp only [List.all_eq_true]
          refine forall₂_congr fun child childMem => ?_
          obtain ⟨candidateCanonical, _, candidateBounded⟩ :=
            shape candidate (mem_sortDedup.mp candidateMem)
          rw [TestConnective.eq_node_of_children found] at candidateCanonical
          rw [TestConnective.eq_node_of_children found] at candidateBounded
          have shallower := connective.dual.depth_child_lt childMem
          rw [agree child (candidateCanonical.of_node.2.2 child childMem)
            (by omega)]
    simp only [sameComplements]

/-- Fuel beyond the depth of the test does not change its complement. -/
theorem testNotAux_eq_of_depth_le
    {first second : Nat}
    {test : TestNode}
    (canonical : CanonicalTest test)
    (firstBounded : test.depth ≤ first)
    (secondBounded : test.depth ≤ second) :
    testNotAux first test = testNotAux second test := by
  induction first generalizing second test with
  | zero =>
      cases canonical with
      | tt => simp [testNotAux]
      | ff => simp [testNotAux]
      | atom value => simp [testNotAux]
      | and => simp [BooleanTest.depth] at firstBounded
      | or => simp [BooleanTest.depth] at firstBounded
  | succ first hypothesis =>
      have nodeEq : ∀ (connective : TestConnective) (children : List TestNode),
          CanonicalTest (connective.node children) ->
          (connective.node children).depth ≤ first + 1 ->
          (connective.node children).depth ≤ second ->
          testNotAux (first + 1) (connective.node children) =
            testNotAux second (connective.node children) := by
        intro connective children nodeCanonical nodeFirst nodeSecond
        obtain ⟨_, _, childrenCanonical⟩ := nodeCanonical.of_node
        obtain ⟨bound, depthEq⟩ := connective.exists_depth_node children
        obtain ⟨second, rfl⟩ : ∃ fuel, second = fuel + 1 :=
          ⟨second - 1, by omega⟩
        have childBounded := TestConnective.depth_node_le_iff.mp depthEq.le
        have sameChildren : children.map (testNotAux first) =
            children.map (testNotAux second) :=
          List.map_congr_left fun child member =>
            hypothesis (childrenCanonical child member)
              ((childBounded child member).trans (by omega))
              ((childBounded child member).trans (by omega))
        rw [testNotAux_node, testNotAux_node, sameChildren]
        refine testConnectiveWith_congr bound ?_ ?_
          fun test testCanonical shallower =>
            hypothesis testCanonical (by omega) (by omega)
        · simpa using fun child member =>
            (testNotAux_correct second (childrenCanonical child member)
              ((childBounded child member).trans (by omega))).1
        · simpa using fun child member =>
            ((testNotAux_correct second
              (childrenCanonical child member)
              ((childBounded child member).trans (by omega))).2.1).trans
                (childBounded child member)
      cases canonical with
      | tt => simp [testNotAux]
      | ff => simp [testNotAux]
      | atom value => simp [testNotAux]
      | and sorted flat childrenCanonical =>
          exact nodeEq .and _ (.and sorted flat childrenCanonical)
            firstBounded secondBounded
      | or sorted flat childrenCanonical =>
          exact nodeEq .or _ (.or sorted flat childrenCanonical)
            firstBounded secondBounded

theorem CanonicalTest.testNot
    {test : TestNode}
    (canonical : CanonicalTest test) : CanonicalTest (testNot test) :=
  (testNotAux_correct test.depth canonical le_rfl).1

theorem depth_testNot_le
    {test : TestNode}
    (canonical : CanonicalTest test) : (testNot test).depth ≤ test.depth :=
  (testNotAux_correct test.depth canonical le_rfl).2.1

/-- The complement of a connective is the dual connective of the complements,
normalized with the complement itself. -/
theorem testNot_node
    {children : List TestNode}
    (canonical : CanonicalTest (connective.node children)) :
    testNot (connective.node children) =
      testConnective (children.map testNot) connective.dual := by
  obtain ⟨_, _, childrenCanonical⟩ := canonical.of_node
  obtain ⟨bound, depthEq⟩ := connective.exists_depth_node children
  have childBounded := TestConnective.depth_node_le_iff.mp depthEq.le
  have sameChildren :
      children.map (testNotAux bound) = children.map testNot :=
    List.map_congr_left fun child member =>
      testNotAux_eq_of_depth_le (childrenCanonical child member)
        (childBounded child member) le_rfl
  rw [testNot, depthEq, testNotAux_node, sameChildren, testConnective]
  refine testConnectiveWith_congr bound ?_ ?_
    fun test testCanonical shallower =>
      testNotAux_eq_of_depth_le testCanonical shallower.le le_rfl
  · simpa using fun child member => (childrenCanonical child member).testNot
  · simpa using fun child member =>
      (depth_testNot_le (childrenCanonical child member)).trans
        (childBounded child member)

@[simp] theorem holdsUnder_testNot
    {matched : AtomPattern -> Bool}
    (consistent : Consistent matched)
    {test : TestNode}
    (canonical : CanonicalTest test) :
    holdsUnder matched (testNot test) = !holdsUnder matched test :=
  (testNotAux_correct test.depth canonical le_rfl).2.2 matched consistent

omit [LinearOrder TestNode] in
/-- A bound on the depth of finitely many tests. -/
theorem exists_depth_bound (tests : List TestNode) :
    ∃ bound, ∀ test ∈ tests, test.depth ≤ bound :=
  ⟨BooleanTest.depthAll tests, BooleanTest.depthAll_le_iff.mp le_rfl⟩

theorem CanonicalTest.testConnective
    {children : List TestNode}
    (canonical : ∀ child ∈ children, CanonicalTest child) :
    CanonicalTest (testConnective children connective) := by
  obtain ⟨bound, bounded⟩ := exists_depth_bound children
  exact (shape_of_testConnectiveWith connective _ canonical bounded).1

theorem signed_testConnective
    (connective : TestConnective)
    {matched : AtomPattern -> Bool}
    (consistent : Consistent matched)
    {children : List TestNode}
    (canonical : ∀ child ∈ children, CanonicalTest child) :
    connective.signed matched (testConnective children connective) =
      children.all (connective.signed matched) := by
  obtain ⟨bound, bounded⟩ := exists_depth_bound children
  exact signed_testConnectiveWith connective consistent canonical bounded
    fun test testCanonical _ => holdsUnder_testNot consistent testCanonical

@[simp] theorem holdsUnder_testAnd
    {matched : AtomPattern -> Bool}
    (consistent : Consistent matched)
    {children : List TestNode}
    (canonical : ∀ child ∈ children, CanonicalTest child) :
    holdsUnder matched (testAnd children) =
      children.all (holdsUnder matched) :=
  signed_testConnective .and consistent canonical

@[simp] theorem holdsUnder_testOr
    {matched : AtomPattern -> Bool}
    (consistent : Consistent matched)
    {children : List TestNode}
    (canonical : ∀ child ∈ children, CanonicalTest child) :
    holdsUnder matched (testOr children) =
      children.any (holdsUnder matched) := by
  have sign := signed_testConnective .or consistent canonical
  rw [← Bool.not_not (holdsUnder matched (testOr children)),
    ← Bool.not_not (children.any (holdsUnder matched)),
    List.not_any_eq_all_not]
  exact congrArg (!·) sign

theorem CanonicalTest.testAnd
    {children : List TestNode}
    (canonical : ∀ child ∈ children, CanonicalTest child) :
    CanonicalTest (testAnd children) :=
  CanonicalTest.testConnective canonical

theorem CanonicalTest.testOr
    {children : List TestNode}
    (canonical : ∀ child ∈ children, CanonicalTest child) :
    CanonicalTest (testOr children) :=
  CanonicalTest.testConnective canonical

end Order

end Validator
end Marsh
