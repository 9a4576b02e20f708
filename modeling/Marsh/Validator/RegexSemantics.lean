import Marsh.Validator.TestSemantics

/-!
# Meaning of the regex constructors

The constructors of canonical regexes denote the operations of languages they
are named after, on canonical operands.  Letters are abstract: a letter comes
with the component patterns it matches, so the same facts serve symbolic and
concrete events.
-/

namespace Marsh
namespace Validator

open Library

/-- Letters with the component patterns each of them matches. -/
structure Alphabet (Letter : Type*) where
  /-- Whether a letter matches a component pattern. -/
  matched : Letter -> AtomPattern -> Bool
  /-- No letter matches two distinct constants of one coordinate. -/
  consistent : ∀ letter, Consistent (matched letter)

namespace Alphabet

variable {Letter : Type*} (alphabet : Alphabet Letter)

/-- Whether a letter satisfies a test. -/
def accepts (test : TestNode) (letter : Letter) : Prop :=
  holdsUnder (alphabet.matched letter) test = true

/-- The words of a regex. -/
def language (regex : Regex) : Language Letter :=
  ExtendedRegex.language alphabet.accepts regex

theorem mem_language_test
    {test : TestNode}
    {word : List Letter} :
    word ∈ alphabet.language (.test test) ↔
      ∃ letter, word = [letter] ∧ alphabet.accepts test letter := by
  rw [language, ExtendedRegex.language_test]
  exact Iff.rfl

theorem mem_language_union
    {children : List Regex}
    {word : List Letter} :
    word ∈ alphabet.language (.union children) ↔
      ∃ child ∈ children, word ∈ alphabet.language child :=
  ExtendedRegex.mem_language_union alphabet.accepts

theorem mem_language_intersect
    {children : List Regex}
    {word : List Letter} :
    word ∈ alphabet.language (.intersect children) ↔
      ∀ child ∈ children, word ∈ alphabet.language child :=
  ExtendedRegex.mem_language_intersect alphabet.accepts

@[simp] theorem mem_language_all {word : List Letter} :
    word ∈ alphabet.language .all := by
  simp [language]

@[simp] theorem notMem_language_empty {word : List Letter} :
    word ∉ alphabet.language .empty := by
  simp [language]

@[simp] theorem mem_language_epsilon {word : List Letter} :
    word ∈ alphabet.language .epsilon ↔ word = [] := by
  simp [language]

@[simp] theorem mem_language_not {inner : Regex} {word : List Letter} :
    word ∈ alphabet.language (.not inner) ↔
      word ∉ alphabet.language inner := by
  simp [language]

theorem language_concat (factors : List Regex) :
    alphabet.language (.concat factors) =
      (factors.map alphabet.language).prod :=
  ExtendedRegex.language_concat alphabet.accepts factors

theorem nullable_iff (regex : Regex) :
    regex.nullable = true ↔ [] ∈ alphabet.language regex :=
  ExtendedRegex.nullable_iff alphabet.accepts regex

end Alphabet

variable {Letter : Type*} {alphabet : Alphabet Letter}

/-! ## Flattening -/

theorem testOperand_eq_some_iff {regex : Regex} {test : TestNode} :
    testOperand regex = some test ↔ regex = .test test := by
  cases regex <;> simp [testOperand]

theorem mem_filterMap_testOperand_iff
    {flat : List Regex}
    {test : TestNode} :
    test ∈ flat.filterMap testOperand ↔ .test test ∈ flat := by
  simp [testOperand_eq_some_iff]

theorem all_mem_of_flattenUnion_eq_none
    {children : List Regex}
    (absorbed : flattenUnion children = none) : .all ∈ children := by
  induction children with
  | nil => simp [flattenUnion] at absorbed
  | cons child rest hypothesis =>
      cases child <;> simp_all [flattenUnion]

theorem exists_mem_flattenUnion_iff
    {children flat : List Regex}
    (flattened : flattenUnion children = some flat)
    {word : List Letter} :
    (∃ child ∈ flat, word ∈ alphabet.language child) ↔
      ∃ child ∈ children, word ∈ alphabet.language child := by
  induction children generalizing flat with
  | nil => simp_all [flattenUnion]
  | cons child rest hypothesis =>
      rw [List.exists_mem_cons_iff]
      cases child with
      | all => simp [flattenUnion] at flattened
      | empty =>
          rw [flattenUnion] at flattened
          simp [hypothesis flattened]
      | union nested =>
          rw [flattenUnion, Option.map_eq_some_iff] at flattened
          obtain ⟨tail, tailEq, rfl⟩ := flattened
          rw [Alphabet.mem_language_union, ← hypothesis tailEq]
          simp only [List.mem_append, or_and_right, exists_or]
      | _ =>
          simp only [flattenUnion, Option.map_eq_some_iff] at flattened
          obtain ⟨tail, tailEq, rfl⟩ := flattened
          rw [List.exists_mem_cons_iff, hypothesis tailEq]

theorem empty_mem_of_flattenIntersect_eq_none
    {children : List Regex}
    (absorbed : flattenIntersect children = none) : (.empty : Regex) ∈ children := by
  induction children with
  | nil => simp [flattenIntersect] at absorbed
  | cons child rest hypothesis =>
      cases child <;> simp_all [flattenIntersect]

theorem forall_mem_flattenIntersect_iff
    {children flat : List Regex}
    (flattened : flattenIntersect children = some flat)
    {word : List Letter} :
    (∀ child ∈ flat, word ∈ alphabet.language child) ↔
      ∀ child ∈ children, word ∈ alphabet.language child := by
  induction children generalizing flat with
  | nil => simp_all [flattenIntersect]
  | cons child rest hypothesis =>
      rw [List.forall_mem_cons]
      cases child with
      | empty => simp [flattenIntersect] at flattened
      | all =>
          rw [flattenIntersect] at flattened
          simp [hypothesis flattened]
      | intersect nested =>
          rw [flattenIntersect, Option.map_eq_some_iff] at flattened
          obtain ⟨tail, tailEq, rfl⟩ := flattened
          rw [Alphabet.mem_language_intersect, ← hypothesis tailEq]
          exact List.forall_mem_append
      | _ =>
          simp only [flattenIntersect, Option.map_eq_some_iff] at flattened
          obtain ⟨tail, tailEq, rfl⟩ := flattened
          rw [List.forall_mem_cons, hypothesis tailEq]

/-! ## Canonical regexes -/

section Order

variable [LinearOrder TestNode]

theorem mem_language_regexTest
    {test : TestNode}
    {word : List Letter} :
    word ∈ alphabet.language (regexTest test) ↔
      ∃ letter, word = [letter] ∧ alphabet.accepts test letter := by
  unfold regexTest
  split_ifs with isFalse
  · simp [isFalse, Alphabet.accepts]
  · exact alphabet.mem_language_test

theorem isUnion_regexTest (test : TestNode) :
    isUnion (regexTest test) = false := by
  unfold regexTest
  split_ifs <;> rfl

theorem isIntersect_regexTest (test : TestNode) :
    isIntersect (regexTest test) = false := by
  unfold regexTest
  split_ifs <;> rfl

variable [LinearOrder Regex]

/-- Shape of the regexes the constructors build: operands of a union or an
intersection are strictly sorted and are not nodes of the same operation. -/
inductive CanonicalRegex : Regex -> Prop
  | empty : CanonicalRegex .empty
  | all : CanonicalRegex .all
  | epsilon : CanonicalRegex .epsilon
  | test {test : TestNode}
      (canonical : CanonicalTest test) : CanonicalRegex (.test test)
  | union {children : List Regex}
      (sorted : children.Pairwise (· < ·))
      (flat : ∀ child ∈ children, isUnion child = false)
      (canonical : ∀ child ∈ children, CanonicalRegex child) :
      CanonicalRegex (.union children)
  | concat {factors : List Regex}
      (canonical : ∀ factor ∈ factors, CanonicalRegex factor) :
      CanonicalRegex (.concat factors)
  | star {inner : Regex}
      (canonical : CanonicalRegex inner) : CanonicalRegex (.star inner)
  | intersect {children : List Regex}
      (sorted : children.Pairwise (· < ·))
      (flat : ∀ child ∈ children, isIntersect child = false)
      (canonical : ∀ child ∈ children, CanonicalRegex child) :
      CanonicalRegex (.intersect children)
  | not {inner : Regex}
      (canonical : CanonicalRegex inner) : CanonicalRegex (.not inner)

theorem CanonicalRegex.regexTest
    {test : TestNode}
    (canonical : CanonicalTest test) : CanonicalRegex (regexTest test) := by
  unfold Validator.regexTest
  split_ifs
  · exact .empty
  · exact .test canonical

theorem canonical_filterMap_testOperand
    {flat : List Regex}
    (canonical : ∀ child ∈ flat, CanonicalRegex child) :
    ∀ test ∈ flat.filterMap testOperand, CanonicalTest test := by
  intro test member
  cases canonical _ (mem_filterMap_testOperand_iff.mp member) with
  | test testCanonical => exact testCanonical

/-! ## Absorption -/

/-- An absorbing sibling is smaller than the operand it absorbs, and is one of
its operands or has fewer of them. -/
theorem exists_of_regexAbsorbedBySibling
    {flat : List Regex}
    (canonical : ∀ child ∈ flat, CanonicalRegex child)
    {candidate : Regex}
    (candidateMem : candidate ∈ flat)
    (absorbed : regexAbsorbedBySibling candidate flat = true) :
    ∃ sibling ∈ flat, sibling.size < candidate.size ∧
      ((∃ nested, candidate = .intersect nested ∧
        (sibling ∈ nested ∨
          ∃ children, sibling = .intersect children ∧ children ⊆ nested)) ∨
      (∃ nested, candidate = .union nested ∧
        (sibling ∈ nested ∨
          ∃ children, sibling = .union children ∧ children ⊆ nested))) := by
  rw [regexAbsorbedBySibling, List.any_eq_true] at absorbed
  obtain ⟨sibling, siblingMem, accepted⟩ := absorbed
  refine ⟨sibling, siblingMem, ?_⟩
  split_ifs at accepted with same
  have memberSmaller : ∀ nested : List Regex, sibling ∈ nested ->
      sibling.size < ExtendedRegex.sizeAll nested + 1 := by
    intro nested member
    have bound : sibling.size ≤ (nested.map ExtendedRegex.size).sum :=
      List.single_le_sum (by simp) _ (List.mem_map_of_mem member)
    rw [ExtendedRegex.sizeAll_eq_sum]
    omega
  have subsetSmaller : ∀ children nested : List Regex,
      children.Pairwise (· < ·) -> nested.Pairwise (· < ·) ->
      children ⊆ nested -> children ≠ nested ->
      ExtendedRegex.sizeAll children < ExtendedRegex.sizeAll nested := by
    intro children nested childrenSorted nestedSorted contained different
    rw [ExtendedRegex.sizeAll_eq_sum, ExtendedRegex.sizeAll_eq_sum]
    exact weight_lt_of_pairwise_lt_of_subset ExtendedRegex.size_pos
      childrenSorted nestedSorted contained different
  have candidateCanonical := canonical candidate candidateMem
  have siblingCanonical := canonical sibling siblingMem
  split at accepted
  · rename_i nested children
    have contained : children ⊆ nested := fun child member =>
      of_decide_eq_true (List.all_eq_true.mp accepted child member)
    refine ⟨?_, Or.inl ⟨nested, rfl, Or.inr ⟨children, rfl, contained⟩⟩⟩
    cases candidateCanonical with
    | intersect nestedSorted _ _ =>
        cases siblingCanonical with
        | intersect childrenSorted _ _ =>
            have smaller := subsetSmaller children nested childrenSorted
              nestedSorted contained fun equal => same (by rw [equal])
            simpa [ExtendedRegex.size] using smaller
  · rename_i nested children
    have contained : children ⊆ nested := fun child member =>
      of_decide_eq_true (List.all_eq_true.mp accepted child member)
    refine ⟨?_, Or.inr ⟨nested, rfl, Or.inr ⟨children, rfl, contained⟩⟩⟩
    cases candidateCanonical with
    | union nestedSorted _ _ =>
        cases siblingCanonical with
        | union childrenSorted _ _ =>
            have smaller := subsetSmaller children nested childrenSorted
              nestedSorted contained fun equal => same (by rw [equal])
            simpa [ExtendedRegex.size] using smaller
  · rename_i nested _
    have member : sibling ∈ nested := of_decide_eq_true accepted
    exact ⟨by simpa [ExtendedRegex.size] using memberSmaller nested member,
      Or.inl ⟨nested, rfl, Or.inl member⟩⟩
  · rename_i nested _
    have member : sibling ∈ nested := of_decide_eq_true accepted
    exact ⟨by simpa [ExtendedRegex.size] using memberSmaller nested member,
      Or.inr ⟨nested, rfl, Or.inl member⟩⟩
  · exact absurd accepted (by decide)

omit [LinearOrder TestNode] in
theorem retainRegexes_sublist
    (compound : Regex -> Bool)
    (flat : List Regex) : (retainRegexes compound flat).Sublist flat := by
  unfold retainRegexes
  split_ifs
  · exact List.filter_sublist
  · exact List.Sublist.refl flat

/-- Absorption keeps the meaning of a union without nested unions. -/
theorem exists_mem_retainRegexes_iff
    {flat : List Regex}
    (canonical : ∀ child ∈ flat, CanonicalRegex child)
    (noUnion : ∀ child ∈ flat, isUnion child = false)
    {word : List Letter} :
    (∃ child ∈ retainRegexes isIntersect flat,
      word ∈ alphabet.language child) ↔
        ∃ child ∈ flat, word ∈ alphabet.language child := by
  unfold retainRegexes
  split_ifs
  · have kept :
        (∀ child ∈ flat.filter
          fun candidate => !regexAbsorbedBySibling candidate flat,
            word ∉ alphabet.language child) ↔
          ∀ child ∈ flat, word ∉ alphabet.language child := by
      refine forall_mem_filter_iff_of_implied ExtendedRegex.size ?_
      intro candidate candidateMem dropped
      rw [Bool.not_eq_false'] at dropped
      obtain ⟨sibling, siblingMem, smaller, relation⟩ :=
        exists_of_regexAbsorbedBySibling canonical candidateMem dropped
      refine ⟨sibling, siblingMem, smaller, fun excluded included => ?_⟩
      rcases relation with ⟨nested, rfl, inner⟩ | ⟨nested, rfl, _⟩
      · rw [Alphabet.mem_language_intersect] at included
        rcases inner with member | ⟨children, rfl, contained⟩
        · exact excluded (included sibling member)
        · refine excluded (alphabet.mem_language_intersect.mpr ?_)
          exact fun child childMem => included child (contained childMem)
      · exact absurd (noUnion _ candidateMem) (by simp [isUnion])
    simpa only [not_forall, not_not, exists_prop] using not_congr kept
  · rfl

/-- Absorption keeps the meaning of an intersection without nested
intersections. -/
theorem forall_mem_retainRegexes_iff
    {flat : List Regex}
    (canonical : ∀ child ∈ flat, CanonicalRegex child)
    (noIntersect : ∀ child ∈ flat, isIntersect child = false)
    {word : List Letter} :
    (∀ child ∈ retainRegexes isUnion flat, word ∈ alphabet.language child) ↔
      ∀ child ∈ flat, word ∈ alphabet.language child := by
  unfold retainRegexes
  split_ifs
  · refine forall_mem_filter_iff_of_implied ExtendedRegex.size ?_
    intro candidate candidateMem dropped
    rw [Bool.not_eq_false'] at dropped
    obtain ⟨sibling, siblingMem, smaller, relation⟩ :=
      exists_of_regexAbsorbedBySibling canonical candidateMem dropped
    refine ⟨sibling, siblingMem, smaller, fun included => ?_⟩
    rcases relation with ⟨nested, rfl, _⟩ | ⟨nested, rfl, inner⟩
    · exact absurd (noIntersect _ candidateMem) (by simp [isIntersect])
    · rw [Alphabet.mem_language_union]
      rcases inner with member | ⟨children, rfl, contained⟩
      · exact ⟨sibling, member, included⟩
      · obtain ⟨child, childMem, childIncluded⟩ :=
          alphabet.mem_language_union.mp included
        exact ⟨child, contained childMem, childIncluded⟩
  · rfl

omit [LinearOrder TestNode] in
theorem mem_iff_notMem_of_complementaryRegex
    (alphabet : Alphabet Letter)
    {left right : Regex}
    (complementary : complementaryRegex left right = true)
    (word : List Letter) :
    word ∈ alphabet.language left ↔ word ∉ alphabet.language right := by
  unfold complementaryRegex at complementary
  rw [Bool.or_eq_true] at complementary
  rcases complementary with leftNot | rightNot
  · cases left with
    | not inner =>
        rw [← of_decide_eq_true leftNot, Alphabet.mem_language_not]
    | _ => simp at leftNot
  · cases right with
    | not inner =>
        rw [← of_decide_eq_true rightNot, Alphabet.mem_language_not, not_not]
    | _ => simp at rightNot

/-! ## Union -/

theorem shape_of_flattenUnion
    {children flat : List Regex}
    (canonical : ∀ child ∈ children, CanonicalRegex child)
    (flattened : flattenUnion children = some flat) :
    ∀ child ∈ flat, CanonicalRegex child ∧ isUnion child = false := by
  induction children generalizing flat with
  | nil => simp_all [flattenUnion]
  | cons child rest hypothesis =>
      obtain ⟨childCanonical, restCanonical⟩ := List.forall_mem_cons.mp canonical
      cases child with
      | all => simp [flattenUnion] at flattened
      | empty =>
          rw [flattenUnion] at flattened
          exact hypothesis restCanonical flattened
      | union nested =>
          rw [flattenUnion, Option.map_eq_some_iff] at flattened
          obtain ⟨tail, tailEq, rfl⟩ := flattened
          rw [List.forall_mem_append]
          refine ⟨?_, hypothesis restCanonical tailEq⟩
          cases childCanonical with
          | union _ nestedFlat nestedCanonical =>
              exact fun inner member =>
                ⟨nestedCanonical inner member, nestedFlat inner member⟩
      | _ =>
          simp only [flattenUnion, Option.map_eq_some_iff] at flattened
          obtain ⟨tail, tailEq, rfl⟩ := flattened
          rw [List.forall_mem_cons]
          exact ⟨⟨childCanonical, rfl⟩, hypothesis restCanonical tailEq⟩

theorem exists_mem_groupUnionTests_iff
    {flat : List Regex}
    (canonical : ∀ child ∈ flat, CanonicalRegex child)
    {word : List Letter} :
    (∃ child ∈ groupUnionTests flat, word ∈ alphabet.language child) ↔
      ∃ child ∈ flat, word ∈ alphabet.language child := by
  have testsCanonical := canonical_filterMap_testOperand canonical
  have split : (∃ child ∈ flat, word ∈ alphabet.language child) ↔
      (∃ child ∈ flat.filter fun child => (testOperand child).isNone,
        word ∈ alphabet.language child) ∨
      ∃ test ∈ flat.filterMap testOperand,
        word ∈ alphabet.language (.test test) := by
    constructor
    · rintro ⟨child, member, included⟩
      cases operand : testOperand child with
      | none =>
          exact Or.inl ⟨child, List.mem_filter.mpr ⟨member, by simp [operand]⟩,
            included⟩
      | some test =>
          rw [testOperand_eq_some_iff] at operand
          subst operand
          exact Or.inr ⟨test, mem_filterMap_testOperand_iff.mpr member, included⟩
    · rintro (⟨child, member, included⟩ | ⟨test, member, included⟩)
      · exact ⟨child, (List.mem_filter.mp member).1, included⟩
      · exact ⟨.test test, mem_filterMap_testOperand_iff.mp member, included⟩
  have grouped : word ∈ alphabet.language
      (regexTest (testOr (flat.filterMap testOperand))) ↔
        ∃ test ∈ flat.filterMap testOperand,
          word ∈ alphabet.language (.test test) := by
    simp only [mem_language_regexTest, Alphabet.mem_language_test,
      Alphabet.accepts, holdsUnder_testOr (alphabet.consistent _) testsCanonical,
      List.any_eq_true]
    constructor
    · rintro ⟨letter, rfl, test, member, holds⟩
      exact ⟨test, member, letter, rfl, holds⟩
    · rintro ⟨test, member, letter, rfl, holds⟩
      exact ⟨letter, rfl, test, member, holds⟩
  rw [split]
  unfold groupUnionTests
  dsimp only
  split_ifs with noTests nonempty
  · rw [List.isEmpty_iff] at noTests
    simp [noTests]
  · simp only [List.mem_append, List.mem_singleton, or_and_right, exists_or,
      exists_eq_left, grouped]
  · rw [not_not] at nonempty
    have excluded : ¬ ∃ test ∈ flat.filterMap testOperand,
        word ∈ alphabet.language (.test test) := by
      rw [← grouped, nonempty]
      exact Alphabet.notMem_language_empty alphabet
    simp only [excluded, or_false]

theorem shape_of_groupUnionTests
    {flat : List Regex}
    (shape : ∀ child ∈ flat, CanonicalRegex child ∧ isUnion child = false) :
    ∀ child ∈ groupUnionTests flat,
      CanonicalRegex child ∧ isUnion child = false := by
  have othersShape : ∀ child ∈
      flat.filter (fun child => (testOperand child).isNone),
        CanonicalRegex child ∧ isUnion child = false :=
    fun child member => shape child (List.mem_filter.mp member).1
  have testsCanonical := canonical_filterMap_testOperand
    fun child member => (shape child member).1
  unfold groupUnionTests
  dsimp only
  split_ifs
  · exact othersShape
  · rw [List.forall_mem_append]
    refine ⟨othersShape, fun child member => ?_⟩
    rw [List.mem_singleton] at member
    subst member
    exact ⟨.regexTest (.testOr testsCanonical), isUnion_regexTest _⟩
  · exact othersShape

omit [LinearOrder TestNode] in
theorem exists_mem_dropSubsumedEpsilon_iff
    {flat : List Regex}
    {word : List Letter} :
    (∃ child ∈ dropSubsumedEpsilon flat, word ∈ alphabet.language child) ↔
      ∃ child ∈ flat, word ∈ alphabet.language child := by
  unfold dropSubsumedEpsilon
  split_ifs with subsumed
  · rw [Bool.and_eq_true, List.any_eq_true] at subsumed
    obtain ⟨_, other, otherMem, nullable⟩ := subsumed
    simp only [Bool.and_eq_true, decide_eq_true_eq] at nullable
    simp only [List.mem_filter, decide_eq_true_eq]
    constructor
    · rintro ⟨child, ⟨member, _⟩, included⟩
      exact ⟨child, member, included⟩
    · rintro ⟨child, member, included⟩
      by_cases isEpsilon : child = .epsilon
      · subst isEpsilon
        rw [Alphabet.mem_language_epsilon] at included
        subst included
        exact ⟨other, ⟨otherMem, nullable.1⟩,
          (alphabet.nullable_iff other).mp nullable.2⟩
      · exact ⟨child, ⟨member, isEpsilon⟩, included⟩
  · rfl

omit [LinearOrder TestNode] in
theorem dropSubsumedEpsilon_sublist (flat : List Regex) :
    (dropSubsumedEpsilon flat).Sublist flat := by
  unfold dropSubsumedEpsilon
  split_ifs
  · exact List.filter_sublist
  · exact List.Sublist.refl flat

omit [LinearOrder TestNode] [LinearOrder Regex] in
theorem mem_language_closeUnion
    {flat : List Regex}
    {word : List Letter} :
    word ∈ alphabet.language (closeUnion flat) ↔
      ∃ child ∈ flat, word ∈ alphabet.language child := by
  unfold closeUnion
  split
  · simp
  · simp
  · exact alphabet.mem_language_union

theorem CanonicalRegex.closeUnion
    {flat : List Regex}
    (sorted : flat.Pairwise (· < ·))
    (shape : ∀ child ∈ flat, CanonicalRegex child ∧ isUnion child = false) :
    CanonicalRegex (closeUnion flat) := by
  unfold Validator.closeUnion
  split
  · exact .empty
  · exact (shape _ List.mem_cons_self).1
  · exact .union sorted (fun child member => (shape child member).2)
      fun child member => (shape child member).1

theorem CanonicalRegex.regexUnion
    {children : List Regex}
    (canonical : ∀ child ∈ children, CanonicalRegex child) :
    CanonicalRegex (regexUnion children) := by
  unfold Validator.regexUnion
  split
  · exact .all
  · rename_i collected flattened
    have grouped := shape_of_groupUnionTests
      (shape_of_flattenUnion canonical flattened)
    dsimp only
    split_ifs
    · exact .all
    · have sublist :=
        (retainRegexes_sublist isIntersect (dropSubsumedEpsilon
          (sortDedup (groupUnionTests collected)))).trans
            (dropSubsumedEpsilon_sublist _)
      refine .closeUnion ((pairwise_sortDedup _).sublist sublist)
        fun child member => grouped child ?_
      exact mem_sortDedup.mp (sublist.subset member)

/-- The union constructor denotes union. -/
theorem mem_language_regexUnion
    {children : List Regex}
    (canonical : ∀ child ∈ children, CanonicalRegex child)
    {word : List Letter} :
    word ∈ alphabet.language (regexUnion children) ↔
      ∃ child ∈ children, word ∈ alphabet.language child := by
  unfold regexUnion
  split
  · rename_i absorbed
    simp only [Alphabet.mem_language_all, true_iff]
    exact ⟨.all, all_mem_of_flattenUnion_eq_none absorbed,
      alphabet.mem_language_all⟩
  · rename_i collected flattened
    have collectedShape := shape_of_flattenUnion canonical flattened
    have groupedShape := shape_of_groupUnionTests collectedShape
    have flatMeaning :
        (∃ child ∈ sortDedup (groupUnionTests collected),
          word ∈ alphabet.language child) ↔
            ∃ child ∈ children, word ∈ alphabet.language child := by
      simp only [mem_sortDedup]
      rw [exists_mem_groupUnionTests_iff fun child member =>
        (collectedShape child member).1, exists_mem_flattenUnion_iff flattened]
    rw [← flatMeaning]
    dsimp only
    split_ifs with complements
    · simp only [Alphabet.mem_language_all, true_iff]
      obtain ⟨left, leftMem, right, rightMem, complementary⟩ :=
        exists_of_pairSatisfies complements
      have opposite := mem_iff_notMem_of_complementaryRegex alphabet
        complementary word
      by_cases rightIncluded : word ∈ alphabet.language right
      · exact ⟨right, rightMem, rightIncluded⟩
      · exact ⟨left, leftMem, opposite.mpr rightIncluded⟩
    · have keptShape : ∀ child ∈ dropSubsumedEpsilon
          (sortDedup (groupUnionTests collected)),
            CanonicalRegex child ∧ isUnion child = false :=
        fun child member => groupedShape child (mem_sortDedup.mp
          ((dropSubsumedEpsilon_sublist _).subset member))
      rw [mem_language_closeUnion, exists_mem_retainRegexes_iff
        (fun child member => (keptShape child member).1)
        (fun child member => (keptShape child member).2),
        exists_mem_dropSubsumedEpsilon_iff]

/-! ## Intersection -/

theorem shape_of_flattenIntersect
    {children flat : List Regex}
    (canonical : ∀ child ∈ children, CanonicalRegex child)
    (flattened : flattenIntersect children = some flat) :
    ∀ child ∈ flat, CanonicalRegex child ∧ isIntersect child = false := by
  induction children generalizing flat with
  | nil => simp_all [flattenIntersect]
  | cons child rest hypothesis =>
      obtain ⟨childCanonical, restCanonical⟩ := List.forall_mem_cons.mp canonical
      cases child with
      | empty => simp [flattenIntersect] at flattened
      | all =>
          rw [flattenIntersect] at flattened
          exact hypothesis restCanonical flattened
      | intersect nested =>
          rw [flattenIntersect, Option.map_eq_some_iff] at flattened
          obtain ⟨tail, tailEq, rfl⟩ := flattened
          rw [List.forall_mem_append]
          refine ⟨?_, hypothesis restCanonical tailEq⟩
          cases childCanonical with
          | intersect _ nestedFlat nestedCanonical =>
              exact fun inner member =>
                ⟨nestedCanonical inner member, nestedFlat inner member⟩
      | _ =>
          simp only [flattenIntersect, Option.map_eq_some_iff] at flattened
          obtain ⟨tail, tailEq, rfl⟩ := flattened
          rw [List.forall_mem_cons]
          exact ⟨⟨childCanonical, rfl⟩, hypothesis restCanonical tailEq⟩

/-- An intersection is that of its one-event operands, combined into a single
test, and of the others. -/
theorem forall_mem_split_testOperand_iff
    {flat : List Regex}
    (canonical : ∀ child ∈ flat, CanonicalRegex child)
    {word : List Letter} :
    (∀ child ∈ flat, word ∈ alphabet.language child) ↔
      (∀ child ∈ flat.filter fun child => (testOperand child).isNone,
        word ∈ alphabet.language child) ∧
      (flat.filterMap testOperand = [] ∨
        word ∈ alphabet.language
          (regexTest (testAnd (flat.filterMap testOperand)))) := by
  have testsCanonical := canonical_filterMap_testOperand canonical
  have grouped : (flat.filterMap testOperand = [] ∨
      word ∈ alphabet.language
        (regexTest (testAnd (flat.filterMap testOperand)))) ↔
        ∀ test ∈ flat.filterMap testOperand,
          word ∈ alphabet.language (.test test) := by
    simp only [mem_language_regexTest, Alphabet.mem_language_test,
      Alphabet.accepts, holdsUnder_testAnd (alphabet.consistent _)
        testsCanonical, List.all_eq_true]
    constructor
    · rintro (noTests | ⟨letter, rfl, holds⟩) test member
      · rw [noTests] at member
        exact absurd member List.not_mem_nil
      · exact ⟨letter, rfl, holds test member⟩
    · intro allHold
      cases tests : flat.filterMap testOperand with
      | nil => exact Or.inl rfl
      | cons first rest =>
          right
          obtain ⟨letter, rfl, _⟩ := allHold first (by simp [tests])
          refine ⟨letter, rfl, fun test member => ?_⟩
          rw [← tests] at member
          obtain ⟨other, same, holds⟩ := allHold test member
          rw [List.singleton_inj] at same
          exact same ▸ holds
  rw [grouped]
  constructor
  · intro allIncluded
    exact ⟨fun child member => allIncluded child (List.mem_filter.mp member).1,
      fun test member =>
        allIncluded _ (mem_filterMap_testOperand_iff.mp member)⟩
  · rintro ⟨others, tests⟩ child member
    cases operand : testOperand child with
    | none =>
        exact others child (List.mem_filter.mpr ⟨member, by simp [operand]⟩)
    | some test =>
        rw [testOperand_eq_some_iff] at operand
        subst operand
        exact tests test (mem_filterMap_testOperand_iff.mpr member)

theorem forall_mem_groupIntersectTests_iff
    {flat grouped : List Regex}
    (canonical : ∀ child ∈ flat, CanonicalRegex child)
    (groupedEq : groupIntersectTests flat = some grouped)
    {word : List Letter} :
    (∀ child ∈ grouped, word ∈ alphabet.language child) ↔
      ∀ child ∈ flat, word ∈ alphabet.language child := by
  rw [forall_mem_split_testOperand_iff canonical]
  unfold groupIntersectTests at groupedEq
  dsimp only at groupedEq
  split_ifs at groupedEq with noTests contradictory
  · rw [Option.some.injEq] at groupedEq
    rw [List.isEmpty_iff] at noTests
    simp [← groupedEq, noTests]
  · rw [Option.some.injEq] at groupedEq
    rw [List.isEmpty_iff] at noTests
    simp only [← groupedEq, List.forall_mem_append, List.forall_mem_singleton,
      noTests, false_or]

theorem notMem_of_groupIntersectTests_eq_none
    {flat : List Regex}
    (canonical : ∀ child ∈ flat, CanonicalRegex child)
    (contradictory : groupIntersectTests flat = none)
    {word : List Letter} :
    ¬ ∀ child ∈ flat, word ∈ alphabet.language child := by
  rw [forall_mem_split_testOperand_iff canonical]
  unfold groupIntersectTests at contradictory
  dsimp only at contradictory
  split_ifs at contradictory with noTests isEmpty
  rw [List.isEmpty_iff] at noTests
  rw [isEmpty]
  simp [noTests]

theorem shape_of_groupIntersectTests
    {flat grouped : List Regex}
    (shape : ∀ child ∈ flat, CanonicalRegex child ∧ isIntersect child = false)
    (groupedEq : groupIntersectTests flat = some grouped) :
    ∀ child ∈ grouped, CanonicalRegex child ∧ isIntersect child = false := by
  have othersShape : ∀ child ∈
      flat.filter (fun child => (testOperand child).isNone),
        CanonicalRegex child ∧ isIntersect child = false :=
    fun child member => shape child (List.mem_filter.mp member).1
  have testsCanonical := canonical_filterMap_testOperand
    fun child member => (shape child member).1
  unfold groupIntersectTests at groupedEq
  dsimp only at groupedEq
  split_ifs at groupedEq
  · rw [Option.some.injEq] at groupedEq
    exact groupedEq ▸ othersShape
  · rw [Option.some.injEq] at groupedEq
    rw [← groupedEq, List.forall_mem_append]
    refine ⟨othersShape, fun child member => ?_⟩
    rw [List.mem_singleton] at member
    subst member
    exact ⟨.regexTest (.testAnd testsCanonical), isIntersect_regexTest _⟩

omit [LinearOrder TestNode] [LinearOrder Regex] in
theorem isEpsilonComplement_eq_true_iff {regex : Regex} :
    isEpsilonComplement regex = true ↔ regex = .not .epsilon := by
  unfold isEpsilonComplement
  split
  · simp
  · rename_i shape
    simpa using shape

omit [LinearOrder TestNode] [LinearOrder Regex] in
theorem forall_mem_dropImpliedProperness_iff
    {flat : List Regex}
    {word : List Letter} :
    (∀ child ∈ dropImpliedProperness flat, word ∈ alphabet.language child) ↔
      ∀ child ∈ flat, word ∈ alphabet.language child := by
  unfold dropImpliedProperness
  split_ifs with implied
  · rw [List.any_eq_true] at implied
    obtain ⟨other, otherMem, proper⟩ := implied
    rw [Bool.and_eq_true, Bool.not_eq_true', Bool.not_eq_true'] at proper
    obtain ⟨notComplement, notNullable⟩ := proper
    constructor
    · intro kept child member
      cases complement : isEpsilonComplement child with
      | false =>
          exact kept child (List.mem_filter.mpr ⟨member, by simp [complement]⟩)
      | true =>
          rw [isEpsilonComplement_eq_true_iff] at complement
          subst complement
          rw [Alphabet.mem_language_not, Alphabet.mem_language_epsilon]
          rintro rfl
          have included := kept other
            (List.mem_filter.mpr ⟨otherMem, by simp [notComplement]⟩)
          rw [← alphabet.nullable_iff, notNullable] at included
          exact absurd included (by decide)
    · intro allIncluded child member
      exact allIncluded child (List.mem_filter.mp member).1
  · rfl

omit [LinearOrder TestNode] [LinearOrder Regex] in
theorem dropImpliedProperness_sublist (flat : List Regex) :
    (dropImpliedProperness flat).Sublist flat := by
  unfold dropImpliedProperness
  split_ifs
  · exact List.filter_sublist
  · exact List.Sublist.refl flat

omit [LinearOrder TestNode] [LinearOrder Regex] in
theorem mem_language_closeIntersect
    {flat : List Regex}
    {word : List Letter} :
    word ∈ alphabet.language (closeIntersect flat) ↔
      ∀ child ∈ flat, word ∈ alphabet.language child := by
  unfold closeIntersect
  split
  · simp
  · simp
  · exact alphabet.mem_language_intersect

theorem CanonicalRegex.closeIntersect
    {flat : List Regex}
    (sorted : flat.Pairwise (· < ·))
    (shape : ∀ child ∈ flat,
      CanonicalRegex child ∧ isIntersect child = false) :
    CanonicalRegex (closeIntersect flat) := by
  unfold Validator.closeIntersect
  split
  · exact .all
  · exact (shape _ List.mem_cons_self).1
  · exact .intersect sorted (fun child member => (shape child member).2)
      fun child member => (shape child member).1

theorem CanonicalRegex.regexIntersect
    {children : List Regex}
    (canonical : ∀ child ∈ children, CanonicalRegex child) :
    CanonicalRegex (regexIntersect children) := by
  unfold Validator.regexIntersect
  split
  · exact .empty
  · rename_i collected flattened
    split
    · exact .empty
    · rename_i grouped groupedEq
      have shape := shape_of_groupIntersectTests
        (shape_of_flattenIntersect canonical flattened) groupedEq
      dsimp only
      split_ifs
      · exact .empty
      · exact .epsilon
      · exact .empty
      · have sublist :=
          (retainRegexes_sublist isUnion (dropImpliedProperness
            (sortDedup grouped))).trans (dropImpliedProperness_sublist _)
        refine .closeIntersect ((pairwise_sortDedup _).sublist sublist)
          fun child member => shape child ?_
        exact mem_sortDedup.mp (sublist.subset member)

/-- The intersection constructor denotes intersection. -/
theorem mem_language_regexIntersect
    {children : List Regex}
    (canonical : ∀ child ∈ children, CanonicalRegex child)
    {word : List Letter} :
    word ∈ alphabet.language (regexIntersect children) ↔
      ∀ child ∈ children, word ∈ alphabet.language child := by
  unfold regexIntersect
  split
  · rename_i absorbed
    simp only [Alphabet.notMem_language_empty, false_iff, not_forall]
    exact ⟨.empty, empty_mem_of_flattenIntersect_eq_none absorbed,
      alphabet.notMem_language_empty⟩
  · rename_i collected flattened
    have collectedShape := shape_of_flattenIntersect canonical flattened
    have collectedCanonical := fun child member =>
      (collectedShape child member).1
    rw [← forall_mem_flattenIntersect_iff flattened]
    split
    · rename_i contradictory
      simp only [Alphabet.notMem_language_empty, false_iff]
      exact notMem_of_groupIntersectTests_eq_none collectedCanonical
        contradictory
    · rename_i grouped groupedEq
      have groupedShape := shape_of_groupIntersectTests collectedShape groupedEq
      have flatMeaning :
          (∀ child ∈ sortDedup grouped, word ∈ alphabet.language child) ↔
            ∀ child ∈ collected, word ∈ alphabet.language child := by
        simp only [mem_sortDedup]
        exact forall_mem_groupIntersectTests_iff collectedCanonical groupedEq
      rw [← flatMeaning]
      dsimp only
      split_ifs with complements epsilonMem nullable
      · simp only [Alphabet.notMem_language_empty, false_iff]
        intro allIncluded
        obtain ⟨left, leftMem, right, rightMem, complementary⟩ :=
          exists_of_pairSatisfies complements
        have opposite := mem_iff_notMem_of_complementaryRegex alphabet
          complementary word
        exact opposite.mp (allIncluded left leftMem)
          (allIncluded right rightMem)
      · rw [Alphabet.mem_language_epsilon]
        constructor
        · rintro rfl child member
          exact (alphabet.nullable_iff child).mp
            (List.all_eq_true.mp nullable child member)
        · intro allIncluded
          exact (alphabet.mem_language_epsilon).mp
            (allIncluded .epsilon epsilonMem)
      · simp only [Alphabet.notMem_language_empty, false_iff]
        intro allIncluded
        refine nullable (List.all_eq_true.mpr fun child member => ?_)
        have isNil := (alphabet.mem_language_epsilon).mp
          (allIncluded .epsilon epsilonMem)
        rw [alphabet.nullable_iff, ← isNil]
        exact allIncluded child member
      · have keptShape : ∀ child ∈ dropImpliedProperness (sortDedup grouped),
            CanonicalRegex child ∧ isIntersect child = false :=
          fun child member => groupedShape child (mem_sortDedup.mp
            ((dropImpliedProperness_sublist _).subset member))
        rw [mem_language_closeIntersect, forall_mem_retainRegexes_iff
          (fun child member => (keptShape child member).1)
          (fun child member => (keptShape child member).2),
          forall_mem_dropImpliedProperness_iff]

/-! ## Concatenation, star and complement -/

omit [LinearOrder TestNode] [LinearOrder Regex] in
theorem language_regexConcat (factors : List Regex) :
    alphabet.language (regexConcat factors) =
      (factors.map alphabet.language).prod := by
  have flattenedMeaning : ∀ factors : List Regex,
      (factors.map alphabet.language).prod =
        (flattenConcat factors).elim 0
          fun flat => (flat.map alphabet.language).prod := by
    intro factors
    induction factors with
    | nil => simp [flattenConcat]
    | cons factor rest hypothesis =>
        cases factor with
        | empty => simp [flattenConcat, Alphabet.language]
        | epsilon =>
            simpa [flattenConcat, Alphabet.language] using hypothesis
        | concat nested =>
            cases found : flattenConcat rest <;>
              simp_all [flattenConcat, Alphabet.language_concat]
        | _ =>
            cases found : flattenConcat rest <;>
              simp_all [flattenConcat]
  have meaning := flattenedMeaning factors
  unfold regexConcat
  split
  · rename_i absorbed
    rw [absorbed] at meaning
    simpa [Alphabet.language] using meaning.symm
  · rename_i flat flattened
    rw [flattened, Option.elim_some] at meaning
    rw [meaning]
    unfold closeConcat
    split
    · simp [Alphabet.language]
    · simp
    · exact alphabet.language_concat flat

theorem CanonicalRegex.regexConcat
    {factors : List Regex}
    (canonical : ∀ factor ∈ factors, CanonicalRegex factor) :
    CanonicalRegex (regexConcat factors) := by
  have flatCanonical : ∀ {factors flat : List Regex},
      (∀ factor ∈ factors, CanonicalRegex factor) ->
        flattenConcat factors = some flat ->
          ∀ factor ∈ flat, CanonicalRegex factor := by
    intro factors flat canonical flattened
    induction factors generalizing flat with
    | nil => simp_all [flattenConcat]
    | cons factor rest hypothesis =>
        obtain ⟨headCanonical, restCanonical⟩ :=
          List.forall_mem_cons.mp canonical
        cases factor with
        | empty => simp [flattenConcat] at flattened
        | epsilon =>
            rw [flattenConcat] at flattened
            exact hypothesis restCanonical flattened
        | concat nested =>
            rw [flattenConcat, Option.map_eq_some_iff] at flattened
            obtain ⟨tail, tailEq, rfl⟩ := flattened
            rw [List.forall_mem_append]
            refine ⟨?_, hypothesis restCanonical tailEq⟩
            cases headCanonical with
            | concat nestedCanonical => exact nestedCanonical
        | _ =>
            simp only [flattenConcat, Option.map_eq_some_iff] at flattened
            obtain ⟨tail, tailEq, rfl⟩ := flattened
            rw [List.forall_mem_cons]
            exact ⟨headCanonical, hypothesis restCanonical tailEq⟩
  unfold Validator.regexConcat
  split
  · exact .empty
  · rename_i flat flattened
    have shape := flatCanonical canonical flattened
    unfold closeConcat
    split
    · exact .epsilon
    · exact shape _ List.mem_cons_self
    · exact .concat shape

omit [LinearOrder TestNode] [LinearOrder Regex] in
theorem language_regexStar (inner : Regex) :
    alphabet.language (regexStar inner) =
      KStar.kstar (alphabet.language inner) := by
  unfold regexStar
  split
  · simp [Alphabet.language]
  · simp [Alphabet.language]
  · simp [Alphabet.language, Language.kstar_top]
  · have accepted : alphabet.accepts .tt = fun _ => True := by
      funext letter
      simp [Alphabet.accepts]
    simp [Alphabet.language, accepted, Language.kstar_single_true]
  · simp [Alphabet.language]
  · simp [Alphabet.language]

theorem CanonicalRegex.regexStar
    {inner : Regex}
    (canonical : CanonicalRegex inner) : CanonicalRegex (regexStar inner) := by
  unfold Validator.regexStar
  split
  · exact .epsilon
  · exact .epsilon
  · exact .all
  · exact .all
  · exact canonical
  · exact .star canonical

omit [LinearOrder TestNode] [LinearOrder Regex] in
theorem mem_language_regexNot
    {inner : Regex}
    {word : List Letter} :
    word ∈ alphabet.language (regexNot inner) ↔
      word ∉ alphabet.language inner := by
  unfold regexNot
  split <;> simp

theorem CanonicalRegex.regexNot
    {inner : Regex}
    (canonical : CanonicalRegex inner) : CanonicalRegex (regexNot inner) := by
  unfold Validator.regexNot
  split
  · exact .all
  · exact .empty
  · cases canonical with
    | not innerCanonical => exact innerCanonical
  · exact .not canonical

end Order

end Validator
end Marsh
