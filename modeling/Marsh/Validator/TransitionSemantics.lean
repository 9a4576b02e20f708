import Marsh.Library.Totality
import Marsh.Validator.RegexSemantics
import Marsh.Validator.Transition

/-!
# Meaning of the transition constructors

On transitions made of constants, conditionals and unions every constructor
returns, stays in that class, and denotes the operation it is named after.  A
transition denotes one language for each letter: the words that may follow the
letter.
-/

namespace Marsh
namespace Validator

open Library

namespace TransitionNode

variable {Letter : Type} (alphabet : Alphabet Letter) (letter : Letter)

mutual

/-- The words a transition leads to after one letter. -/
def language : TransitionNode -> Language Letter
  | .const regex => alphabet.language regex
  | .conditional test thenTransition elseTransition =>
      if holdsUnder (alphabet.matched letter) test then
        thenTransition.language
      else elseTransition.language
  | .union children => unionLanguage children
  | .intersect children => intersectLanguage children
  | .not inner => inner.languageᶜ
  | .append transition suffix =>
      transition.language * (suffix.map alphabet.language).prod

/-- The words some listed transition leads to. -/
def unionLanguage : List TransitionNode -> Language Letter
  | [] => 0
  | child :: children => child.language + unionLanguage children

/-- The words every listed transition leads to. -/
def intersectLanguage : List TransitionNode -> Language Letter
  | [] => ⊤
  | child :: children => child.language ⊓ intersectLanguage children

end

@[simp] theorem language_const (regex : Regex) :
    (const regex).language alphabet letter = alphabet.language regex := by
  rw [language]

@[simp] theorem language_conditional
    (test : TestNode)
    (thenTransition elseTransition : TransitionNode) :
    (conditional test thenTransition elseTransition).language alphabet letter =
      if holdsUnder (alphabet.matched letter) test then
        thenTransition.language alphabet letter
      else elseTransition.language alphabet letter := by
  rw [language]

theorem mem_language_union
    {children : List TransitionNode}
    {word : List Letter} :
    word ∈ (union children).language alphabet letter ↔
      ∃ child ∈ children, word ∈ child.language alphabet letter := by
  rw [language]
  induction children with
  | nil => simp [unionLanguage]
  | cons child children hypothesis =>
      rw [unionLanguage, Language.mem_add, hypothesis]
      simp

theorem mem_language_intersect
    {children : List TransitionNode}
    {word : List Letter} :
    word ∈ (intersect children).language alphabet letter ↔
      ∀ child ∈ children, word ∈ child.language alphabet letter := by
  rw [language]
  induction children with
  | nil => simp [intersectLanguage]
  | cons child children hypothesis =>
      rw [intersectLanguage, Language.mem_inf, hypothesis]
      simp

mutual

/-- Number of constructors of a transition, a constant counting as one. -/
def size : TransitionNode -> Nat
  | .const _ => 1
  | .conditional _ thenTransition elseTransition =>
      thenTransition.size + elseTransition.size + 1
  | .union children => sizeAll children + 1
  | .intersect children => sizeAll children + 1
  | .not inner => inner.size + 1
  | .append transition _ => transition.size + 1

/-- Total size of the listed transitions. -/
def sizeAll : List TransitionNode -> Nat
  | [] => 0
  | child :: children => child.size + sizeAll children

end

theorem size_const (regex : Regex) : (const regex).size = 1 := by
  rw [size]

theorem sizeAll_eq_sum (children : List TransitionNode) :
    sizeAll children = (children.map size).sum := by
  induction children with
  | nil => rfl
  | cons child children hypothesis => simp [sizeAll, hypothesis]

theorem size_lt_of_mem
    {children : List TransitionNode}
    {child : TransitionNode}
    (member : child ∈ children) : child.size < (union children).size := by
  have bound : child.size ≤ (children.map size).sum :=
    List.single_le_sum (by simp) _ (List.mem_map_of_mem member)
  rw [size, sizeAll_eq_sum]
  omega

/-- Whether the transition is a union node. -/
def isUnion : TransitionNode -> Bool
  | .union _ => true
  | _ => false

end TransitionNode

variable {Letter : Type} {alphabet : Alphabet Letter}

theorem constantOperand_eq_some_iff
    {transition : TransitionNode}
    {regex : Regex} :
    constantOperand transition = some regex ↔ transition = .const regex := by
  cases transition <;> simp [constantOperand]

theorem mem_filterMap_constantOperand_iff
    {flat : List TransitionNode}
    {regex : Regex} :
    regex ∈ flat.filterMap constantOperand ↔ .const regex ∈ flat := by
  simp [constantOperand_eq_some_iff]

/-- The operands of a list are its constants and its other operands. -/
theorem mem_iff_of_constantOperand
    {flat : List TransitionNode}
    {child : TransitionNode} :
    child ∈ flat ↔
      child ∈ flat.filter (fun child => (constantOperand child).isNone) ∨
        ∃ regex ∈ flat.filterMap constantOperand, child = .const regex := by
  constructor
  · intro member
    cases operand : constantOperand child with
    | none => exact Or.inl (List.mem_filter.mpr ⟨member, by simp [operand]⟩)
    | some regex =>
        rw [constantOperand_eq_some_iff] at operand
        subst operand
        exact Or.inr ⟨regex, mem_filterMap_constantOperand_iff.mpr member, rfl⟩
  · rintro (member | ⟨regex, member, rfl⟩)
    · exact (List.mem_filter.mp member).1
    · exact mem_filterMap_constantOperand_iff.mp member

/-! ## Flattening -/

theorem exists_mem_flattenTransitionUnion_iff
    {children flat : List TransitionNode}
    (flattened : flattenTransitionUnion children = some flat)
    {letter : Letter}
    {word : List Letter} :
    (∃ child ∈ flat, word ∈ child.language alphabet letter) ↔
      ∃ child ∈ children, word ∈ child.language alphabet letter := by
  induction children using flattenTransitionUnion.induct generalizing flat with
  | case1 => simp_all [flattenTransitionUnion]
  | case2 rest => simp [flattenTransitionUnion] at flattened
  | case3 rest hypothesis =>
      rw [flattenTransitionUnion] at flattened
      simp [hypothesis flattened]
  | case4 nested rest hypothesis =>
      rw [flattenTransitionUnion, Option.map_eq_some_iff] at flattened
      obtain ⟨tail, tailEq, rfl⟩ := flattened
      rw [List.exists_mem_cons_iff, TransitionNode.mem_language_union,
        ← hypothesis tailEq]
      simp only [List.mem_append, or_and_right, exists_or]
  | case5 child rest notAll notEmpty notUnion hypothesis =>
      rw [flattenTransitionUnion, Option.map_eq_some_iff] at flattened
      · obtain ⟨tail, tailEq, rfl⟩ := flattened
        rw [List.exists_mem_cons_iff, List.exists_mem_cons_iff,
          hypothesis tailEq]
      all_goals assumption

theorem all_mem_of_flattenTransitionUnion_eq_none
    {children : List TransitionNode}
    (absorbed : flattenTransitionUnion children = none) :
    transitionAll ∈ children := by
  induction children using flattenTransitionUnion.induct with
  | case1 => simp [flattenTransitionUnion] at absorbed
  | case2 rest => exact List.mem_cons_self
  | case3 rest hypothesis =>
      rw [flattenTransitionUnion] at absorbed
      exact List.mem_cons_of_mem _ (hypothesis absorbed)
  | case4 nested rest hypothesis =>
      rw [flattenTransitionUnion, Option.map_eq_none_iff] at absorbed
      exact List.mem_cons_of_mem _ (hypothesis absorbed)
  | case5 child rest notAll notEmpty notUnion hypothesis =>
      rw [flattenTransitionUnion, Option.map_eq_none_iff] at absorbed
      · exact List.mem_cons_of_mem _ (hypothesis absorbed)
      all_goals assumption

theorem forall_mem_flattenTransitionIntersect_iff
    {children flat : List TransitionNode}
    (flattened : flattenTransitionIntersect children = some flat)
    {letter : Letter}
    {word : List Letter} :
    (∀ child ∈ flat, word ∈ child.language alphabet letter) ↔
      ∀ child ∈ children, word ∈ child.language alphabet letter := by
  induction children using flattenTransitionIntersect.induct generalizing flat with
  | case1 => simp_all [flattenTransitionIntersect]
  | case2 rest => simp [flattenTransitionIntersect] at flattened
  | case3 rest hypothesis =>
      rw [flattenTransitionIntersect] at flattened
      simp [hypothesis flattened]
  | case4 nested rest hypothesis =>
      rw [flattenTransitionIntersect, Option.map_eq_some_iff] at flattened
      obtain ⟨tail, tailEq, rfl⟩ := flattened
      rw [List.forall_mem_cons, TransitionNode.mem_language_intersect,
        ← hypothesis tailEq]
      exact List.forall_mem_append
  | case5 child rest notEmpty notAll notIntersect hypothesis =>
      rw [flattenTransitionIntersect, Option.map_eq_some_iff] at flattened
      · obtain ⟨tail, tailEq, rfl⟩ := flattened
        rw [List.forall_mem_cons, List.forall_mem_cons,
          hypothesis tailEq]
      all_goals assumption

theorem empty_mem_of_flattenTransitionIntersect_eq_none
    {children : List TransitionNode}
    (absorbed : flattenTransitionIntersect children = none) :
    transitionEmpty ∈ children := by
  induction children using flattenTransitionIntersect.induct with
  | case1 => simp [flattenTransitionIntersect] at absorbed
  | case2 rest => exact List.mem_cons_self
  | case3 rest hypothesis =>
      rw [flattenTransitionIntersect] at absorbed
      exact List.mem_cons_of_mem _ (hypothesis absorbed)
  | case4 nested rest hypothesis =>
      rw [flattenTransitionIntersect, Option.map_eq_none_iff] at absorbed
      exact List.mem_cons_of_mem _ (hypothesis absorbed)
  | case5 child rest notEmpty notAll notIntersect hypothesis =>
      rw [flattenTransitionIntersect, Option.map_eq_none_iff] at absorbed
      · exact List.mem_cons_of_mem _ (hypothesis absorbed)
      all_goals assumption

section Order

variable [LinearOrder TestNode] [LinearOrder Regex] [LinearOrder TransitionNode]

/-- Transitions made of constants, conditionals and unions: guards are not
constant, branches differ, and the operands of a union are strictly sorted, at
least two, and not unions themselves. -/
inductive ClosedTransition : TransitionNode -> Prop
  | const {regex : Regex}
      (canonical : CanonicalRegex regex) : ClosedTransition (.const regex)
  | conditional {test : TestNode} {thenTransition elseTransition : TransitionNode}
      (canonical : CanonicalTest test)
      (notTrue : test ≠ .tt)
      (notFalse : test ≠ .ff)
      (different : thenTransition ≠ elseTransition)
      (thenClosed : ClosedTransition thenTransition)
      (elseClosed : ClosedTransition elseTransition) :
      ClosedTransition (.conditional test thenTransition elseTransition)
  | union {children : List TransitionNode}
      (several : 2 ≤ children.length)
      (sorted : children.Pairwise (· < ·))
      (flat : ∀ child ∈ children, child.isUnion = false)
      (closed : ∀ child ∈ children, ClosedTransition child) :
      ClosedTransition (.union children)

theorem ClosedTransition.empty : ClosedTransition transitionEmpty :=
  .const .empty

theorem ClosedTransition.all : ClosedTransition transitionAll :=
  .const .all

theorem ClosedTransition.epsilon : ClosedTransition transitionEpsilon :=
  .const .epsilon

/-- A closed transition that leads to the given language after each letter. -/
def Denotes
    (alphabet : Alphabet Letter)
    (meaning : Letter -> Language Letter)
    (transition : TransitionNode) : Prop :=
  ClosedTransition transition ∧
    ∀ letter, transition.language alphabet letter = meaning letter

theorem canonical_filterMap_constantOperand
    {flat : List TransitionNode}
    (closed : ∀ child ∈ flat, ClosedTransition child) :
    ∀ regex ∈ flat.filterMap constantOperand, CanonicalRegex regex := by
  intro regex member
  cases closed _ (mem_filterMap_constantOperand_iff.mp member) with
  | const canonical => exact canonical

/-! ## Union -/

theorem shape_of_flattenTransitionUnion
    {children flat : List TransitionNode}
    (closed : ∀ child ∈ children, ClosedTransition child)
    (flattened : flattenTransitionUnion children = some flat) :
    ∀ child ∈ flat, ClosedTransition child ∧ child.isUnion = false := by
  induction children using flattenTransitionUnion.induct generalizing flat with
  | case1 => simp_all [flattenTransitionUnion]
  | case2 rest => simp [flattenTransitionUnion] at flattened
  | case3 rest hypothesis =>
      rw [flattenTransitionUnion] at flattened
      exact hypothesis (List.forall_mem_cons.mp closed).2 flattened
  | case4 nested rest hypothesis =>
      rw [flattenTransitionUnion, Option.map_eq_some_iff] at flattened
      obtain ⟨tail, tailEq, rfl⟩ := flattened
      obtain ⟨headClosed, restClosed⟩ := List.forall_mem_cons.mp closed
      rw [List.forall_mem_append]
      refine ⟨?_, hypothesis restClosed tailEq⟩
      cases headClosed with
      | union _ _ nestedFlat nestedClosed =>
          exact fun inner member =>
            ⟨nestedClosed inner member, nestedFlat inner member⟩
  | case5 child rest notAll notEmpty notUnion hypothesis =>
      rw [flattenTransitionUnion, Option.map_eq_some_iff] at flattened
      · obtain ⟨tail, tailEq, rfl⟩ := flattened
        obtain ⟨headClosed, restClosed⟩ := List.forall_mem_cons.mp closed
        rw [List.forall_mem_cons]
        refine ⟨⟨headClosed, ?_⟩, hypothesis restClosed tailEq⟩
        cases child with
        | union nested => exact absurd rfl (notUnion nested)
        | _ => rfl
      all_goals assumption

/-- A union is that of its constant operands, combined into a single regex, and
of the others. -/
theorem exists_mem_split_constantOperand_iff
    {flat : List TransitionNode}
    (closed : ∀ child ∈ flat, ClosedTransition child)
    {letter : Letter}
    {word : List Letter} :
    (∃ child ∈ flat, word ∈ child.language alphabet letter) ↔
      (∃ child ∈ flat.filter fun child => (constantOperand child).isNone,
        word ∈ child.language alphabet letter) ∨
      word ∈ alphabet.language
        (regexUnion (flat.filterMap constantOperand)) := by
  rw [mem_language_regexUnion (canonical_filterMap_constantOperand closed)]
  constructor
  · rintro ⟨child, member, included⟩
    rcases mem_iff_of_constantOperand.mp member with
      other | ⟨regex, regexMem, rfl⟩
    · exact Or.inl ⟨child, other, included⟩
    · exact Or.inr ⟨regex, regexMem, by simpa using included⟩
  · rintro (⟨child, member, included⟩ | ⟨regex, member, included⟩)
    · exact ⟨child, (List.mem_filter.mp member).1, included⟩
    · exact ⟨.const regex, mem_filterMap_constantOperand_iff.mp member,
        by simpa using included⟩

theorem exists_mem_groupUnionConstants_iff
    {flat grouped : List TransitionNode}
    (closed : ∀ child ∈ flat, ClosedTransition child)
    (groupedEq : groupUnionConstants flat = some grouped)
    {letter : Letter}
    {word : List Letter} :
    (∃ child ∈ grouped, word ∈ child.language alphabet letter) ↔
      ∃ child ∈ flat, word ∈ child.language alphabet letter := by
  rw [exists_mem_split_constantOperand_iff closed]
  unfold groupUnionConstants at groupedEq
  dsimp only at groupedEq
  split_ifs at groupedEq with noConstants isAll isEmpty
  · rw [List.isEmpty_iff] at noConstants
    rw [Option.some.injEq] at groupedEq
    rw [noConstants, mem_language_regexUnion (by simp), ← groupedEq]
    simp
  · rw [Option.some.injEq] at groupedEq
    rw [← groupedEq, transitionConst]
    simp only [List.mem_append, List.mem_singleton, or_and_right, exists_or,
      exists_eq_left, TransitionNode.language_const]
  · rw [Option.some.injEq] at groupedEq
    rw [not_not] at isEmpty
    simp [isEmpty, groupedEq]

theorem exists_mem_of_groupUnionConstants_eq_none
    {flat : List TransitionNode}
    (closed : ∀ child ∈ flat, ClosedTransition child)
    (universal : groupUnionConstants flat = none)
    (letter : Letter)
    (word : List Letter) :
    ∃ child ∈ flat, word ∈ child.language alphabet letter := by
  rw [exists_mem_split_constantOperand_iff closed]
  unfold groupUnionConstants at universal
  dsimp only at universal
  split_ifs at universal with noConstants isAll
  rw [isAll]
  exact Or.inr alphabet.mem_language_all

theorem shape_of_groupUnionConstants
    {flat grouped : List TransitionNode}
    (shape : ∀ child ∈ flat, ClosedTransition child ∧ child.isUnion = false)
    (groupedEq : groupUnionConstants flat = some grouped) :
    ∀ child ∈ grouped, ClosedTransition child ∧ child.isUnion = false := by
  have constantsCanonical := canonical_filterMap_constantOperand
    fun child member => (shape child member).1
  have othersShape : ∀ child ∈
      flat.filter (fun child => (constantOperand child).isNone),
        ClosedTransition child ∧ child.isUnion = false :=
    fun child member => shape child (List.mem_filter.mp member).1
  unfold groupUnionConstants at groupedEq
  dsimp only at groupedEq
  split_ifs at groupedEq
  · rw [Option.some.injEq] at groupedEq
    exact groupedEq ▸ othersShape
  · rw [Option.some.injEq] at groupedEq
    rw [← groupedEq, List.forall_mem_append, List.forall_mem_singleton]
    exact ⟨othersShape, .const (.regexUnion constantsCanonical), rfl⟩
  · rw [Option.some.injEq] at groupedEq
    exact groupedEq ▸ othersShape

/-- The union constructor keeps transitions closed. -/
theorem ClosedTransition.transitionUnion
    {children : List TransitionNode}
    (closed : ∀ child ∈ children, ClosedTransition child) :
    ClosedTransition (transitionUnion children) := by
  unfold Validator.transitionUnion
  split
  · exact .all
  · rename_i collected flattened
    split
    · exact .all
    · rename_i grouped groupedEq
      have shape := shape_of_groupUnionConstants
        (shape_of_flattenTransitionUnion closed flattened) groupedEq
      have sorted := pairwise_sortDedup grouped
      have flatShape : ∀ child ∈ sortDedup grouped,
          ClosedTransition child ∧ child.isUnion = false :=
        fun child member => shape child (mem_sortDedup.mp member)
      unfold closeTransitionUnion
      split
      · exact .empty
      · rename_i only onlyEq
        exact (flatShape only (by simp [onlyEq])).1
      · rename_i notNil notSingle
        refine .union ?_ sorted (fun child member => (flatShape child member).2)
          fun child member => (flatShape child member).1
        rcases lengthEq : sortDedup grouped with _ | ⟨only, _ | ⟨second, rest⟩⟩
        · exact absurd lengthEq notNil
        · exact absurd lengthEq (notSingle only)
        · simp

/-- The union constructor denotes union. -/
theorem mem_language_transitionUnion
    {children : List TransitionNode}
    (closed : ∀ child ∈ children, ClosedTransition child)
    {letter : Letter}
    {word : List Letter} :
    word ∈ (transitionUnion children).language alphabet letter ↔
      ∃ child ∈ children, word ∈ child.language alphabet letter := by
  unfold transitionUnion
  split
  · rename_i absorbed
    have included : word ∈ transitionAll.language alphabet letter := by
      simp [transitionAll, transitionConst]
    exact iff_of_true included
      ⟨_, all_mem_of_flattenTransitionUnion_eq_none absorbed, included⟩
  · rename_i collected flattened
    have collectedClosed := fun child member =>
      (shape_of_flattenTransitionUnion closed flattened child member).1
    rw [← exists_mem_flattenTransitionUnion_iff flattened]
    split
    · rename_i universal
      refine iff_of_true (by simp [transitionAll, transitionConst]) ?_
      exact exists_mem_of_groupUnionConstants_eq_none collectedClosed universal
        letter word
    · rename_i grouped groupedEq
      rw [← exists_mem_groupUnionConstants_iff collectedClosed groupedEq]
      have sameMembers : (∃ child ∈ grouped,
          word ∈ child.language alphabet letter) ↔
            ∃ child ∈ sortDedup grouped,
              word ∈ child.language alphabet letter := by
        simp only [mem_sortDedup]
      rw [sameMembers]
      generalize sortDedup grouped = flat
      unfold closeTransitionUnion
      split
      · simp [transitionEmpty, transitionConst]
      · simp
      · exact TransitionNode.mem_language_union alphabet letter

/-! ## Conditionals -/

theorem ClosedTransition.internTransitionIf
    {test : TestNode}
    {thenTransition elseTransition : TransitionNode}
    (canonical : CanonicalTest test)
    (thenClosed : ClosedTransition thenTransition)
    (elseClosed : ClosedTransition elseTransition) :
    ClosedTransition
      (internTransitionIf test thenTransition elseTransition) := by
  unfold Validator.internTransitionIf
  split_ifs with isTrue isFalse same
  · exact thenClosed
  · exact elseClosed
  · exact thenClosed
  · exact .conditional canonical isTrue isFalse same thenClosed elseClosed

omit [LinearOrder Regex] in
theorem language_internTransitionIf
    (test : TestNode)
    (thenTransition elseTransition : TransitionNode)
    (letter : Letter) :
    (internTransitionIf test thenTransition elseTransition).language
      alphabet letter =
      if holdsUnder (alphabet.matched letter) test then
        thenTransition.language alphabet letter
      else elseTransition.language alphabet letter := by
  unfold internTransitionIf
  split_ifs with isTrue isFalse same holds
  all_goals simp_all

/-- The transition is cleaned to one that leads to the same words after every
letter of the path. -/
def CleansUnder
    (alphabet : Alphabet Letter)
    (transition : TransitionNode) : Prop :=
  ∀ path, CanonicalTest path ->
    Returns (cleanTransitionPath transition path) fun cleaned =>
      ClosedTransition cleaned ∧
        ∀ letter, alphabet.accepts path letter ->
          cleaned.language alphabet letter = transition.language alphabet letter

theorem returns_cleanConditionalPath
    {test : TestNode}
    {thenTransition elseTransition : TransitionNode}
    {path : TestNode}
    (testCanonical : CanonicalTest test)
    (pathCanonical : CanonicalTest path)
    (thenCleans : CleansUnder alphabet thenTransition)
    (elseCleans : CleansUnder alphabet elseTransition) :
    Returns (cleanConditionalPath test thenTransition elseTransition path)
      fun cleaned => ClosedTransition cleaned ∧
        ∀ letter, alphabet.accepts path letter ->
          cleaned.language alphabet letter =
            if holdsUnder (alphabet.matched letter) test then
              thenTransition.language alphabet letter
            else elseTransition.language alphabet letter := by
  have trueCanonical : CanonicalTest (testAnd [path, test]) :=
    .testAnd (by simp [pathCanonical, testCanonical])
  have falseCanonical : CanonicalTest (testAnd [path, testNot test]) :=
    .testAnd (by simp [pathCanonical, testCanonical.testNot])
  have trueAccepts : ∀ letter, alphabet.accepts (testAnd [path, test]) letter ↔
      alphabet.accepts path letter ∧ alphabet.accepts test letter := by
    intro letter
    simp only [Alphabet.accepts]
    rw [holdsUnder_testAnd (alphabet.consistent letter)
      (by simp [pathCanonical, testCanonical])]
    simp
  have falseAccepts : ∀ letter,
      alphabet.accepts (testAnd [path, testNot test]) letter ↔
        alphabet.accepts path letter ∧ ¬ alphabet.accepts test letter := by
    intro letter
    simp only [Alphabet.accepts]
    rw [holdsUnder_testAnd (alphabet.consistent letter)
      (by simp [pathCanonical, testCanonical.testNot])]
    simp [holdsUnder_testNot (alphabet.consistent letter) testCanonical]
  have noneAccepts : ∀ letter, ¬ alphabet.accepts .ff letter := by
    simp [Alphabet.accepts]
  rw [cleanConditionalPath]
  dsimp only
  split_ifs with isTrue isFalse same trueInfeasible falseInfeasible
  · refine (thenCleans path pathCanonical).imp fun cleaned holds => ?_
    refine ⟨holds.1, fun letter accepted => ?_⟩
    simp [holds.2 letter accepted, isTrue]
  · refine (elseCleans path pathCanonical).imp fun cleaned holds => ?_
    refine ⟨holds.1, fun letter accepted => ?_⟩
    simp [holds.2 letter accepted, isFalse]
  · refine (thenCleans path pathCanonical).imp fun cleaned holds => ?_
    refine ⟨holds.1, fun letter accepted => ?_⟩
    rw [holds.2 letter accepted, ← same, ite_self]
  · -- No letter of the path satisfies the test.
    refine (elseCleans _ falseCanonical).imp fun cleaned holds => ?_
    refine ⟨holds.1, fun letter accepted => ?_⟩
    have fails : ¬ alphabet.accepts test letter := fun holdsTest =>
      noneAccepts letter (trueInfeasible ▸
        (trueAccepts letter).mpr ⟨accepted, holdsTest⟩)
    rw [holds.2 letter ((falseAccepts letter).mpr ⟨accepted, fails⟩)]
    exact (if_neg fails).symm
  · -- Every letter of the path satisfies the test.
    refine (thenCleans _ trueCanonical).imp fun cleaned holds => ?_
    refine ⟨holds.1, fun letter accepted => ?_⟩
    have succeeds : alphabet.accepts test letter := by
      by_contra fails
      exact noneAccepts letter (falseInfeasible ▸
        (falseAccepts letter).mpr ⟨accepted, fails⟩)
    rw [holds.2 letter ((trueAccepts letter).mpr ⟨accepted, succeeds⟩)]
    exact (if_pos succeeds).symm
  · refine (thenCleans _ trueCanonical).bind fun thenCleaned thenHolds => ?_
    refine (elseCleans _ falseCanonical).bind fun elseCleaned elseHolds => ?_
    refine Returns.some_iff.mpr
      ⟨.internTransitionIf testCanonical thenHolds.1 elseHolds.1, ?_⟩
    intro letter accepted
    rw [language_internTransitionIf]
    split_ifs with succeeds
    · exact thenHolds.2 letter ((trueAccepts letter).mpr ⟨accepted, succeeds⟩)
    · exact elseHolds.2 letter ((falseAccepts letter).mpr ⟨accepted, succeeds⟩)

/-- Path cleaning returns on closed transitions. -/
theorem ClosedTransition.cleansUnder
    (alphabet : Alphabet Letter)
    {transition : TransitionNode}
    (closed : ClosedTransition transition) :
    CleansUnder alphabet transition := by
  induction closed with
  | const canonical =>
      intro path _
      rw [cleanTransitionPath]
      exact Returns.some_iff.mpr ⟨.const canonical, fun _ _ => rfl⟩
  | conditional canonical _ _ _ _ _ thenHypothesis elseHypothesis =>
      intro path pathCanonical
      rw [cleanTransitionPath]
      refine (returns_cleanConditionalPath canonical pathCanonical
        thenHypothesis elseHypothesis).imp fun cleaned holds => ?_
      simpa only [TransitionNode.language_conditional] using holds
  | @union children _ _ _ _ hypothesis =>
      intro path pathCanonical
      rw [cleanTransitionPath]
      have mapped := Returns.mapM fun child member =>
        hypothesis child member path pathCanonical
      refine mapped.bind fun cleaned related => ?_
      have cleanedClosed : ∀ child ∈ cleaned, ClosedTransition child :=
        forall_mem_of_forall₂ related fun _ _ holds => holds.1
      refine Returns.some_iff.mpr ⟨.transitionUnion cleanedClosed, ?_⟩
      intro letter accepted
      ext word
      rw [mem_language_transitionUnion cleanedClosed,
        TransitionNode.mem_language_union]
      exact exists_mem_iff_of_forall₂ related fun original child holds => by
        rw [holds.2 letter accepted]

/-- The conditional constructor returns a choice between its branches. -/
theorem returns_transitionIf
    {test : TestNode}
    {thenTransition elseTransition : TransitionNode}
    {thenMeaning elseMeaning : Letter -> Language Letter}
    (canonical : CanonicalTest test)
    (thenDenotes : Denotes alphabet thenMeaning thenTransition)
    (elseDenotes : Denotes alphabet elseMeaning elseTransition) :
    Returns (transitionIf test thenTransition elseTransition)
      (Denotes alphabet fun letter =>
        if holdsUnder (alphabet.matched letter) test then thenMeaning letter
        else elseMeaning letter) := by
  rw [transitionIf]
  refine (returns_cleanConditionalPath canonical .tt
    (thenDenotes.1.cleansUnder alphabet)
    (elseDenotes.1.cleansUnder alphabet)).imp fun cleaned holds => ?_
  refine ⟨holds.1, fun letter => ?_⟩
  rw [holds.2 letter (by simp [Alphabet.accepts]), thenDenotes.2,
    elseDenotes.2]

/-! ## Intersection -/

theorem exists_split_intersectConstants
    {flat : List TransitionNode}
    (closed : ∀ child ∈ flat, ClosedTransition child)
    {letter : Letter}
    {word : List Letter} :
    (∀ child ∈ flat, word ∈ child.language alphabet letter) ↔
      (∀ child ∈ flat.filter fun child => (constantOperand child).isNone,
        word ∈ child.language alphabet letter) ∧
      word ∈ alphabet.language
        (regexIntersect (flat.filterMap constantOperand)) := by
  rw [mem_language_regexIntersect (canonical_filterMap_constantOperand closed)]
  constructor
  · intro allIncluded
    refine ⟨fun child member => allIncluded child (List.mem_filter.mp member).1,
      fun regex member => ?_⟩
    have included :=
      allIncluded _ (mem_filterMap_constantOperand_iff.mp member)
    simpa using included
  · rintro ⟨others, constants⟩ child member
    rcases mem_iff_of_constantOperand.mp member with
      other | ⟨regex, regexMem, rfl⟩
    · exact others child other
    · simpa using constants regex regexMem

theorem forall_mem_groupIntersectConstants_iff
    {flat grouped : List TransitionNode}
    (closed : ∀ child ∈ flat, ClosedTransition child)
    (groupedEq : groupIntersectConstants flat = some grouped)
    {letter : Letter}
    {word : List Letter} :
    (∀ child ∈ grouped, word ∈ child.language alphabet letter) ↔
      ∀ child ∈ flat, word ∈ child.language alphabet letter := by
  rw [exists_split_intersectConstants closed]
  unfold groupIntersectConstants at groupedEq
  dsimp only at groupedEq
  split_ifs at groupedEq with noConstants isEmpty isAll
  · rw [List.isEmpty_iff] at noConstants
    rw [Option.some.injEq] at groupedEq
    rw [noConstants, mem_language_regexIntersect (by simp), ← groupedEq]
    simp
  · rw [Option.some.injEq] at groupedEq
    rw [← groupedEq, transitionConst, List.forall_mem_append,
      List.forall_mem_singleton, TransitionNode.language_const]
  · rw [Option.some.injEq] at groupedEq
    rw [not_not] at isAll
    simp [isAll, groupedEq]

theorem notMem_of_groupIntersectConstants_eq_none
    {flat : List TransitionNode}
    (closed : ∀ child ∈ flat, ClosedTransition child)
    (contradictory : groupIntersectConstants flat = none)
    (letter : Letter)
    (word : List Letter) :
    ¬ ∀ child ∈ flat, word ∈ child.language alphabet letter := by
  rw [exists_split_intersectConstants closed]
  unfold groupIntersectConstants at contradictory
  dsimp only at contradictory
  split_ifs at contradictory with noConstants isEmpty
  rw [isEmpty]
  simp

theorem closed_groupIntersectConstants
    {flat grouped : List TransitionNode}
    (closed : ∀ child ∈ flat, ClosedTransition child)
    (groupedEq : groupIntersectConstants flat = some grouped) :
    ∀ child ∈ grouped, ClosedTransition child := by
  have constantsCanonical := canonical_filterMap_constantOperand closed
  have othersClosed : ∀ child ∈
      flat.filter (fun child => (constantOperand child).isNone),
        ClosedTransition child :=
    fun child member => closed child (List.mem_filter.mp member).1
  unfold groupIntersectConstants at groupedEq
  dsimp only at groupedEq
  split_ifs at groupedEq
  · rw [Option.some.injEq] at groupedEq
    exact groupedEq ▸ othersClosed
  · rw [Option.some.injEq] at groupedEq
    rw [← groupedEq, List.forall_mem_append, List.forall_mem_singleton]
    exact ⟨othersClosed, .const (.regexIntersect constantsCanonical)⟩
  · rw [Option.some.injEq] at groupedEq
    exact groupedEq ▸ othersClosed

theorem flattenTransitionIntersect_sublist
    {children flat : List TransitionNode}
    (closed : ∀ child ∈ children, ClosedTransition child)
    (flattened : flattenTransitionIntersect children = some flat) :
    flat.Sublist children := by
  induction children using flattenTransitionIntersect.induct
    generalizing flat with
  | case1 => simp_all [flattenTransitionIntersect]
  | case2 rest => simp [flattenTransitionIntersect] at flattened
  | case3 rest hypothesis =>
      rw [flattenTransitionIntersect] at flattened
      exact (hypothesis (List.forall_mem_cons.mp closed).2 flattened).cons _
  | case4 nested rest hypothesis =>
      cases (List.forall_mem_cons.mp closed).1
  | case5 child rest notEmpty notAll notIntersect hypothesis =>
      rw [flattenTransitionIntersect, Option.map_eq_some_iff] at flattened
      · obtain ⟨tail, tailEq, rfl⟩ := flattened
        exact (hypothesis (List.forall_mem_cons.mp closed).2 tailEq).cons_cons _
      all_goals assumption

/-- Grouping constants and sorting never add weight, when a constant weighs
one: neither to the size of the operands nor to their number. -/
theorem weight_sortDedup_groupIntersectConstants_le
    (weight : TransitionNode -> Nat)
    (constantWeight : ∀ regex, weight (.const regex) = 1)
    {flat grouped : List TransitionNode}
    (groupedEq : groupIntersectConstants flat = some grouped) :
    ((sortDedup grouped).map weight).sum ≤ (flat.map weight).sum := by
  have split : (flat.map weight).sum =
      ((flat.filter fun child => (constantOperand child).isNone).map
        weight).sum + (flat.filterMap constantOperand).length := by
    clear groupedEq
    induction flat with
    | nil => simp
    | cons child flat hypothesis =>
        cases operand : constantOperand child with
        | none =>
            simp [operand, hypothesis]
            omega
        | some regex =>
            have childEq := constantOperand_eq_some_iff.mp operand
            subst childEq
            simp [constantOperand, hypothesis, constantWeight]
            omega
  have groupedLe : (grouped.map weight).sum ≤ (flat.map weight).sum := by
    unfold groupIntersectConstants at groupedEq
    dsimp only at groupedEq
    split_ifs at groupedEq with noConstants isEmpty isAll
    · rw [Option.some.injEq] at groupedEq
      rw [split, ← groupedEq]
      omega
    · rw [Option.some.injEq] at groupedEq
      have positive : 0 < (flat.filterMap constantOperand).length := by
        rw [List.length_pos_iff]
        simpa [List.isEmpty_iff] using noConstants
      rw [split, ← groupedEq]
      simp [transitionConst, constantWeight]
      omega
    · rw [Option.some.injEq] at groupedEq
      rw [split, ← groupedEq]
      omega
  have sortedLe : ((sortDedup grouped).map weight).sum ≤
      (grouped.map weight).sum := by
    have permuted : ((grouped.mergeSort
        fun left right => decide (left ≤ right)).map weight).sum =
          (grouped.map weight).sum :=
      ((List.mergeSort_perm grouped _).map weight).sum_eq
    rw [← permuted]
    exact List.Sublist.sum_le_sum ((List.dedup_sublist _).map weight) (by simp)
  exact sortedLe.trans groupedLe

/-- The intersection constructor returns the intersection, if folding the pair
constructor over no heavier operands does. -/
theorem returns_transitionIntersect_of_fold
    {children : List TransitionNode}
    (closed : ∀ child ∈ children, ClosedTransition child)
    (folds : ∀ first rest,
      (∀ child ∈ first :: rest, ClosedTransition child) ->
      (first :: rest).length ≤ children.length ->
      TransitionNode.sizeAll (first :: rest) ≤
        TransitionNode.sizeAll children ->
      Returns (rest.foldlM transitionIntersectPair first)
        (Denotes alphabet fun letter => Language.inter
          ((first :: rest).map (·.language alphabet letter)))) :
    Returns (transitionIntersect children)
      (Denotes alphabet fun letter => Language.inter
        (children.map (·.language alphabet letter))) := by
  have notMemEmpty : ∀ (letter : Letter) (word : List Letter),
      word ∉ transitionEmpty.language alphabet letter := by
    simp [transitionEmpty, transitionConst]
  rw [transitionIntersect]
  split
  · rename_i absorbed
    refine Returns.some_iff.mpr ⟨.empty, fun letter => ?_⟩
    ext word
    rw [Language.mem_inter, List.forall_mem_map]
    refine iff_of_false (notMemEmpty letter word) fun allIncluded => ?_
    exact notMemEmpty letter word (allIncluded _
      (empty_mem_of_flattenTransitionIntersect_eq_none absorbed))
  · rename_i collected flattened
    have sublist := flattenTransitionIntersect_sublist closed flattened
    have collectedClosed : ∀ child ∈ collected, ClosedTransition child :=
      fun child member => closed child (sublist.subset member)
    split
    · rename_i contradictory
      refine Returns.some_iff.mpr ⟨.empty, fun letter => ?_⟩
      ext word
      rw [Language.mem_inter, List.forall_mem_map,
        ← forall_mem_flattenTransitionIntersect_iff flattened]
      exact iff_of_false (notMemEmpty letter word)
        (notMem_of_groupIntersectConstants_eq_none collectedClosed
          contradictory letter word)
    · rename_i grouped groupedEq
      have groupedClosed :=
        closed_groupIntersectConstants collectedClosed groupedEq
      have meaning : ∀ letter, Language.inter
          ((sortDedup grouped).map (·.language alphabet letter)) =
            Language.inter (children.map (·.language alphabet letter)) := by
        intro letter
        ext word
        simp only [Language.mem_inter, List.forall_mem_map, mem_sortDedup]
        rw [forall_mem_groupIntersectConstants_iff collectedClosed groupedEq,
          forall_mem_flattenTransitionIntersect_iff flattened]
      have lengthLe : (sortDedup grouped).length ≤ children.length := by
        have grouping := weight_sortDedup_groupIntersectConstants_le
          (fun _ => 1) (fun _ => rfl) groupedEq
        rw [List.map_const', List.map_const', List.sum_replicate_nat,
          List.sum_replicate_nat, mul_one, mul_one] at grouping
        exact grouping.trans sublist.length_le
      have sizeLe : TransitionNode.sizeAll (sortDedup grouped) ≤
          TransitionNode.sizeAll children := by
        rw [TransitionNode.sizeAll_eq_sum, TransitionNode.sizeAll_eq_sum]
        have grouping := weight_sortDedup_groupIntersectConstants_le
          TransitionNode.size TransitionNode.size_const groupedEq
        exact grouping.trans
          (List.Sublist.sum_le_sum (sublist.map _) (by simp))
      have flatClosed : ∀ child ∈ sortDedup grouped, ClosedTransition child :=
        fun child member => groupedClosed child (mem_sortDedup.mp member)
      simp only [← meaning]
      split
      · rename_i emptyEq
        refine Returns.some_iff.mpr ⟨.all, fun letter => ?_⟩
        ext word
        simp [emptyEq, transitionAll, transitionConst]
      · rename_i first rest consEq
        rw [consEq] at flatClosed lengthLe sizeLe ⊢
        exact folds first rest flatClosed lengthLe sizeLe

/-- A conditional over two returned branches denotes a choice. -/
theorem returns_conditional
    {test : TestNode}
    {thenProgram elseProgram : Option TransitionNode}
    {thenMeaning elseMeaning : Letter -> Language Letter}
    (canonical : CanonicalTest test)
    (thenReturns : Returns thenProgram (Denotes alphabet thenMeaning))
    (elseReturns : Returns elseProgram (Denotes alphabet elseMeaning)) :
    Returns
      (do
        let thenTransition ← thenProgram
        let elseTransition ← elseProgram
        transitionIf test thenTransition elseTransition)
      (Denotes alphabet fun letter =>
        if holdsUnder (alphabet.matched letter) test then thenMeaning letter
        else elseMeaning letter) :=
  thenReturns.bind fun _ thenDenotes =>
    elseReturns.bind fun _ elseDenotes =>
      returns_transitionIf canonical thenDenotes elseDenotes

theorem Denotes.congr
    {first second : Letter -> Language Letter}
    {transition : TransitionNode}
    (denotes : Denotes alphabet first transition)
    (equal : ∀ letter, first letter = second letter) :
    Denotes alphabet second transition :=
  ⟨denotes.1, fun letter => (denotes.2 letter).trans (equal letter)⟩

/-- An operation that distributes over the operands of a union is computed one
operand at a time. -/
theorem returns_distributed
    {children : List TransitionNode}
    {program : TransitionNode -> Option TransitionNode}
    (combine : Letter -> Language Letter -> Language Letter)
    (returns : ∀ child ∈ children, Returns (program child)
      (Denotes alphabet fun letter =>
        combine letter (child.language alphabet letter)))
    (distributes : ∀ letter word,
      word ∈ combine letter
        ((TransitionNode.union children).language alphabet letter) ↔
          ∃ child ∈ children,
            word ∈ combine letter (child.language alphabet letter)) :
    Returns
      (do
        let results ← children.mapM program
        pure (transitionUnion results))
      (Denotes alphabet fun letter => combine letter
        ((TransitionNode.union children).language alphabet letter)) := by
  refine (Returns.mapM returns).bind fun results related => ?_
  have resultsClosed := forall_mem_of_forall₂ related
    fun _ _ denotes => denotes.1
  refine Returns.some_iff.mpr ⟨.transitionUnion resultsClosed, fun letter => ?_⟩
  ext word
  rw [mem_language_transitionUnion resultsClosed, distributes]
  exact exists_mem_iff_of_forall₂ related fun child result denotes => by
    rw [denotes.2 letter]

/-- Two conditionals intersect when the smaller intersections they ask for
do. -/
theorem returns_transitionIntersectConditionals
    {leftTest rightTest : TestNode}
    {leftThen leftElse rightThen rightElse : TransitionNode}
    (leftClosed : ClosedTransition (.conditional leftTest leftThen leftElse))
    (rightClosed : ClosedTransition (.conditional rightTest rightThen rightElse))
    (smaller : ∀ {first second : TransitionNode},
      ClosedTransition first -> ClosedTransition second ->
      first.size + second.size <
        (TransitionNode.conditional leftTest leftThen leftElse).size +
          (TransitionNode.conditional rightTest rightThen rightElse).size ->
      Returns (transitionIntersect [first, second])
        (Denotes alphabet fun letter =>
          first.language alphabet letter ⊓ second.language alphabet letter)) :
    Returns (transitionIntersectConditionals leftTest leftThen leftElse
        rightTest rightThen rightElse)
      (Denotes alphabet fun letter =>
        (TransitionNode.conditional leftTest leftThen leftElse).language
            alphabet letter ⊓
          (TransitionNode.conditional rightTest rightThen rightElse).language
            alphabet letter) := by
  simp only [TransitionNode.size] at smaller
  have leftWhole := leftClosed
  have rightWhole := rightClosed
  cases leftClosed with
  | conditional leftCanonical _ _ _ leftThenClosed leftElseClosed =>
      cases rightClosed with
      | conditional rightCanonical _ _ _ rightThenClosed rightElseClosed =>
          have bothCanonical : ∀ test ∈ [leftTest, rightTest],
              CanonicalTest test := by
            simp [leftCanonical, rightCanonical]
          have guardHolds : ∀ letter : Letter,
              holdsUnder (alphabet.matched letter)
                (testAnd [leftTest, rightTest]) =
                (holdsUnder (alphabet.matched letter) leftTest &&
                  holdsUnder (alphabet.matched letter) rightTest) := by
            intro letter
            rw [holdsUnder_testAnd (alphabet.consistent letter) bothCanonical]
            simp
          have thenBranches := smaller leftThenClosed rightThenClosed (by omega)
          simp only [TransitionNode.language_conditional]
          unfold transitionIntersectConditionals
          dsimp only
          split_ifs with guarded infeasible sameTest left
          · refine Returns.some_iff.mpr ⟨.empty, fun letter => ?_⟩
            have excluded := guardHolds letter
            rw [infeasible] at excluded
            ext word
            simp only [BooleanTest.eval_ff] at excluded
            rcases Bool.and_eq_false_iff.mp excluded.symm with fails | fails <;>
              simp [fails, guarded, transitionEmpty, transitionConst,
                Alphabet.language]
          · refine thenBranches.bind fun thenBranch thenDenotes => ?_
            have emptyDenotes : Denotes alphabet (fun _ => 0)
                transitionEmpty :=
              ⟨.empty, fun letter => by
                simp [transitionEmpty, transitionConst, Alphabet.language]⟩
            refine (returns_transitionIf (.testAnd bothCanonical) thenDenotes
              emptyDenotes).imp fun result denotes =>
                denotes.congr fun letter => ?_
            rw [guardHolds]
            ext word
            cases holdsUnder (alphabet.matched letter) leftTest <;>
              cases holdsUnder (alphabet.matched letter) rightTest <;>
              simp [guarded, transitionEmpty, transitionConst,
                Alphabet.language]
          · refine (returns_conditional leftCanonical thenBranches
              (smaller leftElseClosed rightElseClosed (by omega))).imp
                fun result denotes => denotes.congr fun letter => ?_
            subst sameTest
            split_ifs <;> rfl
          · refine (returns_conditional leftCanonical
              (smaller leftThenClosed rightWhole
                (by simp only [TransitionNode.size]; omega))
              (smaller leftElseClosed rightWhole
                (by simp only [TransitionNode.size]; omega))).imp
                fun result denotes => denotes.congr fun letter => ?_
            simp only [TransitionNode.language_conditional]
            split_ifs <;> rfl
          · refine (returns_conditional rightCanonical
              (smaller leftWhole rightThenClosed
                (by simp only [TransitionNode.size]; omega))
              (smaller leftWhole rightElseClosed
                (by simp only [TransitionNode.size]; omega))).imp
                fun result denotes => denotes.congr fun letter => ?_
            simp only [TransitionNode.language_conditional]
            split_ifs <;> rfl

/-- The pair constructor returns the intersection of closed transitions. -/
theorem returns_transitionIntersectPair
    (alphabet : Alphabet Letter)
    {left right : TransitionNode}
    (leftClosed : ClosedTransition left)
    (rightClosed : ClosedTransition right) :
    Returns (transitionIntersectPair left right)
      (Denotes alphabet fun letter =>
        left.language alphabet letter ⊓ right.language alphabet letter) := by
  induction bound : left.size + right.size using Nat.strong_induction_on
    generalizing left right with
  | _ bound hypothesis =>
      subst bound
      -- Every recursive call intersects two operands of smaller total size.
      have smaller : ∀ {first second : TransitionNode},
          ClosedTransition first -> ClosedTransition second ->
          first.size + second.size < left.size + right.size ->
          Returns (transitionIntersect [first, second])
            (Denotes alphabet fun letter =>
              first.language alphabet letter ⊓
                second.language alphabet letter) := by
        intro first second firstClosed secondClosed less
        refine (returns_transitionIntersect_of_fold
          (by simp [firstClosed, secondClosed]) ?_).imp
            fun result denotes => denotes.congr fun letter => by simp
        intro head rest closed lengthLe sizeLe
        match rest with
        | [] =>
            refine Returns.some_iff.mpr ⟨closed head List.mem_cons_self, ?_⟩
            simp
        | [last] =>
            have headSize : head.size + last.size < left.size + right.size := by
              simp only [TransitionNode.sizeAll] at sizeLe
              omega
            refine (hypothesis _ headSize (closed head (by simp))
              (closed last (by simp)) rfl).bind fun result denotes => ?_
            exact Returns.some_iff.mpr (denotes.congr fun letter => by simp)
        | _ :: _ :: _ => simp at lengthLe
      unfold transitionIntersectPair
      by_cases same : left = right
      · rw [if_pos same]
        refine Returns.some_iff.mpr ⟨leftClosed, fun letter => ?_⟩
        simp [same]
      · rw [if_neg same]
        split
        · refine Returns.some_iff.mpr ⟨.empty, fun letter => ?_⟩
          ext word
          simp [transitionEmpty, transitionConst, Language.mem_inf]
        · refine Returns.some_iff.mpr ⟨.empty, fun letter => ?_⟩
          ext word
          simp [transitionEmpty, transitionConst, Language.mem_inf]
        · refine Returns.some_iff.mpr ⟨rightClosed, fun letter => ?_⟩
          ext word
          simp [Language.mem_inf]
        · refine Returns.some_iff.mpr ⟨leftClosed, fun letter => ?_⟩
          ext word
          simp [Language.mem_inf]
        · rename_i leftRegex rightRegex _ _ _ _
          cases leftClosed with
          | const leftCanonical =>
              cases rightClosed with
              | const rightCanonical =>
                  have bothCanonical : ∀ regex ∈ [leftRegex, rightRegex],
                      CanonicalRegex regex := by
                    simp [leftCanonical, rightCanonical]
                  refine Returns.some_iff.mpr
                    ⟨.const (.regexIntersect bothCanonical), fun letter => ?_⟩
                  ext word
                  rw [transitionConst, TransitionNode.language_const,
                    mem_language_regexIntersect bothCanonical]
                  simp [Language.mem_inf]
        · exact returns_transitionIntersectConditionals leftClosed rightClosed
            smaller
        · rename_i children _ _
          cases leftClosed with
          | union _ _ _ childrenClosed =>
              refine returns_distributed
                (fun letter language =>
                  language ⊓ right.language alphabet letter) ?_ ?_
              · exact fun child member =>
                  smaller (childrenClosed child member) rightClosed
                    (Nat.add_lt_add_right
                      (TransitionNode.size_lt_of_mem member) _)
              · intro letter word
                simp only [Language.mem_inf, TransitionNode.mem_language_union]
                simp only [← and_assoc, exists_and_right]
        · rename_i children _ _ _
          cases rightClosed with
          | union _ _ _ childrenClosed =>
              refine returns_distributed
                (fun letter language =>
                  left.language alphabet letter ⊓ language) ?_ ?_
              · exact fun child member =>
                  smaller leftClosed (childrenClosed child member)
                    (Nat.add_lt_add_left
                      (TransitionNode.size_lt_of_mem member) _)
              · intro letter word
                simp only [Language.mem_inf, TransitionNode.mem_language_union]
                constructor
                · rintro ⟨leftMem, child, member, childMem⟩
                  exact ⟨child, member, leftMem, childMem⟩
                · rintro ⟨child, member, leftMem, childMem⟩
                  exact ⟨leftMem, child, member, childMem⟩
        · cases leftClosed with
          | conditional canonical _ _ _ thenClosed elseClosed =>
              refine (returns_conditional canonical
                (smaller thenClosed rightClosed
                  (by simp only [TransitionNode.size]; omega))
                (smaller elseClosed rightClosed
                  (by simp only [TransitionNode.size]; omega))).imp
                  fun result denotes => denotes.congr fun letter => ?_
              rw [TransitionNode.language_conditional]
              split_ifs <;> rfl
        · cases rightClosed with
          | conditional canonical _ _ _ thenClosed elseClosed =>
              refine (returns_conditional canonical
                (smaller leftClosed thenClosed
                  (by simp only [TransitionNode.size]; omega))
                (smaller leftClosed elseClosed
                  (by simp only [TransitionNode.size]; omega))).imp
                  fun result denotes => denotes.congr fun letter => ?_
              rw [TransitionNode.language_conditional]
              split_ifs <;> rfl
        · -- Closed transitions leave no pair for an intersection node.
          cases leftClosed <;> cases rightClosed <;> simp_all

/-- The intersection constructor returns the intersection of closed
transitions. -/
theorem returns_transitionIntersect
    (alphabet : Alphabet Letter)
    {children : List TransitionNode}
    (closed : ∀ child ∈ children, ClosedTransition child) :
    Returns (transitionIntersect children)
      (Denotes alphabet fun letter => Language.inter
        (children.map (·.language alphabet letter))) := by
  refine returns_transitionIntersect_of_fold closed ?_
  intro first rest operandsClosed _ _
  obtain ⟨firstClosed, restClosed⟩ := List.forall_mem_cons.mp operandsClosed
  have start : Denotes alphabet
      (fun letter => Language.inter
        ([first].map (·.language alphabet letter))) first :=
    ⟨firstClosed, fun letter => by simp⟩
  have folded := Returns.foldlM
    (fun done result => Denotes alphabet (fun letter =>
      Language.inter ((first :: done).map (·.language alphabet letter))) result)
    (fun done child result member denotes => by
      refine (returns_transitionIntersectPair alphabet denotes.1
        (restClosed child member)).imp fun next nextDenotes =>
          nextDenotes.congr fun letter => ?_
      ext word
      rw [denotes.2 letter]
      simp [Language.mem_inf, or_imp, forall_and, and_assoc])
    start
  simpa using folded

/-! ## Complement -/

/-- The complement constructor returns the complement of closed transitions. -/
theorem ClosedTransition.returns_transitionNot
    (alphabet : Alphabet Letter)
    {transition : TransitionNode}
    (closed : ClosedTransition transition) :
    Returns (transitionNot transition)
      (Denotes alphabet fun letter =>
        (transition.language alphabet letter)ᶜ) := by
  induction closed with
  | const canonical =>
      rw [transitionNot]
      refine Returns.some_iff.mpr ⟨.const (.regexNot canonical), fun letter => ?_⟩
      ext word
      simp only [transitionConst, TransitionNode.language_const,
        mem_language_regexNot, Language.mem_compl_iff]
  | @conditional test thenTransition elseTransition canonical _ _ _ thenClosed
      elseClosed thenHypothesis elseHypothesis =>
      rw [transitionNot]
      split_ifs with marker
      · have allDenotes : Denotes alphabet (fun _ => ⊤) transitionAll :=
          ⟨.all, fun letter => by
            simp [transitionAll, transitionConst, Alphabet.language]⟩
        have emptyDenotes : Denotes alphabet (fun _ => 0) transitionEmpty :=
          ⟨.empty, fun letter => by
            simp [transitionEmpty, transitionConst, Alphabet.language]⟩
        refine (returns_transitionIf canonical.testNot allDenotes
          emptyDenotes).imp fun result denotes => denotes.congr fun letter => ?_
        rw [holdsUnder_testNot (alphabet.consistent letter) canonical, marker.1,
          marker.2, TransitionNode.language_conditional]
        ext word
        cases holdsUnder (alphabet.matched letter) test <;>
          simp [transitionAll, transitionEmpty, transitionConst]
      · refine (returns_conditional canonical thenHypothesis
          elseHypothesis).imp fun result denotes =>
            denotes.congr fun letter => ?_
        rw [TransitionNode.language_conditional]
        split_ifs <;> rfl
  | @union children _ _ _ childrenClosed hypothesis =>
      rw [transitionNot]
      refine (Returns.mapM hypothesis).bind fun complements related => ?_
      have complementsClosed := forall_mem_of_forall₂ related
        fun _ _ denotes => denotes.1
      refine (returns_transitionIntersect alphabet complementsClosed).imp
        fun result denotes => denotes.congr fun letter => ?_
      ext word
      rw [Language.mem_inter, List.forall_mem_map, Language.mem_compl_iff,
        TransitionNode.mem_language_union]
      rw [forall_mem_iff_of_forall₂ related fun child complement denotes =>
        show word ∉ child.language alphabet letter ↔ _ by
          rw [denotes.2 letter, Language.mem_compl_iff]]
      push Not
      rfl

/-! ## Append -/

omit [LinearOrder TransitionNode] in
theorem CanonicalRegex.suffixFactors
    {normalized : Regex}
    (canonical : CanonicalRegex normalized) :
    ∀ regex ∈ suffixFactors normalized, CanonicalRegex regex := by
  unfold Validator.suffixFactors
  split
  · cases canonical with
    | concat factorsCanonical => exact factorsCanonical
  · simpa using canonical

omit [LinearOrder TestNode] [LinearOrder Regex] [LinearOrder TransitionNode] in
theorem language_suffixFactors
    (alphabet : Alphabet Letter)
    (normalized : Regex) :
    ((suffixFactors normalized).map alphabet.language).prod =
      alphabet.language normalized := by
  unfold suffixFactors
  split
  · rw [Alphabet.language_concat]
  · simp

/-- The append constructor returns the product of closed transitions with the
suffix. -/
theorem ClosedTransition.returns_transitionAppend
    (alphabet : Alphabet Letter)
    {transition : TransitionNode}
    {suffix : List Regex}
    (closed : ClosedTransition transition)
    (canonical : ∀ regex ∈ suffix, CanonicalRegex regex) :
    Returns (transitionAppend transition suffix)
      (Denotes alphabet fun letter =>
        transition.language alphabet letter *
          (suffix.map alphabet.language).prod) := by
  induction bound : transition.size using Nat.strong_induction_on
    generalizing transition suffix with
  | _ bound hypothesis =>
      subst bound
      have normalizedLanguage : alphabet.language (regexConcat suffix) =
          (suffix.map alphabet.language).prod := language_regexConcat suffix
      have normalizedCanonical := CanonicalRegex.regexConcat canonical
      unfold transitionAppend
      dsimp only
      split_ifs with noSuffix isEpsilon isEmpty
      · rw [List.isEmpty_iff] at noSuffix
        exact Returns.some_iff.mpr ⟨closed, fun letter => by simp [noSuffix]⟩
      · refine Returns.some_iff.mpr ⟨closed, fun letter => ?_⟩
        rw [← normalizedLanguage, isEpsilon]
        simp [Alphabet.language]
      · refine Returns.some_iff.mpr ⟨.empty, fun letter => ?_⟩
        rw [← normalizedLanguage, isEmpty]
        simp [Alphabet.language, transitionEmpty, transitionConst]
      · have nextCanonical := normalizedCanonical.suffixFactors
        have nextLanguage := (language_suffixFactors alphabet
          (regexConcat suffix)).trans normalizedLanguage
        generalize suffixFactors (regexConcat suffix) = next at *
        simp only [← nextLanguage]
        cases closed with
        | const regexCanonical =>
            refine Returns.some_iff.mpr ⟨.const (.regexConcat ?_), fun letter => ?_⟩
            · exact List.forall_mem_cons.mpr ⟨regexCanonical, nextCanonical⟩
            · simp [transitionConst, language_regexConcat]
        | conditional testCanonical _ _ _ thenClosed elseClosed =>
            refine (returns_conditional testCanonical
              (hypothesis _ (by simp only [TransitionNode.size]; omega)
                thenClosed nextCanonical rfl)
              (hypothesis _ (by simp only [TransitionNode.size]; omega)
                elseClosed nextCanonical rfl)).imp
                fun result denotes => denotes.congr fun letter => ?_
            rw [TransitionNode.language_conditional]
            split_ifs <;> rfl
        | union _ _ _ childrenClosed =>
            refine returns_distributed
              (fun _ language => language * (next.map alphabet.language).prod)
              ?_ ?_
            · exact fun child member =>
                hypothesis _ (TransitionNode.size_lt_of_mem member)
                  (childrenClosed child member) nextCanonical rfl
            · intro letter word
              simp only [Language.mem_mul, TransitionNode.mem_language_union]
              constructor
              · rintro ⟨first, ⟨child, member, firstMem⟩, rest⟩
                exact ⟨child, member, first, firstMem, rest⟩
              · rintro ⟨child, member, first, firstMem, rest⟩
                exact ⟨first, ⟨child, member, firstMem⟩, rest⟩

end Order

end Validator
end Marsh
