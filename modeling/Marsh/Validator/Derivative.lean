import Marsh.Validator.Symbolic
import Marsh.Validator.TransitionSemantics

/-!
# Derivatives denote residuals

The derivative of a canonical regex is a closed transition whose successor
after an event denotes the residual of the regex by that event.  Computed here
without the cache; the cached matcher is compared with it afterwards.
-/

namespace Marsh
namespace Validator

open Library

/-! ## Events as letters -/

/-- Events as letters, under one candidate substitution. -/
def eventAlphabet (substitution : CandidateSubstitution) : Alphabet Event where
  matched event pattern := pattern.matchesEvent substitution event
  consistent := by
    intro event left right distinct leftMatches
    -- Both patterns are constants of one coordinate of the event.
    unfold distinctConstantPatterns at distinct
    split at distinct <;>
      simp_all [AtomPattern.matchesEvent, ComponentPattern.subst]
    all_goals exact fun equal => distinct equal.symm

theorem evalTest_eq
    (test : TestNode)
    (event : Event)
    (substitution : CandidateSubstitution) :
    evalTest test event substitution =
      holdsUnder ((eventAlphabet substitution).matched event) test :=
  rfl

section Order

variable [LinearOrder TestNode] [LinearOrder Regex]

theorem evaluateAll_eq_map
    (substitution : CandidateSubstitution)
    (event : Event)
    (children : List TransitionNode) :
    evaluateAll substitution event children =
      children.map (evaluate substitution event) := by
  induction children with
  | nil => rfl
  | cons child children hypothesis =>
      rw [evaluateAll, hypothesis, List.map_cons]

variable [LinearOrder TransitionNode]

/-- Interpreting a closed transition selects a canonical regex of its words. -/
theorem ClosedTransition.evaluate_correct
    (substitution : CandidateSubstitution)
    (event : Event)
    {transition : TransitionNode}
    (closed : ClosedTransition transition) :
    CanonicalRegex (evaluate substitution event transition) ∧
      (eventAlphabet substitution).language
          (evaluate substitution event transition) =
        transition.language (eventAlphabet substitution) event := by
  induction closed with
  | const canonical =>
      rw [evaluate, TransitionNode.language_const]
      exact ⟨canonical, rfl⟩
  | conditional _ _ _ _ _ _ thenHypothesis elseHypothesis =>
      rw [evaluate, TransitionNode.language_conditional, evalTest_eq]
      split_ifs
      · exact thenHypothesis
      · exact elseHypothesis
  | @union children _ _ _ _ hypothesis =>
      rw [evaluate, evaluateAll_eq_map]
      have regexesCanonical : ∀ regex ∈
          children.map (evaluate substitution event),
            CanonicalRegex regex :=
        List.forall_mem_map.mpr fun child member => (hypothesis child member).1
      refine ⟨.regexUnion regexesCanonical, ?_⟩
      ext word
      rw [mem_language_regexUnion regexesCanonical,
        TransitionNode.mem_language_union]
      constructor
      · rintro ⟨_, regexMem, included⟩
        obtain ⟨child, member, rfl⟩ := List.mem_map.mp regexMem
        exact ⟨child, member, (hypothesis child member).2 ▸ included⟩
      · rintro ⟨child, member, included⟩
        exact ⟨_, List.mem_map_of_mem member,
          (hypothesis child member).2.symm ▸ included⟩

/-! ## Derivatives without a cache -/

/-- A function from regexes to transitions. -/
abbrev Derivation := Regex -> Option TransitionNode

/-- A function from factors to the alternatives of their concatenation. -/
abbrev Alternatives := List Regex -> Option (List TransitionNode)

-- A call is written with `apply`, which leaves no mark of where it stands in the
-- fixpoint that is taken.
mutual

/-- The derivative the matcher computes, without its cache. -/
def symbolicDerivative (regex : Regex) : Option TransitionNode :=
  match regex with
  | .empty => some transitionEmpty
  | .epsilon => some transitionEmpty
  | .all => some transitionAll
  | .test test => transitionIf test transitionEpsilon transitionEmpty
  | .union children => do
      let transitions ← children.mapM (by apply symbolicDerivative)
      pure (transitionUnion transitions)
  | .intersect children => do
      let transitions ← children.mapM (by apply symbolicDerivative)
      transitionIntersect transitions
  | .not inner => do
      let transition ← (by apply symbolicDerivative : Derivation) inner
      transitionNot transition
  | .concat factors => do
      let alternatives ←
        (by apply symbolicAlternatives : Alternatives) factors
      pure (transitionUnion alternatives)
  | .star inner => do
      let transition ← (by apply symbolicDerivative : Derivation) inner
      transitionAppend transition [regex]
partial_fixpoint

/-- The alternatives of a concatenation, without the cache. -/
def symbolicAlternatives
    (remaining : List Regex) : Option (List TransitionNode) :=
  match remaining with
  | [] => some []
  | factor :: suffix => do
      let transition ← (by apply symbolicDerivative : Derivation) factor
      let alternative ← transitionAppend transition suffix
      if factor.nullable then do
        let alternatives ←
          (by apply symbolicAlternatives : Alternatives) suffix
        pure (alternative :: alternatives)
      else pure [alternative]
partial_fixpoint

end

variable {Letter : Type}

/-- A closed transition to the residuals of a regex. -/
def IsDerivative
    (alphabet : Alphabet Letter)
    (regex : Regex) : TransitionNode -> Prop :=
  Denotes alphabet fun letter => (alphabet.language regex).residual letter

/-- The alternatives of a concatenation cover its residuals. -/
theorem returns_symbolicAlternatives
    (alphabet : Alphabet Letter)
    {factors : List Regex}
    (canonical : ∀ factor ∈ factors, CanonicalRegex factor)
    (derives : ∀ factor ∈ factors,
      Returns (symbolicDerivative factor) (IsDerivative alphabet factor)) :
    Returns (symbolicAlternatives factors) fun alternatives =>
      (∀ alternative ∈ alternatives, ClosedTransition alternative) ∧
        ∀ letter word,
          (∃ alternative ∈ alternatives,
            word ∈ alternative.language alphabet letter) ↔
              word ∈ ((factors.map alphabet.language).prod).residual letter := by
  induction factors with
  | nil =>
      rw [symbolicAlternatives]
      exact Returns.some_iff.mpr (by simp)
  | cons factor suffix hypothesis =>
      obtain ⟨_, suffixCanonical⟩ := List.forall_mem_cons.mp canonical
      obtain ⟨factorDerives, suffixDerives⟩ := List.forall_mem_cons.mp derives
      rw [symbolicAlternatives]
      refine factorDerives.bind fun transition transitionDenotes => ?_
      refine (transitionDenotes.1.returns_transitionAppend alphabet
        suffixCanonical).bind fun alternative alternativeDenotes => ?_
      rw [List.map_cons, List.prod_cons]
      have alternativeMeaning : ∀ letter,
          alternative.language alphabet letter =
            (alphabet.language factor).residual letter *
              (suffix.map alphabet.language).prod := by
        intro letter
        rw [alternativeDenotes.2 letter]
        exact congrArg (· * _) (transitionDenotes.2 letter)
      split_ifs with nullable
      · refine (hypothesis suffixCanonical suffixDerives).bind
          fun alternatives holds => ?_
        refine Returns.some_iff.mpr ⟨?_, fun letter word => ?_⟩
        · exact List.forall_mem_cons.mpr ⟨alternativeDenotes.1, holds.1⟩
        · rw [List.exists_mem_cons_iff, holds.2, alternativeMeaning,
            Language.residual_mul_of_nil_mem letter
              ((alphabet.nullable_iff factor).mp nullable), Language.mem_add]
      · refine Returns.some_iff.mpr ⟨by simp [alternativeDenotes.1], ?_⟩
        intro letter word
        rw [Language.residual_mul_of_nil_notMem letter
          (mt (alphabet.nullable_iff factor).mpr nullable),
          ← alternativeMeaning]
        simp

/-- Every canonical regex has a derivative: a closed transition that leads from
each letter to the residual of the regex. -/
theorem CanonicalRegex.returns_symbolicDerivative
    (alphabet : Alphabet Letter)
    {regex : Regex}
    (canonical : CanonicalRegex regex) :
    Returns (symbolicDerivative regex) (IsDerivative alphabet regex) := by
  have emptyDenotes : Denotes alphabet (fun _ => 0) transitionEmpty :=
    ⟨.empty, fun letter => by
      simp [transitionEmpty, transitionConst, Alphabet.language]⟩
  induction canonical with
  | empty =>
      rw [symbolicDerivative]
      exact Returns.some_iff.mpr (emptyDenotes.congr fun letter => by
        simp [Alphabet.language])
  | all =>
      rw [symbolicDerivative]
      refine Returns.some_iff.mpr ⟨.all, fun letter => ?_⟩
      simp [transitionAll, transitionConst, Alphabet.language]
  | epsilon =>
      rw [symbolicDerivative]
      exact Returns.some_iff.mpr (emptyDenotes.congr fun letter => by
        simp [Alphabet.language])
  | @test test testCanonical =>
      have epsilonDenotes : Denotes alphabet (fun _ => 1) transitionEpsilon :=
        ⟨.epsilon, fun letter => by
          simp [transitionEpsilon, transitionConst, Alphabet.language]⟩
      rw [symbolicDerivative]
      refine (returns_transitionIf testCanonical epsilonDenotes
        emptyDenotes).imp fun transition denotes =>
          denotes.congr fun letter => ?_
      ext word
      rw [Language.mem_residual, Alphabet.mem_language_test]
      cases accepted : holdsUnder (alphabet.matched letter) test with
      | true => simp [Alphabet.accepts, accepted]
      | false =>
          simp only [Bool.false_eq_true, if_false, Language.notMem_zero,
            false_iff, not_exists, not_and]
          rintro other same holds
          rw [(List.cons_eq_cons.mp same).1.symm, Alphabet.accepts,
            accepted] at holds
          exact absurd holds (by decide)
  | @union children _ _ childrenCanonical hypothesis =>
      rw [symbolicDerivative]
      refine (Returns.mapM hypothesis).bind fun transitions related => ?_
      have closed := forall_mem_of_forall₂ related fun _ _ denotes => denotes.1
      refine Returns.some_iff.mpr ⟨.transitionUnion closed, fun letter => ?_⟩
      ext word
      rw [mem_language_transitionUnion closed, Language.mem_residual,
        Alphabet.mem_language_union]
      exact exists_mem_iff_of_forall₂ related fun child transition denotes => by
        rw [denotes.2 letter, Language.mem_residual]
  | @intersect children _ _ childrenCanonical hypothesis =>
      rw [symbolicDerivative]
      refine (Returns.mapM hypothesis).bind fun transitions related => ?_
      have closed := forall_mem_of_forall₂ related fun _ _ denotes => denotes.1
      refine (returns_transitionIntersect alphabet closed).imp
        fun transition denotes => denotes.congr fun letter => ?_
      ext word
      rw [Language.mem_inter, List.forall_mem_map, Language.mem_residual,
        Alphabet.mem_language_intersect]
      exact forall_mem_iff_of_forall₂ related fun child transition denotes => by
        rw [denotes.2 letter, Language.mem_residual]
  | not _ hypothesis =>
      rw [symbolicDerivative]
      refine hypothesis.bind fun transition denotes => ?_
      refine (denotes.1.returns_transitionNot alphabet).imp
        fun result resultDenotes => resultDenotes.congr fun letter => ?_
      ext word
      rw [denotes.2 letter]
      simp
  | concat factorsCanonical hypothesis =>
      rw [symbolicDerivative]
      refine (returns_symbolicAlternatives alphabet factorsCanonical
        hypothesis).bind fun alternatives holds => ?_
      refine Returns.some_iff.mpr ⟨.transitionUnion holds.1, fun letter => ?_⟩
      ext word
      rw [mem_language_transitionUnion holds.1, holds.2,
        Alphabet.language_concat]
  | @star inner innerCanonical hypothesis =>
      rw [symbolicDerivative]
      refine hypothesis.bind fun transition denotes => ?_
      refine (denotes.1.returns_transitionAppend alphabet
        (by simpa using innerCanonical.star)).imp
        fun result resultDenotes => resultDenotes.congr fun letter => ?_
      rw [denotes.2 letter]
      simp [Alphabet.language, Language.residual_kstar]

end Order

end Validator
end Marsh
