import Marsh.Validator.FastPaths

/-!
# What the constructors build

Tests, regexes and transitions built by any sequence of constructor calls are
canonical; every transition constructor returns on them; and the derivative of
a regex so built is a closed transition to its left quotients.
-/

namespace Marsh
namespace Validator

open Library

section Order

variable [LinearOrder TestNode] [LinearOrder Regex]

/-- Tests built by the test constructors. -/
inductive ConstructedTest : TestNode -> Prop
  | tt : ConstructedTest .tt
  | ff : ConstructedTest .ff
  | atom (value : TestAtom) : ConstructedTest (.atom value)
  | and {children : List TestNode}
      (constructed : ∀ child ∈ children, ConstructedTest child) :
      ConstructedTest (testAnd children)
  | or {children : List TestNode}
      (constructed : ∀ child ∈ children, ConstructedTest child) :
      ConstructedTest (testOr children)
  | not {inner : TestNode}
      (constructed : ConstructedTest inner) :
      ConstructedTest (testNot inner)

/-- Regexes built by the regex constructors. -/
inductive ConstructedRegex : Regex -> Prop
  | empty : ConstructedRegex .empty
  | all : ConstructedRegex .all
  | epsilon : ConstructedRegex .epsilon
  | test {test : TestNode}
      (constructed : ConstructedTest test) :
      ConstructedRegex (regexTest test)
  | union {children : List Regex}
      (constructed : ∀ child ∈ children, ConstructedRegex child) :
      ConstructedRegex (regexUnion children)
  | intersect {children : List Regex}
      (constructed : ∀ child ∈ children, ConstructedRegex child) :
      ConstructedRegex (regexIntersect children)
  | concat {children : List Regex}
      (constructed : ∀ child ∈ children, ConstructedRegex child) :
      ConstructedRegex (regexConcat children)
  | star {inner : Regex}
      (constructed : ConstructedRegex inner) :
      ConstructedRegex (regexStar inner)
  | not {inner : Regex}
      (constructed : ConstructedRegex inner) :
      ConstructedRegex (regexNot inner)

omit [LinearOrder Regex] in
theorem ConstructedTest.canonical
    {test : TestNode}
    (constructed : ConstructedTest test) : CanonicalTest test := by
  induction constructed with
  | tt => exact .tt
  | ff => exact .ff
  | atom value => exact .atom value
  | and _ hypothesis => exact .testAnd hypothesis
  | or _ hypothesis => exact .testOr hypothesis
  | not _ hypothesis => exact hypothesis.testNot

theorem ConstructedRegex.canonical
    {regex : Regex}
    (constructed : ConstructedRegex regex) : CanonicalRegex regex := by
  induction constructed with
  | empty => exact .empty
  | all => exact .all
  | epsilon => exact .epsilon
  | test constructed => exact .regexTest constructed.canonical
  | union _ hypothesis => exact .regexUnion hypothesis
  | intersect _ hypothesis => exact .regexIntersect hypothesis
  | concat _ hypothesis => exact .regexConcat hypothesis
  | star _ hypothesis => exact .regexStar hypothesis
  | not _ hypothesis => exact .regexNot hypothesis

variable [LinearOrder TransitionNode]

/-- Transitions built by the transition constructors, each called on what they
built before. -/
inductive ConstructedTransition : TransitionNode -> Prop
  | const {regex : Regex}
      (constructed : ConstructedRegex regex) :
      ConstructedTransition (transitionConst regex)
  | conditional
      {test : TestNode}
      {thenTransition elseTransition result : TransitionNode}
      (constructed : ConstructedTest test)
      (thenConstructed : ConstructedTransition thenTransition)
      (elseConstructed : ConstructedTransition elseTransition)
      (returned : transitionIf test thenTransition elseTransition =
        some result) : ConstructedTransition result
  | union {children : List TransitionNode}
      (constructed : ∀ child ∈ children, ConstructedTransition child) :
      ConstructedTransition (transitionUnion children)
  | intersect {children : List TransitionNode} {result : TransitionNode}
      (constructed : ∀ child ∈ children, ConstructedTransition child)
      (returned : transitionIntersect children = some result) :
      ConstructedTransition result
  | not {inner result : TransitionNode}
      (constructed : ConstructedTransition inner)
      (returned : transitionNot inner = some result) :
      ConstructedTransition result
  | append
      {transition result : TransitionNode}
      {suffix : List Regex}
      (constructed : ConstructedTransition transition)
      (suffixConstructed : ∀ regex ∈ suffix, ConstructedRegex regex)
      (returned : transitionAppend transition suffix = some result) :
      ConstructedTransition result

theorem ClosedTransition.denotes
    {Letter : Type}
    (alphabet : Alphabet Letter)
    {transition : TransitionNode}
    (closed : ClosedTransition transition) :
    Denotes alphabet (transition.language alphabet) transition :=
  ⟨closed, fun _ => rfl⟩

/-- Every constructed transition is made of constants, conditionals and unions.
-/
theorem ConstructedTransition.closed
    {transition : TransitionNode}
    (constructed : ConstructedTransition transition) :
    ClosedTransition transition := by
  induction constructed with
  | const constructed => exact .const constructed.canonical
  | conditional constructed _ _ returned thenClosed elseClosed =>
      exact ((returns_transitionIf constructed.canonical
        (thenClosed.denotes (eventAlphabet .empty))
        (elseClosed.denotes (eventAlphabet .empty))).of_returned returned).1
  | union _ hypothesis => exact .transitionUnion hypothesis
  | intersect _ returned hypothesis =>
      exact ((returns_transitionIntersect (eventAlphabet .empty)
        hypothesis).of_returned returned).1
  | not _ returned hypothesis =>
      exact ((hypothesis.returns_transitionNot
        (eventAlphabet .empty)).of_returned returned).1
  | append _ suffixConstructed returned hypothesis =>
      exact ((hypothesis.returns_transitionAppend (eventAlphabet .empty)
        fun regex member => (suffixConstructed regex
          member).canonical).of_returned returned).1

/-- Every transition constructor returns on constructed operands. -/
structure TransitionConstructorsReturn : Prop where
  conditional : ∀ test thenTransition elseTransition, ConstructedTest test ->
    ConstructedTransition thenTransition ->
    ConstructedTransition elseTransition ->
    ∃ result, transitionIf test thenTransition elseTransition = some result
  intersect : ∀ children,
    (∀ child ∈ children, ConstructedTransition child) ->
    ∃ result, transitionIntersect children = some result
  not : ∀ inner, ConstructedTransition inner ->
    ∃ result, transitionNot inner = some result
  append : ∀ transition suffix, ConstructedTransition transition ->
    (∀ regex ∈ suffix, ConstructedRegex regex) ->
    ∃ result, transitionAppend transition suffix = some result

theorem transitionConstructorsReturn : TransitionConstructorsReturn where
  conditional test thenTransition elseTransition constructed thenConstructed
      elseConstructed := by
    obtain ⟨result, returned, _⟩ := returns_transitionIf constructed.canonical
      (thenConstructed.closed.denotes (eventAlphabet .empty))
      (elseConstructed.closed.denotes (eventAlphabet .empty))
    exact ⟨result, returned⟩
  intersect children constructed := by
    obtain ⟨result, returned, _⟩ := returns_transitionIntersect
      (eventAlphabet .empty) fun child member =>
        (constructed child member).closed
    exact ⟨result, returned⟩
  not inner constructed := by
    obtain ⟨result, returned, _⟩ :=
      constructed.closed.returns_transitionNot (eventAlphabet .empty)
    exact ⟨result, returned⟩
  append transition suffix constructed suffixConstructed := by
    obtain ⟨result, returned, _⟩ :=
      constructed.closed.returns_transitionAppend (eventAlphabet .empty)
        fun regex member => (suffixConstructed regex member).canonical
    exact ⟨result, returned⟩

/-- The derivative of a constructed regex, whatever its rule's cache holds, is a
closed transition whose evaluation denotes the left quotient by each event; and
every transition constructor returns. -/
theorem derivative_closed_of_constructed
    {root : Regex}
    (rootConstructed : ConstructedRegex root)
    {cache : SymbolicDerivativeCache}
    (warmed : Warmed root cache)
    {regex : Regex}
    (constructed : ConstructedRegex regex) :
    TransitionConstructorsReturn ∧
      ∃ transition next, derivative regex cache = some (transition, next) ∧
        ClosedTransition transition ∧
        ∀ (substitution : CandidateSubstitution) (event : Event),
          (eventAlphabet substitution).language
              (evaluate substitution event transition) =
            ((eventAlphabet substitution).language regex).residual event := by
  refine ⟨transitionConstructorsReturn, ?_⟩
  have canonical := constructed.canonical
  obtain ⟨⟨transition, next⟩, returned, derived, _⟩ :=
    canonical.derivesSoundly cache (warmed.sound rootConstructed.canonical)
  have closed := closed_of_symbolicDerivative canonical derived
  refine ⟨transition, next, returned, closed, ?_⟩
  intro substitution event
  obtain ⟨other, otherDerived, _, residual⟩ :=
    canonical.returns_symbolicDerivative (eventAlphabet substitution)
  have same : other = transition :=
    Option.some.inj (otherDerived.symm.trans derived)
  rw [(closed.evaluate_correct substitution event).2, ← same, residual event]

/-! ## A regex of several constructors -/

/-- The test that an event is an edit. -/
def isEdit : TestNode := .atom ⟨.eq, .action (.constant .edit)⟩

/-- The test that an event is the owner's. -/
def byOwner : TestNode := .atom ⟨.eq, .principal (.variable "owner")⟩

omit [LinearOrder TransitionNode] in
/-- The histories that are an edit of the owner's or end with an edit; and the
histories that are not one event by somebody else. -/
def ownerEditsParts : List Regex :=
  [regexUnion [regexTest (testAnd [isEdit, byOwner]),
      regexConcat [.all, regexTest isEdit]],
    regexNot (regexTest (testNot byOwner))]

omit [LinearOrder TransitionNode] in
theorem ownerEditsParts_constructed :
    ∀ part ∈ ownerEditsParts, ConstructedRegex part := by
  have edit : ConstructedTest isEdit := .atom _
  have owner : ConstructedTest byOwner := .atom _
  have both : ConstructedTest (testAnd [isEdit, byOwner]) := .and (by
    rintro child (_ | ⟨_, _ | ⟨_, absent⟩⟩)
    · exact edit
    · exact owner
    · cases absent)
  have ending : ConstructedRegex (regexConcat [.all, regexTest isEdit]) :=
    .concat (by
      rintro child (_ | ⟨_, _ | ⟨_, absent⟩⟩)
      · exact .all
      · exact .test edit
      · cases absent)
  rintro part (_ | ⟨_, _ | ⟨_, absent⟩⟩)
  · refine .union ?_
    rintro child (_ | ⟨_, _ | ⟨_, absent⟩⟩)
    · exact .test both
    · exact ending
    · cases absent
  · exact .not (.test owner.not)
  · cases absent

end Order

/-- The derivative of an intersection of a union and a complement, from an empty
cache; as the left quotient, it evaluates to nothing after an event that is not
the owner's. -/
theorem derivative_closed_ownerEdits :
    letI := someOrder TestNode
    letI := someOrder Regex
    letI := someOrder TransitionNode
    ∃ transition next,
      derivative (regexIntersect ownerEditsParts) .new =
          some (transition, next) ∧
        ClosedTransition transition ∧
          [] ∉ (eventAlphabet (.singleton "owner" (.principal ⟨"bob"⟩))).language
            (evaluate (.singleton "owner" (.principal ⟨"bob"⟩))
              ⟨⟨"alice"⟩, .edit, ⟨["a"]⟩⟩ transition) := by
  let _ := someOrder TestNode
  let _ := someOrder Regex
  let _ := someOrder TransitionNode
  have constructed : ConstructedRegex (regexIntersect ownerEditsParts) :=
    .intersect ownerEditsParts_constructed
  obtain ⟨_, transition, next, returned, closed, residual⟩ :=
    derivative_closed_of_constructed constructed .new constructed
  refine ⟨transition, next, returned, closed, ?_⟩
  rw [residual]
  intro (accepted : [_] ∈ (eventAlphabet _).language _)
  have outside := (mem_language_regexIntersect fun part member =>
    (ownerEditsParts_constructed part member).canonical).mp accepted
      (regexNot (regexTest (testNot byOwner))) (by simp [ownerEditsParts])
  rw [mem_language_regexNot, mem_language_regexTest] at outside
  exact outside ⟨_, rfl, rfl⟩

end Validator
end Marsh
