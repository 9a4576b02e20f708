import Marsh.Validator.Compile
import Marsh.Validator.SymbolicSemantics

/-!
# Compilation preserves meaning

A compiled tail, read under the substitution of a matching head, is the source
tail under every valuation that makes the head the candidate.
-/

namespace Marsh
namespace Validator

open Library

/-! ## Substitutions and valuations -/

/-- The value a valuation gives to a variable of one component. -/
def Valuation.value
    (valuation : Valuation)
    (name : String) : Component -> ResolvedValue
  | .principal => .principal (valuation.principal name)
  | .action => .action (valuation.action name)
  | .resource => .resource (valuation.resource name)

/-- The substitution binds every declared variable to its value. -/
def VariableEnvironment.Agrees
    (environment : VariableEnvironment)
    (substitution : CandidateSubstitution)
    (valuation : Valuation) : Prop :=
  ∀ name component, environment.variableDomains.lookup name = some component ->
    substitution.get name = some (valuation.value name component)

theorem VariableEnvironment.lookup_of_resolve
    {environment : VariableEnvironment}
    {name : String}
    {component : Component}
    (resolved : environment.resolve name component = .ok ()) :
    environment.variableDomains.lookup name = some component := by
  unfold VariableEnvironment.resolve at resolved
  split at resolved
  · rename_i bound boundEq
    split_ifs at resolved with same
    rw [not_not] at same
    rw [boundEq, same]
  · exact absurd resolved (by simp)

/-- A compiled pattern is substituted by the value it denotes. -/
theorem subst_of_compilePattern
    {Value : Type}
    {component : Component}
    {project : ResolvedValue -> Option Value}
    (assignment : String -> Value)
    {environment : VariableEnvironment}
    {substitution : CandidateSubstitution}
    {valuation : Valuation}
    (agrees : environment.Agrees substitution valuation)
    (projects : ∀ name, project (valuation.value name component) =
      some (assignment name))
    {pattern compiled : ComponentPattern Value}
    (compiles : compilePattern component pattern environment = .ok compiled) :
    compiled.subst project substitution = some (pattern.denote assignment) := by
  cases pattern with
  | constant value =>
      obtain rfl := Except.ok.inj compiles
      rfl
  | «variable» name =>
      rw [compilePattern] at compiles
      split at compiles
      · exact absurd compiles (by simp)
      · exact absurd compiles (by simp)
      · rename_i resolved
        obtain rfl := Except.ok.inj compiles
        have bound := agrees name component
          (VariableEnvironment.lookup_of_resolve resolved)
        rw [ComponentPattern.subst, bound, Option.bind_some, projects]
        rfl

theorem bind_eq_ok
    {Failure First Second : Type}
    {program : Except Failure First}
    {next : First -> Except Failure Second}
    {result : Second}
    (succeeds : program >>= next = .ok result) :
    ∃ value, program = .ok value ∧ next value = .ok result := by
  cases program with
  | error failure => exact absurd succeeds (by simp [bind, Except.bind])
  | ok value => exact ⟨value, rfl, succeeds⟩

theorem matchesEvent_of_compileAtomPattern
    {environment : VariableEnvironment}
    {substitution : CandidateSubstitution}
    {valuation : Valuation}
    (agrees : environment.Agrees substitution valuation)
    {pattern compiled : AtomPattern}
    (compiles : compileAtomPattern pattern environment = .ok compiled)
    (event : Event) :
    compiled.matchesEvent substitution event =
      pattern.denote valuation event := by
  cases pattern with
  | principal pattern =>
      obtain ⟨resolved, resolvedEq, compiledEq⟩ := bind_eq_ok compiles
      obtain rfl := Except.ok.inj compiledEq
      rw [AtomPattern.matchesEvent, subst_of_compilePattern
        valuation.principal agrees (fun _ => rfl) resolvedEq]
      rfl
  | action pattern =>
      obtain ⟨resolved, resolvedEq, compiledEq⟩ := bind_eq_ok compiles
      obtain rfl := Except.ok.inj compiledEq
      rw [AtomPattern.matchesEvent, subst_of_compilePattern
        valuation.action agrees (fun _ => rfl) resolvedEq]
      rfl
  | resource pattern =>
      obtain ⟨resolved, resolvedEq, compiledEq⟩ := bind_eq_ok compiles
      obtain rfl := Except.ok.inj compiledEq
      rw [AtomPattern.matchesEvent, subst_of_compilePattern
        valuation.resource agrees (fun _ => rfl) resolvedEq]
      rfl

section Order

variable [LinearOrder TestNode] [LinearOrder Regex]

/-! ## Tests -/

/-- A compiled test is canonical and means what its source means. -/
def CompiledTest
    (environment : VariableEnvironment)
    (source : TestExpr)
    (compiled : TestNode) : Prop :=
  CanonicalTest compiled ∧
    ∀ substitution valuation, environment.Agrees substitution valuation ->
      ∀ event, (eventAlphabet substitution).accepts compiled event ↔
        source.accepts valuation event

omit [LinearOrder Regex] in
theorem forall₂_of_compileTests
    {environment : VariableEnvironment}
    {children : List TestExpr}
    (compilesTo : ∀ child ∈ children, ∀ compiled,
      compileTest environment child = .ok compiled ->
        CompiledTest environment child compiled)
    {compiled : List TestNode}
    (compiles : compileTests environment children = .ok compiled) :
    List.Forall₂ (CompiledTest environment) children compiled := by
  induction children generalizing compiled with
  | nil =>
      rw [compileTests] at compiles
      obtain rfl := Except.ok.inj compiles
      exact .nil
  | cons child children hypothesis =>
      obtain ⟨headCompilesTo, tailCompilesTo⟩ :=
        List.forall_mem_cons.mp compilesTo
      rw [compileTests] at compiles
      obtain ⟨head, headEq, rest⟩ := bind_eq_ok compiles
      obtain ⟨tail, tailEq, compiledEq⟩ := bind_eq_ok rest
      obtain rfl := Except.ok.inj compiledEq
      exact .cons (headCompilesTo head headEq)
        (hypothesis tailCompilesTo tailEq)

omit [LinearOrder Regex] in
theorem compiledTest_of_compileTest
    {environment : VariableEnvironment}
    {source : TestExpr}
    {compiled : TestNode}
    (compiles : compileTest environment source = .ok compiled) :
    CompiledTest environment source compiled := by
  induction source using BooleanTest.induction generalizing compiled with
  | tt =>
      rw [compileTest] at compiles
      obtain rfl := Except.ok.inj compiles
      exact ⟨.tt, by simp [Alphabet.accepts, TestExpr.accepts]⟩
  | ff =>
      rw [compileTest] at compiles
      obtain rfl := Except.ok.inj compiles
      exact ⟨.ff, by simp [Alphabet.accepts, TestExpr.accepts]⟩
  | atom atom =>
      rw [compileTest] at compiles
      obtain ⟨pattern, patternEq, compiledEq⟩ := bind_eq_ok compiles
      obtain rfl := Except.ok.inj compiledEq
      refine ⟨.atom _, fun substitution valuation agrees event => ?_⟩
      have matched := matchesEvent_of_compileAtomPattern agrees patternEq event
      simp [Alphabet.accepts, TestExpr.accepts, truthOf, eventAlphabet, matched]
  | and children hypothesis =>
      rw [compileTest] at compiles
      obtain ⟨tests, testsEq, compiledEq⟩ := bind_eq_ok compiles
      obtain rfl := Except.ok.inj compiledEq
      have related := forall₂_of_compileTests hypothesis testsEq
      have canonical := forall_mem_of_forall₂ related fun _ _ holds => holds.1
      refine ⟨.testAnd canonical, fun substitution valuation agrees event => ?_⟩
      rw [Alphabet.accepts, holdsUnder_testAnd
        ((eventAlphabet substitution).consistent event) canonical,
        List.all_eq_true, TestExpr.accepts, BooleanTest.eval_and,
        List.all_eq_true]
      exact forall_mem_iff_of_forall₂ related fun child test holds =>
        (holds.2 substitution valuation agrees event).symm
  | or children hypothesis =>
      rw [compileTest] at compiles
      obtain ⟨tests, testsEq, compiledEq⟩ := bind_eq_ok compiles
      obtain rfl := Except.ok.inj compiledEq
      have related := forall₂_of_compileTests hypothesis testsEq
      have canonical := forall_mem_of_forall₂ related fun _ _ holds => holds.1
      refine ⟨.testOr canonical, fun substitution valuation agrees event => ?_⟩
      rw [Alphabet.accepts, holdsUnder_testOr
        ((eventAlphabet substitution).consistent event) canonical,
        List.any_eq_true, TestExpr.accepts, BooleanTest.eval_or,
        List.any_eq_true]
      exact exists_mem_iff_of_forall₂ related fun child test holds =>
        (holds.2 substitution valuation agrees event).symm

/-! ## Regular expressions -/

/-- A compiled regex is canonical and denotes what its source denotes. -/
def CompiledRegex
    (environment : VariableEnvironment)
    (source : RegexExpr)
    (compiled : Regex) : Prop :=
  CanonicalRegex compiled ∧
    ∀ substitution valuation, environment.Agrees substitution valuation ->
      (eventAlphabet substitution).language compiled =
        source.language (TestExpr.accepts valuation)

theorem forall₂_of_compileRegexes
    {environment : VariableEnvironment}
    {children : List RegexExpr}
    (compilesTo : ∀ child ∈ children, ∀ compiled,
      compileRegex environment child = .ok compiled ->
        CompiledRegex environment child compiled)
    {compiled : List Regex}
    (compiles : compileRegexes environment children = .ok compiled) :
    List.Forall₂ (CompiledRegex environment) children compiled := by
  induction children generalizing compiled with
  | nil =>
      rw [compileRegexes] at compiles
      obtain rfl := Except.ok.inj compiles
      exact .nil
  | cons child children hypothesis =>
      obtain ⟨headCompilesTo, tailCompilesTo⟩ :=
        List.forall_mem_cons.mp compilesTo
      rw [compileRegexes] at compiles
      obtain ⟨head, headEq, rest⟩ := bind_eq_ok compiles
      obtain ⟨tail, tailEq, compiledEq⟩ := bind_eq_ok rest
      obtain rfl := Except.ok.inj compiledEq
      exact .cons (headCompilesTo head headEq)
        (hypothesis tailCompilesTo tailEq)

theorem compiledRegex_of_compileRegex
    {environment : VariableEnvironment}
    {source : RegexExpr}
    {compiled : Regex}
    (compiles : compileRegex environment source = .ok compiled) :
    CompiledRegex environment source compiled := by
  induction source using ExtendedRegex.induction generalizing compiled with
  | empty =>
      rw [compileRegex] at compiles
      obtain rfl := Except.ok.inj compiles
      exact ⟨.empty, fun _ _ _ => by simp [Alphabet.language]⟩
  | all =>
      rw [compileRegex] at compiles
      obtain rfl := Except.ok.inj compiles
      exact ⟨.all, fun _ _ _ => by simp [Alphabet.language]⟩
  | epsilon =>
      rw [compileRegex] at compiles
      obtain rfl := Except.ok.inj compiles
      exact ⟨.epsilon, fun _ _ _ => by simp [Alphabet.language]⟩
  | test test =>
      rw [compileRegex] at compiles
      obtain ⟨node, nodeEq, compiledEq⟩ := bind_eq_ok compiles
      obtain rfl := Except.ok.inj compiledEq
      have holds := compiledTest_of_compileTest nodeEq
      refine ⟨.regexTest holds.1, fun substitution valuation agrees => ?_⟩
      ext word
      rw [mem_language_regexTest, ExtendedRegex.language_test,
        Language.mem_single]
      exact exists_congr fun event => and_congr_right fun _ =>
        holds.2 substitution valuation agrees event
  | union children hypothesis =>
      rw [compileRegex] at compiles
      obtain ⟨regexes, regexesEq, compiledEq⟩ := bind_eq_ok compiles
      obtain rfl := Except.ok.inj compiledEq
      have related := forall₂_of_compileRegexes hypothesis regexesEq
      have canonical := forall_mem_of_forall₂ related fun _ _ holds => holds.1
      refine ⟨.regexUnion canonical, fun substitution valuation agrees => ?_⟩
      ext word
      rw [mem_language_regexUnion canonical, ExtendedRegex.mem_language_union]
      exact exists_mem_iff_of_forall₂ related fun child regex holds => by
        rw [holds.2 substitution valuation agrees]
  | concat factors hypothesis =>
      rw [compileRegex] at compiles
      obtain ⟨regexes, regexesEq, compiledEq⟩ := bind_eq_ok compiles
      obtain rfl := Except.ok.inj compiledEq
      have related := forall₂_of_compileRegexes hypothesis regexesEq
      have canonical := forall_mem_of_forall₂ related fun _ _ holds => holds.1
      refine ⟨.regexConcat canonical, fun substitution valuation agrees => ?_⟩
      rw [language_regexConcat, ExtendedRegex.language_concat]
      exact congrArg List.prod (map_eq_map_of_forall₂ related
        fun factor regex holds =>
          (holds.2 substitution valuation agrees).symm)
  | star inner hypothesis =>
      rw [compileRegex] at compiles
      obtain ⟨regex, regexEq, compiledEq⟩ := bind_eq_ok compiles
      obtain rfl := Except.ok.inj compiledEq
      have holds := hypothesis regexEq
      refine ⟨.regexStar holds.1, fun substitution valuation agrees => ?_⟩
      rw [language_regexStar, ExtendedRegex.language_star,
        holds.2 substitution valuation agrees]
  | intersect children hypothesis =>
      rw [compileRegex] at compiles
      obtain ⟨regexes, regexesEq, compiledEq⟩ := bind_eq_ok compiles
      obtain rfl := Except.ok.inj compiledEq
      have related := forall₂_of_compileRegexes hypothesis regexesEq
      have canonical := forall_mem_of_forall₂ related fun _ _ holds => holds.1
      refine ⟨.regexIntersect canonical, fun substitution valuation agrees => ?_⟩
      ext word
      rw [mem_language_regexIntersect canonical,
        ExtendedRegex.mem_language_intersect]
      exact forall_mem_iff_of_forall₂ related fun child regex holds => by
        rw [holds.2 substitution valuation agrees]
  | not inner hypothesis =>
      rw [compileRegex] at compiles
      obtain ⟨regex, regexEq, compiledEq⟩ := bind_eq_ok compiles
      obtain rfl := Except.ok.inj compiledEq
      have holds := hypothesis regexEq
      refine ⟨.regexNot holds.1, fun substitution valuation agrees => ?_⟩
      ext word
      rw [mem_language_regexNot, ExtendedRegex.language_not,
        Language.mem_compl_iff, holds.2 substitution valuation agrees]

end Order

/-! ## Heads -/

/-- The valuation that gives every variable the candidate's component. -/
def Event.valuation (event : Event) : Valuation where
  principal _ := event.principal
  action _ := event.action
  resource _ := event.resource

theorem eq_of_compileHeadPattern
    {Value : Type}
    {component : Component}
    {pattern compiled : ComponentPattern Value}
    {before after : VariableEnvironment}
    (compiles : compileHeadPattern component pattern before =
      .ok (compiled, after)) :
    compiled = pattern ∧
      ∀ name other, after.variableDomains.lookup name = some other ↔
        before.variableDomains.lookup name = some other ∨
          (pattern = .variable name ∧ other = component) := by
  cases pattern with
  | constant value =>
      obtain ⟨rfl, rfl⟩ := Prod.mk.inj (Except.ok.inj compiles)
      exact ⟨rfl, by simp⟩
  | «variable» declared =>
      rw [compileHeadPattern] at compiles
      split at compiles
      · exact absurd compiles (by simp)
      · rename_i environment bound
        obtain ⟨rfl, rfl⟩ := Prod.mk.inj (Except.ok.inj compiles)
        refine ⟨rfl, fun name other => ?_⟩
        unfold VariableEnvironment.bind at bound
        split at bound
        · rename_i existing existingEq
          split_ifs at bound with same
          rw [not_not] at same
          obtain rfl := Except.ok.inj bound
          subst same
          constructor
          · exact Or.inl
          · rintro (found | ⟨nameEq, rfl⟩)
            · exact found
            · obtain rfl := ComponentPattern.variable.inj nameEq
              exact existingEq
        · rename_i undeclared
          obtain rfl := Except.ok.inj bound
          rw [List.lookup_cons]
          by_cases same : name = declared
          · subst same
            simp [undeclared, eq_comm]
          · have different : (name == declared) = false := by simpa using same
            simp [different, Ne.symm same]

/-- A compiled head is its source, and declares each of its variables in the
coordinate it occurs in. -/
theorem lookup_of_compileHead
    {head compiled : Head}
    {environment : VariableEnvironment}
    (compiles : compileHead head = .ok (compiled, environment)) :
    compiled = head ∧
      ∀ name component,
        environment.variableDomains.lookup name = some component ↔
          (head.principal = .variable name ∧ component = .principal) ∨
          (head.action = .variable name ∧ component = .action) ∨
          (head.resource = .variable name ∧ component = .resource) := by
  rw [compileHead] at compiles
  obtain ⟨⟨principal, afterPrincipal⟩, principalEq, rest⟩ := bind_eq_ok compiles
  obtain ⟨⟨action, afterAction⟩, actionEq, rest⟩ := bind_eq_ok rest
  obtain ⟨⟨resource, afterResource⟩, resourceEq, rest⟩ := bind_eq_ok rest
  obtain ⟨rfl, rfl⟩ := Prod.mk.inj (Except.ok.inj rest)
  obtain ⟨rfl, principalLookup⟩ := eq_of_compileHeadPattern principalEq
  obtain ⟨rfl, actionLookup⟩ := eq_of_compileHeadPattern actionEq
  obtain ⟨rfl, resourceLookup⟩ := eq_of_compileHeadPattern resourceEq
  refine ⟨rfl, fun name component => ?_⟩
  rw [resourceLookup, actionLookup, principalLookup]
  simp [VariableEnvironment.empty, or_assoc]

section Match

variable {Value : Type} [DecidableEq Value]

/-- The bindings a matching head coordinate contributes. -/
def ComponentPattern.bindings
    (inject : Value -> ResolvedValue)
    (actual : Value) : ComponentPattern Value -> CandidateSubstitution
  | .constant _ => .empty
  | .variable name => .singleton name (inject actual)

theorem matchHeadPattern_eq
    (inject : Value -> ResolvedValue)
    (pattern : ComponentPattern Value)
    (actual : Value) :
    matchHeadPattern inject pattern actual =
      if pattern.denote (fun _ => actual) = actual then
        some (pattern.bindings inject actual)
      else none := by
  cases pattern with
  | constant value => rfl
  | «variable» name => simp [matchHeadPattern, ComponentPattern.denote,
      ComponentPattern.bindings]

omit [DecidableEq Value] in
theorem denote_const_of_denote
    {pattern : ComponentPattern Value}
    {assignment : String -> Value}
    {actual : Value}
    (denotes : pattern.denote assignment = actual) :
    pattern.denote (fun _ => actual) = actual := by
  cases pattern with
  | constant value => exact denotes
  | «variable» name => rfl

theorem get_bindings
    (inject : Value -> ResolvedValue)
    (actual : Value)
    (pattern : ComponentPattern Value)
    (name : String) :
    (pattern.bindings inject actual).get name =
      if pattern = .variable name then some (inject actual) else none := by
  cases pattern with
  | constant value => simp [ComponentPattern.bindings,
      CandidateSubstitution.get, CandidateSubstitution.empty]
  | «variable» declared =>
      rw [ComponentPattern.bindings, CandidateSubstitution.get,
        CandidateSubstitution.singleton, List.lookup_cons]
      by_cases same : declared = name
      · simp [same]
      · have different : (name == declared) = false := by
          simpa using Ne.symm same
        simp [different, same]

end Match

/-- Substitutions that share no variable merge. -/
theorem merge_of_disjoint
    (left right : CandidateSubstitution)
    (disjoint : ∀ binding ∈ right.values, left.get binding.1 = none) :
    left.merge right = some ⟨right.values ++ left.values⟩ := by
  rw [CandidateSubstitution.merge, if_neg]
  rw [List.any_eq_true]
  rintro ⟨binding, member, conflict⟩
  rw [disjoint binding member] at conflict
  exact absurd conflict (by simp)

theorem get_append
    (left right : CandidateSubstitution)
    (name : String) :
    CandidateSubstitution.get ⟨right.values ++ left.values⟩ name =
      (right.get name).or (left.get name) :=
  List.lookup_append

theorem values_bindings
    {Value : Type}
    (inject : Value -> ResolvedValue)
    (actual : Value)
    (pattern : ComponentPattern Value)
    {binding : String × ResolvedValue}
    (member : binding ∈ (pattern.bindings inject actual).values) :
    pattern = .variable binding.1 := by
  cases pattern with
  | constant value =>
      simp [ComponentPattern.bindings, CandidateSubstitution.empty] at member
  | «variable» name =>
      simp only [ComponentPattern.bindings, CandidateSubstitution.singleton,
        List.mem_singleton] at member
      rw [member]

/-- A compiled head matches exactly the candidates it stands for under some
valuation. -/
theorem matchCandidate_eq
    {head compiled : Head}
    {environment : VariableEnvironment}
    (compiles : compileHead head = .ok (compiled, environment))
    (candidate : Event) :
    head.matchCandidate candidate =
      if head.instantiate candidate.valuation = candidate then
        some ⟨(head.resource.bindings .resource candidate.resource).values ++
          ((head.action.bindings .action candidate.action).values ++
            (head.principal.bindings .principal candidate.principal).values)⟩
      else none := by
  obtain ⟨_, declared⟩ := lookup_of_compileHead compiles
  -- No variable occurs in two coordinates.
  have notAction : ∀ name, head.action = .variable name ->
      head.principal ≠ .variable name := by
    intro name isAction isPrincipal
    have first := (declared name .action).mpr (Or.inr (Or.inl ⟨isAction, rfl⟩))
    have second := (declared name .principal).mpr (Or.inl ⟨isPrincipal, rfl⟩)
    rw [first] at second
    exact absurd second (by decide)
  have notResource : ∀ name, head.resource = .variable name ->
      head.principal ≠ .variable name ∧ head.action ≠ .variable name := by
    intro name isResource
    have first := (declared name .resource).mpr
      (Or.inr (Or.inr ⟨isResource, rfl⟩))
    refine ⟨fun isPrincipal => ?_, fun isAction => ?_⟩
    · have second := (declared name .principal).mpr (Or.inl ⟨isPrincipal, rfl⟩)
      rw [first] at second
      exact absurd second (by decide)
    · have second := (declared name .action).mpr
        (Or.inr (Or.inl ⟨isAction, rfl⟩))
      rw [first] at second
      exact absurd second (by decide)
  have mergeAction := merge_of_disjoint
    (head.principal.bindings .principal candidate.principal)
    (head.action.bindings .action candidate.action)
    fun binding member => by
      rw [get_bindings, if_neg (notAction _ (values_bindings _ _ _ member))]
  have mergeResource := merge_of_disjoint
    ⟨(head.action.bindings .action candidate.action).values ++
      (head.principal.bindings .principal candidate.principal).values⟩
    (head.resource.bindings .resource candidate.resource)
    fun binding member => by
      obtain ⟨principalFree, actionFree⟩ :=
        notResource _ (values_bindings _ _ _ member)
      rw [get_append, get_bindings, get_bindings, if_neg principalFree,
        if_neg actionFree]
      rfl
  have instantiated : head.instantiate candidate.valuation = candidate ↔
      head.principal.denote (fun _ => candidate.principal) =
          candidate.principal ∧
        head.action.denote (fun _ => candidate.action) = candidate.action ∧
        head.resource.denote (fun _ => candidate.resource) =
          candidate.resource := by
    rw [Head.instantiate, Event.mk.injEq]
    rfl
  rw [Head.matchCandidate, matchHeadPattern_eq, matchHeadPattern_eq,
    matchHeadPattern_eq]
  simp only [instantiated]
  by_cases principalMatches :
      head.principal.denote (fun _ => candidate.principal) =
        candidate.principal
  · by_cases actionMatches :
        head.action.denote (fun _ => candidate.action) = candidate.action
    · by_cases resourceMatches :
          head.resource.denote (fun _ => candidate.resource) =
            candidate.resource
      · simp [principalMatches, actionMatches, resourceMatches, mergeAction,
          mergeResource]
      · simp [principalMatches, actionMatches, resourceMatches]
    · simp [principalMatches, actionMatches]
  · simp [principalMatches]

/-- The substitution of a matching head agrees with every valuation that makes
the head the candidate. -/
theorem agrees_of_matchCandidate
    {head compiled : Head}
    {environment : VariableEnvironment}
    (compiles : compileHead head = .ok (compiled, environment))
    {candidate : Event}
    {substitution : CandidateSubstitution}
    (matched : head.matchCandidate candidate = some substitution)
    {valuation : Valuation}
    (instantiates : head.instantiate valuation = candidate) :
    environment.Agrees substitution valuation := by
  obtain ⟨_, declared⟩ := lookup_of_compileHead compiles
  rw [matchCandidate_eq compiles] at matched
  split_ifs at matched
  obtain rfl := Option.some.inj matched
  have principalEq := congrArg Event.principal instantiates
  have actionEq := congrArg Event.action instantiates
  have resourceEq := congrArg Event.resource instantiates
  intro name component found
  have unique := fun other otherFound =>
    Option.some.inj (found.symm.trans ((declared name other).mpr otherFound))
  rw [get_append, get_append, get_bindings, get_bindings, get_bindings]
  rcases (declared name component).mp found with
    ⟨isPrincipal, rfl⟩ | ⟨isAction, rfl⟩ | ⟨isResource, rfl⟩
  · have actionFree : head.action ≠ .variable name := fun isAction =>
      absurd (unique .action (Or.inr (Or.inl ⟨isAction, rfl⟩))) (by decide)
    have resourceFree : head.resource ≠ .variable name := fun isResource =>
      absurd (unique .resource (Or.inr (Or.inr ⟨isResource, rfl⟩)))
        (by decide)
    rw [if_neg resourceFree, if_neg actionFree, if_pos isPrincipal,
      ← principalEq]
    simp [Head.instantiate, isPrincipal, ComponentPattern.denote,
      Valuation.value]
  · have resourceFree : head.resource ≠ .variable name := fun isResource =>
      absurd (unique .resource (Or.inr (Or.inr ⟨isResource, rfl⟩)))
        (by decide)
    rw [if_neg resourceFree, if_pos isAction, ← actionEq]
    simp [Head.instantiate, isAction, ComponentPattern.denote, Valuation.value]
  · rw [if_pos isResource, ← resourceEq]
    simp [Head.instantiate, isResource, ComponentPattern.denote,
      Valuation.value]

theorem instantiate_valuation_of_instantiate
    {head : Head}
    {valuation : Valuation}
    {candidate : Event}
    (instantiates : head.instantiate valuation = candidate) :
    head.instantiate candidate.valuation = candidate := by
  obtain rfl := instantiates
  rw [Head.instantiate, Head.instantiate, Event.mk.injEq]
  exact ⟨denote_const_of_denote rfl, denote_const_of_denote rfl,
    denote_const_of_denote rfl⟩

end Validator
end Marsh
