import Marsh.Policy.Kernel
import Marsh.Validator.Correctness

/-!
# Meaning of a policy table

A table whose tails mention only the head's variables compiles, and deciding a
probe renders the first rule that does not admit it in the denotational sense.
-/

namespace Marsh
namespace Policy

open Library Validator

section Order

/-! ## Tables that compile -/

/-- The environment declared by the head of a `forbid` rule. -/
def headEnvironment : VariableEnvironment :=
  ⟨[(resourceVar, .resource), (principalVar, .principal)]⟩

variable [LinearOrder TestNode]

/-- A predicate over the head's principal and resource. -/
def TestCompiles (test : TestExpr) : Prop :=
  ∃ node, compileTest headEnvironment test = .ok node

theorem testCompiles_principalIs (comparison : Comparison) :
    TestCompiles (principalIs comparison) :=
  ⟨.atom ⟨comparison, .principal (.variable principalVar)⟩, by
    rw [principalIs, compileTest]; rfl⟩

theorem testCompiles_resourceIs (comparison : Comparison) :
    TestCompiles (resourceIs comparison) :=
  ⟨.atom ⟨comparison, .resource (.variable resourceVar)⟩, by
    rw [resourceIs, compileTest]; rfl⟩

theorem testCompiles_actionIs (action : Action) (comparison : Comparison) :
    TestCompiles (actionIs action comparison) :=
  ⟨.atom ⟨comparison, .action (.constant action)⟩, by
    rw [actionIs, compileTest]; rfl⟩

theorem exists_compileTests_eq_ok
    {children : List TestExpr}
    (compile : ∀ child ∈ children, TestCompiles child) :
    ∃ nodes, compileTests headEnvironment children = .ok nodes := by
  induction children with
  | nil => exact ⟨[], by rw [compileTests]⟩
  | cons child children hypothesis =>
      obtain ⟨childCompiles, restCompile⟩ := List.forall_mem_cons.mp compile
      obtain ⟨node, nodeEq⟩ := childCompiles
      obtain ⟨nodes, nodesEq⟩ := hypothesis restCompile
      refine ⟨node :: nodes, ?_⟩
      rw [compileTests, nodeEq, nodesEq]
      rfl

theorem testCompiles_and
    {children : List TestExpr}
    (compile : ∀ child ∈ children, TestCompiles child) :
    TestCompiles (.and children) := by
  obtain ⟨nodes, nodesEq⟩ := exists_compileTests_eq_ok compile
  refine ⟨testAnd nodes, ?_⟩
  rw [compileTest, nodesEq]
  rfl

theorem testCompiles_or
    {children : List TestExpr}
    (compile : ∀ child ∈ children, TestCompiles child) :
    TestCompiles (.or children) := by
  obtain ⟨nodes, nodesEq⟩ := exists_compileTests_eq_ok compile
  refine ⟨testOr nodes, ?_⟩
  rw [compileTest, nodesEq]
  rfl

variable [LinearOrder Regex]

/-- A tail over the head's principal and resource. -/
def TailCompiles (tail : RegexExpr) : Prop :=
  ∃ regex, compileRegex headEnvironment tail = .ok regex

theorem exists_compileRegexes_eq_ok
    {children : List RegexExpr}
    (compile : ∀ child ∈ children, TailCompiles child) :
    ∃ regexes, compileRegexes headEnvironment children = .ok regexes := by
  induction children with
  | nil => exact ⟨[], by rw [compileRegexes]⟩
  | cons child children hypothesis =>
      obtain ⟨childCompiles, restCompile⟩ := List.forall_mem_cons.mp compile
      obtain ⟨regex, regexEq⟩ := childCompiles
      obtain ⟨regexes, regexesEq⟩ := hypothesis restCompile
      refine ⟨regex :: regexes, ?_⟩
      rw [compileRegexes, regexEq, regexesEq]
      rfl

theorem tailCompiles_union
    {children : List RegexExpr}
    (compile : ∀ child ∈ children, TailCompiles child) :
    TailCompiles (.union children) := by
  obtain ⟨regexes, regexesEq⟩ := exists_compileRegexes_eq_ok compile
  refine ⟨regexUnion regexes, ?_⟩
  rw [compileRegex, regexesEq]
  rfl

theorem tailCompiles_concat
    {factors : List RegexExpr}
    (compile : ∀ factor ∈ factors, TailCompiles factor) :
    TailCompiles (.concat factors) := by
  obtain ⟨regexes, regexesEq⟩ := exists_compileRegexes_eq_ok compile
  refine ⟨regexConcat regexes, ?_⟩
  rw [compileRegex, regexesEq]
  rfl

theorem tailCompiles_test
    {test : TestExpr}
    (compiles : TestCompiles test) :
    TailCompiles (.test test) := by
  obtain ⟨node, nodeEq⟩ := compiles
  refine ⟨regexTest node, ?_⟩
  rw [compileRegex, nodeEq]
  rfl

theorem tailCompiles_neverStateChange
    {stable : TestExpr}
    (compiles : TestCompiles stable) :
    TailCompiles (neverStateChange stable) := by
  obtain ⟨regex, regexEq⟩ := tailCompiles_test compiles
  refine ⟨regexStar regex, ?_⟩
  rw [neverStateChange, compileRegex, regexEq]
  rfl

theorem tailCompiles_lastStateChange
    {setter stable : TestExpr}
    (setterCompiles : TestCompiles setter)
    (stableCompiles : TestCompiles stable) :
    TailCompiles (lastStateChange setter stable) := by
  refine tailCompiles_concat ?_
  simp only [List.forall_mem_cons]
  exact ⟨⟨.all, by rw [compileRegex]⟩, tailCompiles_test setterCompiles,
    tailCompiles_neverStateChange stableCompiles, by simp⟩

variable [LinearOrder TransitionNode]

/-- A `forbid` rule compiles when its tail does. -/
theorem exists_compileRule_forbid
    {Context : Type}
    (action : Action)
    {tail : RegexExpr}
    (compiles : TailCompiles tail)
    (diagnostic : Diagnostic Context) :
    ∃ runtime,
      compileRule (forbid action tail diagnostic).rule =
        some (.ok runtime) := by
  obtain ⟨regex, regexEq⟩ := compiles
  have headEq : compileHead (forbid action tail diagnostic).rule.head =
      .ok ((forbid action tail diagnostic).rule.head, headEnvironment) := by
    rfl
  exact exists_compileRule_eq_ok headEq regexEq

/-- A compiled rule implements its source under the same diagnostic. -/
structure ImplementsPolicy {Context : Type}
    (source : PolicyRule Context)
    (rule : CompiledPolicyRule Context) : Prop where
  runtime : Implements source.rule rule.runtime
  diagnostic : rule.diagnostic = source.diagnostic

variable {Context : Type}

/-- A table whose rules compile compiles to an implementation of it. -/
theorem exists_new_eq_ok
    {sources : List (PolicyRule Context)}
    (compile : ∀ source ∈ sources, ∃ runtime,
      compileRule source.rule = some (.ok runtime)) :
    ∃ policy, CompiledPolicy.new sources = some (.ok policy) ∧
      List.Forall₂ ImplementsPolicy sources policy.rules := by
  suffices compiled : ∃ rules, compileRules sources = some (.ok rules) ∧
      List.Forall₂ ImplementsPolicy sources rules by
    obtain ⟨rules, rulesEq, implement⟩ := compiled
    exact ⟨⟨rules⟩, by rw [CompiledPolicy.new, rulesEq]; rfl, implement⟩
  induction sources with
  | nil => exact ⟨[], rfl, .nil⟩
  | cons source sources hypothesis =>
      obtain ⟨sourceCompiles, restCompile⟩ := List.forall_mem_cons.mp compile
      obtain ⟨runtime, runtimeEq⟩ := sourceCompiles
      obtain ⟨rules, rulesEq, implement⟩ := hypothesis restCompile
      have implements : Implements source.rule runtime :=
        (returns_compileRule source.rule).of_returned runtimeEq _ rfl
      refine ⟨⟨runtime, source.diagnostic⟩ :: rules, ?_,
        .cons ⟨implements, rfl⟩ implement⟩
      rw [compileRules, runtimeEq, rulesEq]
      rfl

/-! ## Decisions -/

/-- The decision on the first rule that is violated, if any is. -/
def verdict
    (violated : Option (PolicyRule Context))
    (context : Context) : PolicyDecision :=
  match violated with
  | none => .grant
  | some rule => .deny (rule.diagnostic context).1 (rule.diagnostic context).2

open scoped Classical in
/-- Walking the table returns the verdict on its first rule that does not
admit the probe. -/
theorem returns_decideRules
    {sources : List (PolicyRule Context)}
    {rules : List (CompiledPolicyRule Context)}
    (implement : List.Forall₂ ImplementsPolicy sources rules)
    (history : List Event)
    (probe : Event)
    (context : Context) :
    Returns (decideRules history probe context rules) fun outcome =>
      List.Forall₂ ImplementsPolicy sources outcome.2 ∧
        outcome.1 = verdict
          (sources.find? fun source => ¬ source.rule.Admits history probe)
          context := by
  induction implement with
  | nil => exact Returns.some_iff.mpr ⟨.nil, rfl⟩
  | @cons source rule sources rules implements rest hypothesis =>
      rw [decideRules]
      refine (implements.runtime.returns_acceptsHistory history probe).bind
        fun outcome holds => ?_
      obtain ⟨inside, runtime⟩ := outcome
      obtain ⟨nextImplements, admits⟩ := holds
      have nextRule : ImplementsPolicy source
          { rule with runtime := runtime } :=
        ⟨nextImplements, implements.diagnostic⟩
      have proceeds : source.rule.Admits history probe -> Returns
          ((decideRules history probe context rules).bind fun outcome =>
            some (outcome.1, { rule with runtime := runtime } :: outcome.2))
          fun outcome =>
            List.Forall₂ ImplementsPolicy (source :: sources) outcome.2 ∧
              outcome.1 = verdict ((source :: sources).find? fun source =>
                ¬ source.rule.Admits history probe) context := by
        intro admitted
        refine hypothesis.bind fun restOutcome restHolds =>
          Returns.some_iff.mpr ⟨.cons nextRule restHolds.1, ?_⟩
        rw [restHolds.2, List.find?_cons_of_neg (by simpa using admitted)]
      cases inside with
      | none => exact proceeds (admits.mp rfl)
      | some inside =>
          dsimp only
          split_ifs with violated
          · have refused : ¬ source.rule.Admits history probe := by
              rw [← admits]
              simp [RuntimeRule.passes, violated]
            refine Returns.some_iff.mpr ⟨.cons nextRule rest, ?_⟩
            rw [List.find?_cons_of_pos (by simpa using refused), verdict,
              ← implements.diagnostic]
          · exact proceeds (admits.mp (by
              simpa [RuntimeRule.passes] using violated))

open scoped Classical in
/-- A decision of a policy that implements its table is the table's verdict. -/
theorem returns_decide
    {sources : List (PolicyRule Context)}
    {policy : CompiledPolicy Context}
    (implement : List.Forall₂ ImplementsPolicy sources policy.rules)
    (history : List Event)
    (probe : Event)
    (context : Context) :
    Returns (policy.decide history probe context) fun outcome =>
      List.Forall₂ ImplementsPolicy sources outcome.2.rules ∧
        outcome.1 = verdict
          (sources.find? fun source => ¬ source.rule.Admits history probe)
          context :=
  (returns_decideRules implement history probe context).bind
    fun _ holds => Returns.some_iff.mpr holds

end Order

/-! ## Meaning of atoms and tails -/

section Meaning

variable (valuation : Valuation) (event : Event)

theorem accepts_atom (atom : TestAtom) :
    TestExpr.accepts valuation (.atom atom) event ↔
      atom.comparison.apply (atom.pattern.denote valuation event) = true := by
  rw [TestExpr.accepts, BooleanTest.eval_atom]

@[simp] theorem accepts_principalIs_eq :
    TestExpr.accepts valuation (principalIs .eq) event ↔
      event.principal = valuation.principal principalVar := by
  rw [principalIs, accepts_atom, AtomPattern.denote, Comparison.apply_eq,
    decide_eq_true_iff]
  exact eq_comm

@[simp] theorem accepts_principalIs_neq :
    TestExpr.accepts valuation (principalIs .neq) event ↔
      event.principal ≠ valuation.principal principalVar := by
  rw [principalIs, accepts_atom, AtomPattern.denote, Comparison.apply_neq,
    Bool.not_eq_true', decide_eq_false_iff_not]
  exact ne_comm

@[simp] theorem accepts_resourceIs_eq :
    TestExpr.accepts valuation (resourceIs .eq) event ↔
      event.resource = valuation.resource resourceVar := by
  rw [resourceIs, accepts_atom, AtomPattern.denote, Comparison.apply_eq,
    decide_eq_true_iff]
  exact eq_comm

@[simp] theorem accepts_resourceIs_neq :
    TestExpr.accepts valuation (resourceIs .neq) event ↔
      event.resource ≠ valuation.resource resourceVar := by
  rw [resourceIs, accepts_atom, AtomPattern.denote, Comparison.apply_neq,
    Bool.not_eq_true', decide_eq_false_iff_not]
  exact ne_comm

@[simp] theorem accepts_actionIs_eq (action : Action) :
    TestExpr.accepts valuation (actionIs action .eq) event ↔
      event.action = action := by
  rw [actionIs, accepts_atom, AtomPattern.denote, Comparison.apply_eq,
    decide_eq_true_iff]
  exact eq_comm

@[simp] theorem accepts_actionIs_neq (action : Action) :
    TestExpr.accepts valuation (actionIs action .neq) event ↔
      event.action ≠ action := by
  rw [actionIs, accepts_atom, AtomPattern.denote, Comparison.apply_neq,
    Bool.not_eq_true', decide_eq_false_iff_not]
  exact ne_comm

@[simp] theorem accepts_and (children : List TestExpr) :
    TestExpr.accepts valuation (.and children) event ↔
      ∀ child ∈ children, TestExpr.accepts valuation child event := by
  simp [TestExpr.accepts]

@[simp] theorem accepts_or (children : List TestExpr) :
    TestExpr.accepts valuation (.or children) event ↔
      ∃ child ∈ children, TestExpr.accepts valuation child event := by
  simp [TestExpr.accepts]

theorem language_neverStateChange (stable : TestExpr) :
    (neverStateChange stable).language (TestExpr.accepts valuation) =
      KStar.kstar (Language.single (TestExpr.accepts valuation stable)) := by
  simp [neverStateChange]

theorem language_lastStateChange (setter stable : TestExpr) :
    (lastStateChange setter stable).language (TestExpr.accepts valuation) =
      ⊤ * (Language.single (TestExpr.accepts valuation setter) *
        KStar.kstar
          (Language.single (TestExpr.accepts valuation stable))) := by
  simp [lastStateChange]

/-- A `forbid` rule refuses exactly the probes of its action whose history is
in its tail, once the tail depends on the probe's own coordinates only. -/
theorem not_admits_forbid_iff
    {Context : Type}
    (action : Action)
    {tail : RegexExpr}
    (diagnostic : Diagnostic Context)
    (inside : Principal -> Resource -> Prop)
    {history : List Event}
    (meaning : ∀ valuation,
      history ∈ tail.language (TestExpr.accepts valuation) ↔
        inside (valuation.principal principalVar)
          (valuation.resource resourceVar))
    (probe : Event) :
    ¬ (forbid action tail diagnostic).rule.Admits history probe ↔
      probe.action = action ∧ inside probe.principal probe.resource := by
  constructor
  · intro refused
    rw [Rule.Admits] at refused
    push Not at refused
    obtain ⟨valuation, rfl, violated⟩ := refused
    refine ⟨rfl, (meaning valuation).mp ?_⟩
    simpa [Rule.SatisfiedUnder, forbid, Rule.tailLanguage] using violated
  · rintro ⟨rfl, holds⟩ admits
    exact admits probe.valuation rfl
      ((meaning probe.valuation).mpr holds)

end Meaning

end Policy
end Marsh
