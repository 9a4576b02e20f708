import Mathlib.SetTheory.Cardinal.Order
import Marsh.Validator.CompileSemantics
import Marsh.Validator.Validator

/-!
# Correctness of the validator

Along every run, a check returns and grants a request exactly when each source
rule admits its event after the committed history, in the denotational sense
of `Rule.Admits`.
-/

set_option linter.dupNamespace false

namespace Marsh
namespace Validator

open Library

section Order

variable [LinearOrder TestNode] [LinearOrder Regex] [LinearOrder TransitionNode]

/-! ## Rules -/

/-- A runtime rule compiled from a source rule, with any sound cache. -/
structure Implements (source : Rule) (rule : RuntimeRule) : Prop where
  compiled : ∃ environment,
    compileHead source.head = .ok (rule.head, environment) ∧
      compileRegex environment source.tail = .ok rule.tail
  mode : rule.mode = source.mode
  sound : CacheSound rule.derivatives

/-- Compilation returns, with an error or with a rule for the source. -/
theorem returns_compileRule (source : Rule) :
    Returns (compileRule source) fun outcome =>
      ∀ rule, outcome = .ok rule -> Implements source rule := by
  unfold compileRule
  split
  · exact Returns.some_iff.mpr (by simp)
  · rename_i head environment headEq
    split
    · exact Returns.some_iff.mpr (by simp)
    · rename_i tail tailEq
      have canonical := (compiledRegex_of_compileRegex tailEq).1
      refine (canonical.establishes_precompile _ .new).bind
        fun outcome holds => Returns.some_iff.mpr ?_
      rintro rule ⟨⟩
      exact ⟨⟨environment, headEq, tailEq⟩, rfl, holds.2⟩

/-- A rule compiles when its head and its tail do. -/
theorem exists_compileRule_eq_ok
    {source : Rule}
    {head : Head}
    {environment : VariableEnvironment}
    {tail : Regex}
    (headEq : compileHead source.head = .ok (head, environment))
    (tailEq : compileRegex environment source.tail = .ok tail) :
    ∃ rule, compileRule source = some (.ok rule) := by
  obtain ⟨outcome, outcomeEq, _⟩ :=
    (compiledRegex_of_compileRegex tailEq).1.establishes_precompile _ .new
  refine ⟨⟨source.mode, head, tail, outcome.2⟩, ?_⟩
  rw [compileRule, headEq]
  dsimp only
  rw [tailEq]
  dsimp only
  rw [outcomeEq]
  rfl

/-- Whether the outcome of matching a rule lets the candidate pass. -/
def RuntimeRule.passes
    (rule : RuntimeRule) : Option Bool -> Bool
  | none => true
  | some accepted => !rule.mode.violated accepted

/-- Matching a rule returns, and lets the candidate pass exactly when the
source admits it. -/
theorem Implements.returns_acceptsHistory
    {source : Rule}
    {rule : RuntimeRule}
    (implements : Implements source rule)
    (history : List Event)
    (candidate : Event) :
    Returns (rule.acceptsHistory history candidate) fun outcome =>
      Implements source outcome.2 ∧
        (outcome.2.passes outcome.1 = true ↔
          source.Admits history candidate) := by
  obtain ⟨environment, headEq, tailEq⟩ := implements.compiled
  have headSame := (lookup_of_compileHead headEq).1
  obtain ⟨canonical, language⟩ := compiledRegex_of_compileRegex tailEq
  have matchEq := matchCandidate_eq headEq candidate
  rw [headSame] at headEq
  rw [RuntimeRule.acceptsHistory, headSame]
  cases matched : source.head.matchCandidate candidate with
  | none =>
      refine Returns.some_iff.mpr ⟨implements, iff_of_true rfl ?_⟩
      intro valuation instantiates
      rw [matched, if_pos (instantiate_valuation_of_instantiate instantiates)]
        at matchEq
      exact absurd matchEq (by simp)
  | some substitution =>
      have tailMeaning : ∀ valuation,
          source.head.instantiate valuation = candidate ->
            (history ∈ source.tailLanguage valuation ↔
              history ∈ (eventAlphabet substitution).language rule.tail) := by
        intro valuation instantiates
        rw [Rule.tailLanguage, language substitution valuation
          (agrees_of_matchCandidate headEq matched instantiates)]
      have instantiates : source.head.instantiate candidate.valuation =
          candidate := by
        by_contra different
        rw [matched, if_neg different] at matchEq
        exact absurd matchEq (by simp)
      refine (canonical.establishes_accepts history substitution _
        implements.sound).bind fun outcome holds => Returns.some_iff.mpr ?_
      obtain ⟨acceptedIff, cacheSound⟩ := holds
      refine ⟨⟨⟨environment, headEq, tailEq⟩, implements.mode, cacheSound⟩, ?_⟩
      have satisfied : ∀ valuation,
          source.head.instantiate valuation = candidate ->
            (source.SatisfiedUnder valuation history ↔
              rule.mode.violated outcome.1 = false) := by
        intro valuation valuationInstantiates
        rw [Rule.SatisfiedUnder, implements.mode,
          tailMeaning valuation valuationInstantiates, ← acceptedIff]
        cases source.mode <;> simp [RuleMode.violated]
      rw [RuntimeRule.passes, Bool.not_eq_true']
      constructor
      · intro passed valuation valuationInstantiates
        exact (satisfied valuation valuationInstantiates).mpr passed
      · intro admits
        exact (satisfied _ instantiates).mp (admits _ instantiates)

/-- Consulting the rules returns, and finds no violation exactly when every
source admits the candidate. -/
theorem returns_checkRules
    {sources : List Rule}
    {rules : List RuntimeRule}
    (implement : List.Forall₂ Implements sources rules)
    (history : List Event)
    (event : Event) :
    Returns (checkRules history event rules) fun outcome =>
      List.Forall₂ Implements sources outcome.2 ∧
        (outcome.1 = none ↔
          ∀ source ∈ sources, source.Admits history event) := by
  induction implement with
  | nil => exact Returns.some_iff.mpr ⟨.nil, by simp⟩
  | @cons source rule sources rules implements rest hypothesis =>
      rw [checkRules]
      refine (implements.returns_acceptsHistory history event).bind
        fun outcome holds => ?_
      obtain ⟨accepted, next⟩ := outcome
      obtain ⟨nextImplements, admits⟩ := holds
      rw [List.forall_mem_cons, ← admits]
      have restReturns : next.passes accepted = true -> Returns
          ((checkRules history event rules).bind fun outcome =>
            some (outcome.1, next :: outcome.2))
          fun outcome => List.Forall₂ Implements (source :: sources) outcome.2 ∧
            (outcome.1 = none ↔ next.passes accepted = true ∧
              ∀ source ∈ sources, source.Admits history event) := by
        intro passed
        refine hypothesis.bind fun restOutcome restHolds =>
          Returns.some_iff.mpr ⟨.cons nextImplements restHolds.1, ?_⟩
        rw [restHolds.2]
        simp [passed]
      cases accepted with
      | none => exact restReturns rfl
      | some accepted =>
          dsimp only
          split_ifs with violated
          · refine Returns.some_iff.mpr ⟨.cons nextImplements rest, ?_⟩
            simp [RuntimeRule.passes, violated]
          · exact restReturns (by simpa [RuntimeRule.passes] using violated)

/-! ## Runs -/

/-- Compiling rules returns; a compiled builder implements every source. -/
theorem returns_addRules
    {done : List Rule}
    {builder : ValidatorBuilder}
    (implement : List.Forall₂ Implements done builder.rules)
    (sources : List Rule) :
    Returns (builder.addRules sources) fun outcome =>
      ∀ compiled, outcome = .ok compiled ->
        List.Forall₂ Implements (done ++ sources) compiled.rules := by
  induction sources generalizing done builder with
  | nil =>
      refine Returns.some_iff.mpr ?_
      rintro compiled ⟨⟩
      simpa using implement
  | cons source sources hypothesis =>
      rw [ValidatorBuilder.addRules]
      have added : Returns (builder.addRule source) fun outcome =>
          ∀ next, outcome = .ok next ->
            List.Forall₂ Implements (done ++ [source]) next.rules := by
        refine (returns_compileRule source).bind fun outcome holds => ?_
        cases outcome with
        | error failure => exact Returns.some_iff.mpr (by simp)
        | ok rule =>
            refine Returns.some_iff.mpr ?_
            rintro next ⟨⟩
            exact List.rel_append implement (.cons (holds rule rfl) .nil)
      refine added.bind fun outcome holds => ?_
      cases outcome with
      | error failure => exact Returns.some_iff.mpr (by simp)
      | ok next => simpa using hypothesis (holds next rfl)

namespace Validator

/-- Validators that a rule set reaches by compilation, checks and rollbacks. -/
inductive Reachable (sources : List Rule) : Validator -> Prop
  | compiled {builder : ValidatorBuilder}
      (compiles : ValidatorBuilder.new.addRules sources = some (.ok builder)) :
      Reachable sources builder.finish
  | checked {Metadata : Type} {validator next : Validator}
      {request : Request Metadata} {decision : Decision Metadata}
      (reachable : Reachable sources validator)
      (checks : validator.check request = some (decision, next)) :
      Reachable sources next
  | rolledBack {validator next : Validator} {checkpoint : Checkpoint}
      (reachable : Reachable sources validator)
      (restores : validator.rollback checkpoint = some next) :
      Reachable sources next

/-- A check returns, decides as the sources do, and commits exactly a granted
event. -/
theorem returns_check
    {sources : List Rule}
    {validator : Validator}
    (implement : List.Forall₂ Implements sources validator.rules)
    {Metadata : Type}
    (request : Request Metadata) :
    Returns (validator.check request) fun outcome =>
      List.Forall₂ Implements sources outcome.2.rules ∧
        (outcome.1.isGrant = true ↔ ∀ source ∈ sources,
          source.Admits validator.history request.event) ∧
        outcome.2.history =
          if outcome.1.isGrant then validator.history ++ [request.event]
          else validator.history := by
  rw [Validator.check]
  refine (returns_checkRules implement validator.history request.event).bind
    fun outcome holds => ?_
  obtain ⟨denial, rules⟩ := outcome
  obtain ⟨rulesImplement, admits⟩ := holds
  cases denial with
  | none =>
      exact Returns.some_iff.mpr
        ⟨rulesImplement, by simpa [Decision.isGrant] using admits, rfl⟩
  | some denial =>
      exact Returns.some_iff.mpr
        ⟨rulesImplement, by simpa [Decision.isGrant] using admits, rfl⟩

/-- Along every run the runtime rules implement the sources. -/
theorem Reachable.implement
    {sources : List Rule}
    {validator : Validator}
    (reachable : Reachable sources validator) :
    List.Forall₂ Implements sources validator.rules := by
  induction reachable with
  | compiled compiles =>
      have none : List.Forall₂ Implements [] ValidatorBuilder.new.rules := .nil
      exact (returns_addRules none sources).of_returned compiles _ rfl
  | checked _ checks hypothesis =>
      exact ((returns_check hypothesis _).of_returned checks).1
  | rolledBack _ restores hypothesis =>
      unfold Validator.rollback at restores
      split_ifs at restores
      rw [← Option.some.inj restores]
      exact hypothesis

/-- Along every run, a check returns; it grants exactly when every source rule
admits the event after the committed history, and the history grows by the
granted event, or stays. -/
theorem check_grants_iff_admits
    {sources : List Rule}
    {validator : Validator}
    (reachable : Reachable sources validator)
    {Metadata : Type}
    (request : Request Metadata) :
    ∃ decision next, validator.check request = some (decision, next) ∧
      Reachable sources next ∧
      (decision.isGrant = true ↔ ∀ source ∈ sources,
        source.Admits validator.history request.event) ∧
      (decision.isGrant = true ->
        next.history = validator.history ++ [request.event]) ∧
      (decision.isGrant = false -> next.history = validator.history) := by
  obtain ⟨⟨decision, next⟩, checks, _, decides, history⟩ :=
    returns_check reachable.implement request
  refine ⟨decision, next, checks, .checked reachable checks, decides, ?_, ?_⟩
  · intro granted
    simpa [granted] using history
  · intro denied
    simpa [denied] using history

end Validator

end Order

/-! ## A run -/

/-- Some creation order of nodes. -/
@[reducible] noncomputable def someOrder (Node : Type) : LinearOrder Node :=
  IsWellOrder.linearOrder WellOrderingRel

/-- A rule that forbids edits until something has been granted. -/
def forbidFirstEdit : Rule where
  mode := .forbid
  head :=
    { principal := .variable "p"
      action := .constant .edit
      resource := .variable "r" }
  tail := .epsilon

/-- A validator compiled from one rule denies the edit the rule forbids. -/
theorem Validator.check_grants_iff_admits_forbidFirstEdit :
    letI := someOrder TestNode
    letI := someOrder Regex
    letI := someOrder TransitionNode
    ∃ validator decision next,
      Validator.Reachable [forbidFirstEdit] validator ∧
        validator.check
          (⟨⟨⟨"alice"⟩, .edit, ⟨["a"]⟩⟩, ()⟩ : Request Unit) =
            some (decision, next) ∧
        decision.isGrant = false ∧ next.history = [] := by
  let _ := someOrder TestNode
  let _ := someOrder Regex
  let _ := someOrder TransitionNode
  obtain ⟨rule, ruleEq⟩ : ∃ rule,
      compileRule forbidFirstEdit = some (.ok rule) :=
    exists_compileRule_eq_ok (by rfl) (by rw [forbidFirstEdit, compileRegex])
  have compiles : ValidatorBuilder.new.addRules [forbidFirstEdit] =
      some (.ok ⟨[rule]⟩) := by
    simp [ValidatorBuilder.addRules, ValidatorBuilder.addRule, ruleEq,
      ValidatorBuilder.new]
  have reachable := Validator.Reachable.compiled compiles
  obtain ⟨decision, next, checks, _, decides, _, denied⟩ :=
    Validator.check_grants_iff_admits reachable
      (⟨⟨⟨"alice"⟩, .edit, ⟨["a"]⟩⟩, ()⟩ : Request Unit)
  have notGranted : decision.isGrant = false := by
    rw [← Bool.not_eq_true, decides]
    intro admits
    refine admits forbidFirstEdit (by simp)
      (Event.valuation ⟨⟨"alice"⟩, .edit, ⟨["a"]⟩⟩) rfl ?_
    simp [Rule.tailLanguage, forbidFirstEdit, ValidatorBuilder.finish]
  exact ⟨_, decision, next, reachable, checks, notGranted,
    denied notGranted⟩

end Validator
end Marsh
