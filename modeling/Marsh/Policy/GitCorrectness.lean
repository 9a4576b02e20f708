import Marsh.Policy.GitLanguages

/-!
# The git policy is its reference machine

The 23 rules, walked in order, meet a forbidden cell of the reference machine
or grant; the denial names the owner and the reader the machine holds.
-/

namespace Marsh
namespace Policy
namespace Git

open Library Validator

/-! ## The table -/

/-- What a rule's tail asks of a resource. -/
inductive CellState
  | row (view : RowView)
  | claimedByOther

/-- The tail that asks it. -/
def CellState.language : CellState -> RegexExpr
  | .row view => view.language
  | .claimedByOther => readClaimedOtherLang

/-- Whether it holds of a view and of a foreign claim. -/
def CellState.holds (view : RowView) (claimed : Bool) : CellState -> Bool
  | .row expected => decide (view = expected)
  | .claimedByOther => claimed

/-- One deny cell of the table. -/
structure Cell where
  /-- The action it denies. -/
  action : Action
  /-- When it denies it. -/
  state : CellState
  /-- What it renders. -/
  denial : Diagnostic GitContext

/-- The rule of a cell. -/
def Cell.rule (cell : Cell) : PolicyRule GitContext :=
  forbid cell.action cell.state.language cell.denial

/-- The deny cells in rule order. -/
def cells : List Cell :=
  [⟨.edit, .row .unstagedOther, editOther⟩,
    ⟨.checkout, .row .unstagedOther, checkoutOther⟩,
    ⟨.stage, .row .clean, stageClean⟩,
    ⟨.stage, .row .staged, stageStaged⟩,
    ⟨.stage, .row .unstagedOther, stageOther⟩,
    ⟨.stash, .row .clean, stashClean⟩,
    ⟨.stash, .row .staged, stashStaged⟩,
    ⟨.stash, .row .unstagedOther, stashOther⟩,
    ⟨.unstage, .row .unstagedOther, unstageOther⟩,
    ⟨.unstage, .row .clean, unstageClean⟩,
    ⟨.unstage, .row .unstagedSelf, unstageSelf⟩,
    ⟨.commit none, .row .clean, commitClean⟩,
    ⟨.commit none, .row .unstagedSelf, commitSelf⟩,
    ⟨.commit none, .row .unstagedOther, commitOther⟩,
    ⟨.delete, .row .staged, deleteStaged⟩,
    ⟨.delete, .row .unstagedSelf, deleteSelf⟩,
    ⟨.delete, .row .unstagedOther, deleteOther⟩,
    ⟨.clean, .row .unstagedOther, cleanOther⟩,
    ⟨.edit, .claimedByOther, editClaimed⟩,
    ⟨.delete, .claimedByOther, deleteClaimed⟩,
    ⟨.clean, .claimedByOther, cleanClaimed⟩,
    ⟨.checkout, .claimedByOther, checkoutClaimed⟩,
    ⟨.stash, .claimedByOther, stashClaimed⟩]

theorem gitRules_eq_map_cells : gitRules = cells.map Cell.rule := rfl

/-- A rule refuses a probe exactly in its cell. -/
theorem Cell.not_admits_rule_iff
    (cell : Cell)
    (history : List Event)
    (probe : Event) :
    ¬ cell.rule.rule.Admits history probe ↔
      probe.action = cell.action ∧
        cell.state.holds
          ((stateOf probe.resource history).row.view probe.principal)
          (decide ((stateOf probe.resource history).ClaimedByOther
            probe.principal)) = true := by
  obtain ⟨action, state, denial⟩ := cell
  cases state with
  | row view =>
      have refuses := not_admits_forbid_iff action denial
        (fun principal resource =>
          (stateOf resource history).row.view principal = view)
        (fun valuation => mem_language_rowView valuation history view) probe
      rw [CellState.holds, decide_eq_true_eq]
      exact refuses
  | claimedByOther =>
      have refuses := not_admits_forbid_iff action denial
        (fun principal resource =>
          (stateOf resource history).ClaimedByOther principal)
        (fun valuation => mem_language_readClaimedOther valuation history) probe
      rw [CellState.holds, decide_eq_true_eq]
      exact refuses

/-- The form of an action that rule heads match. -/
def probeAction : Action -> Action
  | .commit _ => .commit none
  | action => action

theorem probeOf_eq (candidate : Event) :
    probeOf candidate =
      { candidate with action := probeAction candidate.action } := by
  obtain ⟨principal, action, resource⟩ := candidate
  cases action <;> rfl

/-- The first cell that an action meets, over every view and claim. -/
theorem find?_cells
    (action : Action)
    (view : RowView)
    (claimed : Bool) :
    (cells.find? fun cell => decide (probeAction action = cell.action) &&
        cell.state.holds view claimed).map Cell.denial =
      (rowCell action view).or
        (if claimed = true then claimCell action else none) := by
  cases action <;> cases view <;> cases claimed <;> rfl

open scoped Classical in
/-- The first violated rule carries the denial of the forbidden cell. -/
theorem find?_gitRules
    (history : List Event)
    (candidate : Event) :
    (gitRules.find? fun rule =>
        ¬ rule.rule.Admits history (probeOf candidate)).map
          PolicyRule.diagnostic =
      (stateOf candidate.resource history).forbiddenCell candidate.principal
        candidate.action := by
  rw [gitRules_eq_map_cells, List.find?_map, Option.map_map,
    ResourceState.forbiddenCell]
  have denials : PolicyRule.diagnostic ∘ Cell.rule = Cell.denial := rfl
  have cell := find?_cells candidate.action
    ((stateOf candidate.resource history).row.view candidate.principal)
    (decide ((stateOf candidate.resource history).ClaimedByOther
      candidate.principal))
  simp only [decide_eq_true_eq] at cell
  rw [denials, ← cell]
  congr 2
  funext cell
  have refuses := cell.not_admits_rule_iff history (probeOf candidate)
  rw [probeOf_eq] at refuses ⊢
  rw [Function.comp_apply, decide_eq_decide.mpr refuses, Bool.decide_and,
    Bool.decide_eq_true]

/-! ## What a denial names -/

/-- The claims of a history point at the events that set its row and claim. -/
structure Claims.Tracks
    (resource : Resource)
    (history : List Event)
    (claims : Claims)
    (state : ResourceState) : Prop where
  settled : claims.row = none -> state.row = .clean
  defined : ∀ index, claims.row = some index ->
    ∃ event, history[index]? = some event ∧
      rowChange resource event = some state.row
  unread : claims.read = none -> state.claim = none
  read : ∀ index, claims.read = some index ->
    ∃ event, history[index]? = some event ∧
      state.claim = some event.principal

/-- Appending an event keeps earlier indices. -/
theorem exists_getElem?_append
    {history : List Event}
    {index : Nat}
    {holds : Event -> Prop}
    (event : Event)
    (found : ∃ earlier, history[index]? = some earlier ∧ holds earlier) :
    ∃ earlier, (history ++ [event])[index]? = some earlier ∧ holds earlier := by
  obtain ⟨earlier, earlierEq, earlierHolds⟩ := found
  obtain ⟨bound, -⟩ := List.getElem?_eq_some_iff.mp earlierEq
  exact ⟨earlier, by rw [List.getElem?_append_left bound, earlierEq],
    earlierHolds⟩

theorem Claims.Tracks.advance
    {resource : Resource}
    {history : List Event}
    {claims : Claims}
    {state : ResourceState}
    (tracks : claims.Tracks resource history state)
    (event : Event) :
    (if event.resource = resource then claims.apply event.action history.length
      else claims).Tracks resource (history ++ [event])
        (Git.advance resource state event) := by
  have row : ∀ index, claims.row = some index -> ∃ earlier,
      (history ++ [event])[index]? = some earlier ∧
        rowChange resource earlier = some state.row :=
    fun index found => exists_getElem?_append event (tracks.defined index found)
  have read : ∀ index, claims.read = some index -> ∃ earlier,
      (history ++ [event])[index]? = some earlier ∧
        state.claim = some earlier.principal :=
    fun index found => exists_getElem?_append event (tracks.read index found)
  have last : (history ++ [event])[history.length]? = some event := by simp
  rw [Git.advance]
  split_ifs with same
  · obtain ⟨principal, action, eventResource⟩ := event
    cases action
    case read =>
      exact ⟨tracks.settled, row, fun unread => absurd unread
        (Option.some_ne_none _), fun index found =>
          ⟨_, Option.some.inj found ▸ last, rfl⟩⟩
    case clean | diff | history =>
      exact ⟨tracks.settled, row, tracks.unread, read⟩
    case edit | unstage | stage | delete =>
      exact ⟨fun settled => absurd settled (Option.some_ne_none _),
        fun index found => ⟨_, Option.some.inj found ▸ last, if_pos same⟩,
        tracks.unread, read⟩
    case commit | checkout | stash =>
      exact ⟨fun _ => rfl, fun index found =>
        absurd found.symm (Option.some_ne_none index), tracks.unread, read⟩
  · exact ⟨tracks.settled, row, tracks.unread, read⟩

theorem claimsFor_append_singleton
    (history : List Event)
    (event : Event)
    (resource : Resource) :
    claimsFor (history ++ [event]) resource =
      if event.resource = resource then
        (claimsFor history resource).apply event.action history.length
      else claimsFor history resource := by
  rw [claimsFor, List.zipIdx_append, List.foldl_append, ← claimsFor]
  simp

theorem tracks_claimsFor
    (history : List Event)
    (resource : Resource) :
    (claimsFor history resource).Tracks resource history
      (stateOf resource history) := by
  induction history using List.reverseRecOn with
  | nil => exact ⟨fun _ => rfl, nofun, fun _ => rfl, nofun⟩
  | append_singleton history event hypothesis =>
      rw [stateOf_append_singleton, claimsFor_append_singleton]
      exact hypothesis.advance event

/-- A denial names what the reference machine holds. -/
theorem gitContext_eq
    (history : List Event)
    (candidate : Event) :
    gitContext history candidate =
      (stateOf candidate.resource history).context candidate := by
  have tracks := tracks_claimsFor history candidate.resource
  rw [gitContext, ResourceState.context, GitContext.mk.injEq]
  refine ⟨rfl, rfl, ?_, ?_⟩
  · cases row : (claimsFor history candidate.resource).row with
    | none => rw [tracks.settled row]; rfl
    | some index =>
        obtain ⟨event, eventEq, changed⟩ := tracks.defined index row
        rw [Option.bind_some, eventEq]
        rw [rowChange] at changed
        split_ifs at changed
        obtain ⟨principal, action, resource⟩ := event
        cases action <;> simp only [reduceCtorEq, Option.some.injEq] at changed <;>
          rw [← changed] <;> rfl
  · cases read : (claimsFor history candidate.resource).read with
    | none => rw [tracks.unread read]; rfl
    | some index =>
        obtain ⟨event, eventEq, claimEq⟩ := tracks.read index read
        rw [Option.bind_some, eventEq, claimEq]
        rfl

/-! ## Decisions -/

section Order

variable [LinearOrder TestNode] [LinearOrder Regex]

/-- Every tail of the table mentions only the head's variables. -/
theorem tailCompiles_language (state : CellState) :
    TailCompiles state.language := by
  have readOnly : TestCompiles readOnlyNotR := by
    refine testCompiles_or ?_
    simp [testCompiles_resourceIs, testCompiles_actionIs]
  cases state with
  | row view =>
      cases view with
      | clean =>
          refine tailCompiles_union ?_
          simp only [List.forall_mem_cons]
          refine ⟨tailCompiles_neverStateChange readOnly,
            tailCompiles_lastStateChange ?_ readOnly, by simp⟩
          refine testCompiles_and ?_
          simp [testCompiles_resourceIs, testCompiles_actionIs]
      | staged =>
          refine tailCompiles_lastStateChange (testCompiles_and ?_) readOnly
          simp [testCompiles_resourceIs, testCompiles_actionIs,
            testCompiles_or]
      | unstagedSelf =>
          refine tailCompiles_lastStateChange (testCompiles_and ?_) readOnly
          simp [testCompiles_resourceIs, testCompiles_actionIs,
            testCompiles_principalIs, testCompiles_or]
      | unstagedOther =>
          refine tailCompiles_lastStateChange (testCompiles_and ?_) readOnly
          simp [testCompiles_resourceIs, testCompiles_actionIs,
            testCompiles_principalIs, testCompiles_or]
  | claimedByOther =>
      refine tailCompiles_lastStateChange (testCompiles_and ?_)
        (testCompiles_or ?_)
      · simp [testCompiles_resourceIs, testCompiles_actionIs,
          testCompiles_principalIs]
      · simp [testCompiles_resourceIs, testCompiles_actionIs]

variable [LinearOrder TransitionNode]

/-- A policy whose compiled table implements the git rules. -/
def GitPolicy.Implements (policy : GitPolicy) : Prop :=
  List.Forall₂ ImplementsPolicy gitRules policy.compiled.rules

/-- The static table compiles. -/
theorem GitPolicy.returns_new :
    Returns GitPolicy.new GitPolicy.Implements := by
  have compile : ∀ source ∈ gitRules, ∃ runtime,
      compileRule source.rule = some (.ok runtime) := by
    rw [gitRules_eq_map_cells]
    intro source member
    obtain ⟨cell, -, rfl⟩ := List.mem_map.mp member
    exact exists_compileRule_forbid cell.action
      (tailCompiles_language cell.state) cell.denial
  obtain ⟨policy, policyEq, implement⟩ := exists_new_eq_ok compile
  refine ⟨⟨policy⟩, ?_, implement⟩
  rw [GitPolicy.new, policyEq]
  rfl

/-- A decision returns what the reference machine decides. -/
theorem GitPolicy.Implements.returns_decide
    {policy : GitPolicy}
    (implements : policy.Implements)
    (history : List Event)
    (candidate : Event) :
    Returns (policy.decide history candidate) fun outcome =>
      outcome.2.Implements ∧
        outcome.1 = (stateOf candidate.resource history).decide candidate := by
  classical
  refine (Policy.returns_decide implements history (probeOf candidate)
    (gitContext history candidate)).bind fun outcome holds =>
      Returns.some_iff.mpr ⟨holds.1, ?_⟩
  rw [holds.2, ResourceState.decide, ← find?_gitRules, gitContext_eq]
  cases gitRules.find? fun rule =>
      ¬ rule.rule.Admits history (probeOf candidate) with
  | none => rfl
  | some rule => rfl

/-- One-shot decisions are those of the reference machine. -/
theorem gitDecision_eq
    (history : List Event)
    (candidate : Event) :
    gitDecision history candidate =
      some ((stateOf candidate.resource history).decide candidate) := by
  obtain ⟨policy, policyEq, implements⟩ := GitPolicy.returns_new
  obtain ⟨⟨decision, next⟩, decideEq, -, decisionEq⟩ :=
    implements.returns_decide history candidate
  rw [gitDecision, policyEq]
  change ((policy.decide history candidate).bind fun outcome =>
    some outcome.1) = _
  rw [decideEq]
  exact congrArg some decisionEq

/-- Successive decisions of one policy. -/
def GitPolicy.decideAll
    (policy : GitPolicy) :
    List (List Event × Event) -> Option (List PolicyDecision)
  | [] => some []
  | (history, candidate) :: requests => do
      let (decision, policy) ← policy.decide history candidate
      let decisions ← policy.decideAll requests
      pure (decision :: decisions)

theorem GitPolicy.Implements.decideAll_eq
    {policy : GitPolicy}
    (implements : policy.Implements)
    (requests : List (List Event × Event)) :
    policy.decideAll requests =
      some (requests.map fun (history, candidate) =>
        (stateOf candidate.resource history).decide candidate) := by
  induction requests generalizing policy with
  | nil => rfl
  | cons request requests hypothesis =>
      obtain ⟨history, candidate⟩ := request
      obtain ⟨⟨decision, next⟩, decideEq, nextImplements, decisionEq⟩ :=
        implements.returns_decide history candidate
      rw [GitPolicy.decideAll, decideEq]
      change (do
        let decisions ← next.decideAll requests
        pure (decision :: decisions)) = _
      rw [hypothesis nextImplements]
      change decision = _ at decisionEq
      rw [decisionEq]
      rfl

/-- Whatever one policy decided before, it decides every candidate after every
history as the reference machine does; and the four row languages partition
the histories of each resource and acting principal. -/
theorem GitPolicy.decide_eq_reference :
    (∃ policy, GitPolicy.new = some policy ∧
      ∀ requests, policy.decideAll requests =
        some (requests.map fun (history, candidate) =>
          (stateOf candidate.resource history).decide candidate)) ∧
      ∀ (valuation : Valuation) (history : List Event),
        ∃! view : RowView,
          history ∈ view.language.language (TestExpr.accepts valuation) := by
  constructor
  · obtain ⟨policy, policyEq, implements⟩ := GitPolicy.returns_new
    exact ⟨policy, policyEq, implements.decideAll_eq⟩
  · intro valuation history
    simp only [mem_language_rowView]
    exact ⟨_, rfl, fun _ holds => holds.symm⟩

end Order

end Git
end Policy
end Marsh
