import Marsh.Policy.GitReference
import Marsh.Policy.KernelSemantics

/-!
# The row and claim languages

Each row language holds the histories whose fold leaves the resource in that
row, as the acting principal sees it; the claim language holds those whose last
reader is another principal.
-/

namespace Marsh
namespace Policy
namespace Git

open Library Validator

/-! ## Rows and claims as last changes -/

/-- The row an event sets on a resource. -/
def rowChange (resource : Resource) (event : Event) : Option Row :=
  if event.resource = resource then
    match event.action with
    | .edit | .unstage => some (.unstaged event.principal)
    | .stage | .delete => some .staged
    | .commit _ | .checkout | .stash => some .clean
    | .read | .clean | .diff | .history => none
  else none

/-- The claim an event takes on a resource. -/
def claimChange (resource : Resource) (event : Event) : Option Principal :=
  if event.resource = resource ∧ event.action = .read then
    some event.principal
  else none

theorem row_advance
    (resource : Resource)
    (state : ResourceState)
    (event : Event) :
    (advance resource state event).row =
      (rowChange resource event).getD state.row := by
  rw [advance, rowChange]
  split
  · cases event.action <;> rfl
  · rfl

theorem claim_advance
    (resource : Resource)
    (state : ResourceState)
    (event : Event) :
    (advance resource state event).claim =
      (claimChange resource event).or state.claim := by
  rw [advance, claimChange, ResourceState.step]
  by_cases same : event.resource = resource <;>
    by_cases read : event.action = .read <;> simp [same, read]

/-- The row of a resource is the last one set, or clean. -/
theorem row_stateOf (resource : Resource) (history : List Event) :
    (stateOf resource history).row =
      (lastChange (rowChange resource) history).getD .clean := by
  induction history using List.reverseRecOn with
  | nil => rfl
  | append_singleton history event hypothesis =>
      rw [stateOf_append_singleton, row_advance, hypothesis,
        lastChange_append_singleton]
      cases rowChange resource event <;> rfl

/-- The claim on a resource is the last one taken. -/
theorem claim_stateOf (resource : Resource) (history : List Event) :
    (stateOf resource history).claim =
      lastChange (claimChange resource) history := by
  induction history using List.reverseRecOn with
  | nil => rfl
  | append_singleton history event hypothesis =>
      rw [stateOf_append_singleton, claim_advance, hypothesis,
        lastChange_append_singleton]

/-! ## Predicates -/

section Predicates

variable (valuation : Valuation) (event : Event)

theorem accepts_readOnlyNotR :
    TestExpr.accepts valuation readOnlyNotR event ↔
      rowChange (valuation.resource resourceVar) event = none := by
  rw [readOnlyNotR, rowChange]
  by_cases same : event.resource = valuation.resource resourceVar
  · cases action : event.action <;> simp [same, action]
  · simp [same]

theorem accepts_stageDeleteOnR :
    TestExpr.accepts valuation stageDeleteOnR event ↔
      ∃ row ∈ rowChange (valuation.resource resourceVar) event,
        row = .staged := by
  rw [stageDeleteOnR, rowChange]
  by_cases same : event.resource = valuation.resource resourceVar
  · cases action : event.action <;> simp [same, action]
  · simp [same]

theorem accepts_editUnstageOnROnP :
    TestExpr.accepts valuation editUnstageOnROnP event ↔
      ∃ row ∈ rowChange (valuation.resource resourceVar) event,
        row = .unstaged (valuation.principal principalVar) := by
  rw [editUnstageOnROnP, rowChange]
  by_cases same : event.resource = valuation.resource resourceVar
  · cases action : event.action <;> simp [same, action]
  · simp [same]

theorem accepts_editUnstageOnRNotP :
    TestExpr.accepts valuation editUnstageOnRNotP event ↔
      ∃ row ∈ rowChange (valuation.resource resourceVar) event,
        ∃ owner, owner ≠ valuation.principal principalVar ∧
          row = .unstaged owner := by
  rw [editUnstageOnRNotP, rowChange]
  by_cases same : event.resource = valuation.resource resourceVar
  · cases action : event.action <;> simp [same, action]
  · simp [same]

theorem accepts_commitCheckoutStashOnR :
    TestExpr.accepts valuation commitCheckoutStashOnR event ↔
      ∃ row ∈ rowChange (valuation.resource resourceVar) event,
        row = .clean := by
  rw [commitCheckoutStashOnR, rowChange]
  by_cases same : event.resource = valuation.resource resourceVar
  · cases action : event.action <;> simp [same, action]
  · simp [same]

theorem accepts_notReadOnR :
    TestExpr.accepts valuation notReadOnR event ↔
      claimChange (valuation.resource resourceVar) event = none := by
  rw [notReadOnR, claimChange]
  by_cases same : event.resource = valuation.resource resourceVar <;>
    simp [same]

theorem accepts_readOnRNotP :
    TestExpr.accepts valuation readOnRNotP event ↔
      ∃ reader ∈ claimChange (valuation.resource resourceVar) event,
        reader ≠ valuation.principal principalVar := by
  rw [readOnRNotP, claimChange]
  by_cases same : event.resource = valuation.resource resourceVar
  · by_cases read : event.action = .read <;> simp [same, read]
  · simp [same]

end Predicates

/-! ## Languages -/

section Languages

variable (valuation : Valuation) (history : List Event)

/-- A tail shape that classifies the row of the resource. -/
theorem mem_lastStateChange_row
    {setter : TestExpr}
    {sets : Row -> Prop}
    (changes : ∀ event, TestExpr.accepts valuation setter event ↔
      ∃ row ∈ rowChange (valuation.resource resourceVar) event, sets row) :
    history ∈ (lastStateChange setter readOnlyNotR).language
        (TestExpr.accepts valuation) ↔
      ∃ row ∈ lastChange (rowChange (valuation.resource resourceVar)) history,
        sets row := by
  rw [language_lastStateChange]
  exact mem_setter_iff_lastChange _ (accepts_readOnlyNotR valuation) changes

/-- Each row language holds the histories whose row the principal sees so. -/
theorem mem_language_rowView (view : RowView) :
    history ∈ view.language.language (TestExpr.accepts valuation) ↔
      (stateOf (valuation.resource resourceVar) history).row.view
        (valuation.principal principalVar) = view := by
  rw [row_stateOf]
  cases view with
  | clean =>
      rw [RowView.language, cleanLang, ExtendedRegex.mem_language_union]
      simp only [List.exists_mem_cons_iff, List.not_mem_nil, false_and,
        exists_false, or_false]
      rw [mem_lastStateChange_row _ _ (accepts_commitCheckoutStashOnR valuation),
        language_neverStateChange,
        mem_kstar_single_iff_lastChange _ (accepts_readOnlyNotR valuation)]
      cases lastChange (rowChange (valuation.resource resourceVar)) history with
      | none => simp
      | some row => simp
  | staged =>
      rw [RowView.language, stagedLang,
        mem_lastStateChange_row _ _ (accepts_stageDeleteOnR valuation)]
      cases lastChange (rowChange (valuation.resource resourceVar)) history with
      | none => simp
      | some row => simp
  | unstagedSelf =>
      rw [RowView.language, unstagedSelfLang,
        mem_lastStateChange_row _ _ (accepts_editUnstageOnROnP valuation)]
      cases lastChange (rowChange (valuation.resource resourceVar)) history with
      | none => simp
      | some row => simp
  | unstagedOther =>
      rw [RowView.language, unstagedOtherLang,
        mem_lastStateChange_row _ _ (accepts_editUnstageOnRNotP valuation)]
      cases lastChange (rowChange (valuation.resource resourceVar)) history with
      | none => simp
      | some row => simp [and_comm]

/-- The claim language holds the histories whose last reader is another. -/
theorem mem_language_readClaimedOther :
    history ∈ readClaimedOtherLang.language (TestExpr.accepts valuation) ↔
      (stateOf (valuation.resource resourceVar) history).ClaimedByOther
        (valuation.principal principalVar) := by
  rw [readClaimedOtherLang, language_lastStateChange,
    mem_setter_iff_lastChange _ (accepts_notReadOnR valuation)
      (accepts_readOnRNotP valuation), ResourceState.ClaimedByOther,
    claim_stateOf]

end Languages

end Git
end Policy
end Marsh
