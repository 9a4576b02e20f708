import Marsh.Library.LastChange
import Marsh.Policy.Git

/-!
# Reference machine of the git policy

One resource has a row and a read claim, each overwritten by the events that
concern it.  The policy's table forbids some actions in some rows, and some
actions while another principal holds the claim.
-/

namespace Marsh
namespace Policy
namespace Git

open Library Validator

/-! ## State of one resource -/

/-- Row of a resource. -/
inductive Row
  | clean
  | staged
  | unstaged (owner : Principal)
  deriving DecidableEq, Repr

/-- The row an action of a principal leaves its resource in. -/
def Row.next (row : Row) (principal : Principal) : Action -> Row
  | .edit | .unstage => .unstaged principal
  | .stage | .delete => .staged
  | .commit _ | .checkout | .stash => .clean
  | .read | .clean | .diff | .history => row

/-- Row and read claim of a resource. -/
@[ext]
structure ResourceState where
  /-- What the last state change left. -/
  row : Row
  /-- Who read last. -/
  claim : Option Principal
  deriving DecidableEq, Repr

namespace ResourceState

/-- A resource nobody touched. -/
def initial : ResourceState where
  row := .clean
  claim := none

/-- One event on the resource. -/
def step
    (state : ResourceState)
    (principal : Principal)
    (action : Action) : ResourceState where
  row := state.row.next principal action
  claim := if action = .read then some principal else state.claim

end ResourceState

/-- One event of a history, seen from one resource. -/
def advance
    (resource : Resource)
    (state : ResourceState)
    (event : Event) : ResourceState :=
  if event.resource = resource then state.step event.principal event.action
  else state

/-- The state a history leaves a resource in. -/
def stateOf (resource : Resource) (history : List Event) : ResourceState :=
  history.foldl (advance resource) .initial

@[simp] theorem stateOf_append_singleton
    (resource : Resource)
    (history : List Event)
    (event : Event) :
    stateOf resource (history ++ [event]) =
      advance resource (stateOf resource history) event := by
  rw [stateOf, stateOf, List.foldl_append]
  rfl

/-! ## Forbidden cells -/

/-- A row as the acting principal sees it. -/
inductive RowView
  | clean
  | staged
  | unstagedSelf
  | unstagedOther
  deriving DecidableEq, Repr

/-- How a principal sees a row. -/
def Row.view (row : Row) (principal : Principal) : RowView :=
  match row with
  | .clean => .clean
  | .staged => .staged
  | .unstaged owner =>
      if owner = principal then .unstagedSelf else .unstagedOther

namespace Row

variable {row : Row} {principal : Principal}

@[simp] theorem view_eq_clean_iff :
    row.view principal = .clean ↔ row = .clean := by
  cases row with
  | clean => simp [view]
  | staged => simp [view]
  | unstaged owner => by_cases same : owner = principal <;> simp [view, same]

@[simp] theorem view_eq_staged_iff :
    row.view principal = .staged ↔ row = .staged := by
  cases row with
  | clean => simp [view]
  | staged => simp [view]
  | unstaged owner => by_cases same : owner = principal <;> simp [view, same]

@[simp] theorem view_eq_unstagedSelf_iff :
    row.view principal = .unstagedSelf ↔ row = .unstaged principal := by
  cases row with
  | clean => simp [view]
  | staged => simp [view]
  | unstaged owner => by_cases same : owner = principal <;> simp [view, same]

@[simp] theorem view_eq_unstagedOther_iff :
    row.view principal = .unstagedOther ↔
      ∃ owner, owner ≠ principal ∧ row = .unstaged owner := by
  cases row with
  | clean => simp [view]
  | staged => simp [view]
  | unstaged owner => by_cases same : owner = principal <;> simp [view, same]

end Row

/-- The row language of each view. -/
def RowView.language : RowView -> RegexExpr
  | .clean => cleanLang
  | .staged => stagedLang
  | .unstagedSelf => unstagedSelfLang
  | .unstagedOther => unstagedOtherLang

/-- The forbidden (action, row) cells with their denials. -/
def rowCell : Action -> RowView -> Option (Diagnostic GitContext)
  | .edit, .unstagedOther => some editOther
  | .checkout, .unstagedOther => some checkoutOther
  | .stage, .clean => some stageClean
  | .stage, .staged => some stageStaged
  | .stage, .unstagedOther => some stageOther
  | .stash, .clean => some stashClean
  | .stash, .staged => some stashStaged
  | .stash, .unstagedOther => some stashOther
  | .unstage, .unstagedOther => some unstageOther
  | .unstage, .clean => some unstageClean
  | .unstage, .unstagedSelf => some unstageSelf
  | .commit _, .clean => some commitClean
  | .commit _, .unstagedSelf => some commitSelf
  | .commit _, .unstagedOther => some commitOther
  | .delete, .staged => some deleteStaged
  | .delete, .unstagedSelf => some deleteSelf
  | .delete, .unstagedOther => some deleteOther
  | .clean, .unstagedOther => some cleanOther
  | _, _ => none

/-- The actions another principal's read claim forbids, with their denials. -/
def claimCell : Action -> Option (Diagnostic GitContext)
  | .edit => some editClaimed
  | .delete => some deleteClaimed
  | .clean => some cleanClaimed
  | .checkout => some checkoutClaimed
  | .stash => some stashClaimed
  | _ => none

namespace ResourceState

/-- Whether another principal read the resource last. -/
def ClaimedByOther (state : ResourceState) (principal : Principal) : Prop :=
  ∃ reader ∈ state.claim, reader ≠ principal

instance (state : ResourceState) (principal : Principal) :
    Decidable (state.ClaimedByOther principal) :=
  match state with
  | ⟨_, none⟩ => isFalse (by simp [ClaimedByOther])
  | ⟨_, some reader⟩ =>
      decidable_of_iff (reader ≠ principal) (by simp [ClaimedByOther])

/-- The forbidden cell an action meets; a row cell comes before a claim
cell. -/
def forbiddenCell
    (state : ResourceState)
    (principal : Principal)
    (action : Action) : Option (Diagnostic GitContext) :=
  (rowCell action (state.row.view principal)).or
    (if state.ClaimedByOther principal then claimCell action else none)

/-- What a denial in this state renders from. -/
def context (state : ResourceState) (candidate : Event) : GitContext where
  principal := candidate.principal.value
  resource := candidate.resource.display
  owner := match state.row with
    | .unstaged owner => owner.value
    | .clean | .staged => "another principal"
  reader := match state.claim with
    | some reader => reader.value
    | none => "another principal"

/-- The decision of the machine: deny in a forbidden cell, else grant. -/
def decide (state : ResourceState) (candidate : Event) : PolicyDecision :=
  match state.forbiddenCell candidate.principal candidate.action with
  | none => .grant
  | some denial =>
      let (failedPrecondition, allowedFixes) :=
        denial (state.context candidate)
      .deny failedPrecondition allowedFixes

end ResourceState

end Git
end Policy
end Marsh
