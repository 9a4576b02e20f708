import Marsh.Policy.Kernel

/-!
# Git legality as a trace policy

The multi-agent git authorization table: one-event predicates feed the four
row languages and the claim language, which feed 23 `forbid` rules, one for
each deny cell.  A commit candidate is matched through its message-less form.
-/

namespace Marsh
namespace Policy
namespace Git

open Library Validator

/-! ## Predicates -/

/-- An event that does not change the resource's state. -/
def readOnlyNotR : TestExpr :=
  .or [resourceIs .neq,
    actionIs .read .eq,
    actionIs .diff .eq,
    actionIs .history .eq,
    actionIs .clean .eq]

/-- A `stage` or `delete` of the resource. -/
def stageDeleteOnR : TestExpr :=
  .and [resourceIs .eq,
    .or [actionIs .stage .eq, actionIs .delete .eq]]

/-- An `edit` or `unstage` of the resource by the acting principal. -/
def editUnstageOnROnP : TestExpr :=
  .and [resourceIs .eq,
    .or [actionIs .edit .eq, actionIs .unstage .eq],
    principalIs .eq]

/-- An `edit` or `unstage` of the resource by another principal. -/
def editUnstageOnRNotP : TestExpr :=
  .and [resourceIs .eq,
    .or [actionIs .edit .eq, actionIs .unstage .eq],
    principalIs .neq]

/-- An event on the resource that is none of the eight listed actions: a
commit with any message, a checkout or a stash. -/
def commitCheckoutStashOnR : TestExpr :=
  .and [resourceIs .eq,
    actionIs .read .neq,
    actionIs .diff .neq,
    actionIs .history .neq,
    actionIs .edit .neq,
    actionIs .stage .neq,
    actionIs .unstage .neq,
    actionIs .delete .neq,
    actionIs .clean .neq]

/-- A `read` of the resource by another principal. -/
def readOnRNotP : TestExpr :=
  .and [resourceIs .eq, actionIs .read .eq, principalIs .neq]

/-- Any event that is not a `read` of the resource. -/
def notReadOnR : TestExpr :=
  .or [resourceIs .neq, actionIs .read .neq]

/-! ## Languages -/

/-- Never a state change of the resource, or the last one settled it. -/
def cleanLang : RegexExpr :=
  .union [neverStateChange readOnlyNotR,
    lastStateChange commitCheckoutStashOnR readOnlyNotR]

/-- The last state change of the resource is a stage or a delete. -/
def stagedLang : RegexExpr :=
  lastStateChange stageDeleteOnR readOnlyNotR

/-- The last state change is an edit or unstage by the acting principal. -/
def unstagedSelfLang : RegexExpr :=
  lastStateChange editUnstageOnROnP readOnlyNotR

/-- The last state change is an edit or unstage by another principal. -/
def unstagedOtherLang : RegexExpr :=
  lastStateChange editUnstageOnRNotP readOnlyNotR

/-- The last `read` of the resource was by another principal. -/
def readClaimedOtherLang : RegexExpr :=
  lastStateChange readOnRNotP notReadOnR

/-! ## Diagnostics -/

/-- The at-most-two events still active for one resource, as indices into a
history. -/
structure Claims where
  /-- The latest event that defines the row, if it is not settled. -/
  row : Option Nat
  /-- The latest event that claims a read. -/
  read : Option Nat
  deriving DecidableEq, Repr

/-- Applies one event's transition to the claims of its resource. -/
def Claims.apply (claims : Claims) (action : Action) (index : Nat) : Claims :=
  match action with
  | .edit | .unstage | .stage | .delete => { claims with row := some index }
  | .commit _ | .checkout | .stash => { claims with row := none }
  | .read => { claims with read := some index }
  | .clean | .diff | .history => claims

/-- Folds the claims a history leaves on one resource. -/
def claimsFor (history : List Event) (resource : Resource) : Claims :=
  history.zipIdx.foldl
    (fun claims (event, index) =>
      if event.resource = resource then claims.apply event.action index
      else claims)
    { row := none, read := none }

/-- What a denial renders from. -/
structure GitContext where
  /-- Who acted. -/
  principal : String
  /-- On what, as display text. -/
  resource : String
  /-- Who holds the resource dirty. -/
  owner : String
  /-- Who holds the read claim. -/
  reader : String
  deriving DecidableEq, Repr

/-- Builds the context of a candidate from the claims on its resource. -/
def gitContext (history : List Event) (candidate : Event) : GitContext :=
  let claims := claimsFor history candidate.resource
  let owner := (claims.row.bind fun index => history[index]?)
    |>.filter (fun event => event.action matches .edit | .unstage)
    |>.map (fun event => event.principal.value)
  let reader := (claims.read.bind fun index => history[index]?)
    |>.map (fun event => event.principal.value)
  { principal := candidate.principal.value
    resource := candidate.resource.display
    owner := owner.getD "another principal"
    reader := reader.getD "another principal" }

/-- Owner-protection fixes shared by every foreign-owner cell. -/
def opf (p r q : String) : List String :=
  [s!"{q} stage {r}",
    s!"{q} checkout {r}",
    s!"{q} stash {r}",
    s!"{p} only reads, diffs, or histories {r}"]

/-- Read-claim fixes shared by every outstanding-read cell. -/
def rcf (p r : String) : List String :=
  [s!"{p} read {r}"]

/-! ## Denials of the cells -/

/-- 1. edit on a resource unstaged by another principal. -/
def editOther : Diagnostic GitContext :=
  fun ⟨p, r, q, _⟩ =>
    (s!"{r} is unstaged by {q}; {p} may read, diff, or history it but may not " ++
      "edit it",
      opf p r q)

/-- 2. checkout of a resource unstaged by another principal. -/
def checkoutOther : Diagnostic GitContext :=
  fun ⟨p, r, q, _⟩ =>
    (s!"{r} is unstaged by {q}; checkout would discard or replace {q}'s dirty " ++
      "resource",
      opf p r q)

/-- 3. stage of a clean resource. -/
def stageClean : Diagnostic GitContext :=
  fun ⟨p, r, _, _⟩ =>
    ("stage requires an unstaged resource owned by the acting principal",
      [s!"{p} edit {r} before staging"])

/-- 4. stage of an already-staged resource. -/
def stageStaged : Diagnostic GitContext :=
  fun ⟨p, r, _, _⟩ =>
    ("stage requires an unstaged resource owned by the acting principal",
      [s!"{p} unstage {r} before staging again"])

/-- 5. stage of a resource unstaged by another principal. -/
def stageOther : Diagnostic GitContext :=
  fun ⟨p, r, q, _⟩ =>
    (s!"{r} is unstaged by {q}; only {q} may stage it",
      opf p r q)

/-- 6. stash of a clean resource. -/
def stashClean : Diagnostic GitContext :=
  fun ⟨p, r, _, _⟩ =>
    ("stash requires an unstaged resource owned by the acting principal",
      [s!"{p} edit {r} before stashing"])

/-- 7. stash of an already-staged resource. -/
def stashStaged : Diagnostic GitContext :=
  fun ⟨p, r, _, _⟩ =>
    ("stash requires an unstaged resource owned by the acting principal",
      [s!"{p} unstage {r} before stashing"])

/-- 8. stash of a resource unstaged by another principal. -/
def stashOther : Diagnostic GitContext :=
  fun ⟨p, r, q, _⟩ =>
    (s!"{r} is unstaged by {q}; only {q} may stash it",
      opf p r q)

/-- 9. unstage of a resource unstaged by another principal. -/
def unstageOther : Diagnostic GitContext :=
  fun ⟨p, r, q, _⟩ =>
    ("unstage requires a staged resource",
      opf p r q)

/-- 10. unstage of a clean resource. -/
def unstageClean : Diagnostic GitContext :=
  fun ⟨p, r, _, _⟩ =>
    ("unstage requires a staged resource",
      [s!"{p} stage {r} before unstaging"])

/-- 11. unstage of a resource unstaged by the acting principal. -/
def unstageSelf : Diagnostic GitContext :=
  fun ⟨p, r, _, _⟩ =>
    ("unstage requires a staged resource",
      [s!"{p} stage {r} before unstaging"])

/-- 12. commit of a clean resource. -/
def commitClean : Diagnostic GitContext :=
  fun ⟨p, r, _, _⟩ =>
    ("commit requires a staged resource",
      [s!"{p} edit {r}",
        s!"{p} stage {r} before committing"])

/-- 13. commit of a resource unstaged by the acting principal. -/
def commitSelf : Diagnostic GitContext :=
  fun ⟨p, r, _, _⟩ =>
    ("commit requires a staged resource",
      [s!"{p} stage {r} before committing"])

/-- 14. commit of a resource unstaged by another principal. -/
def commitOther : Diagnostic GitContext :=
  fun ⟨p, r, q, _⟩ =>
    ("commit requires a staged resource",
      opf p r q)

/-- 15. delete of a staged resource. -/
def deleteStaged : Diagnostic GitContext :=
  fun ⟨p, r, _, _⟩ =>
    ("delete requires a resource with no staged or unstaged changes",
      [s!"{p} commit {r} before deleting",
        s!"{p} checkout {r} before deleting"])

/-- 16. delete of a resource unstaged by the acting principal. -/
def deleteSelf : Diagnostic GitContext :=
  fun ⟨p, r, _, _⟩ =>
    ("delete requires a resource with no staged or unstaged changes",
      [s!"{p} checkout {r} before deleting",
        s!"{p} stash {r} before deleting"])

/-- 17. delete of a resource unstaged by another principal. -/
def deleteOther : Diagnostic GitContext :=
  fun ⟨p, r, q, _⟩ =>
    (s!"{r} is unstaged by {q}; delete would discard {q}'s dirty resource",
      opf p r q)

/-- 18. clean of a resource unstaged by another principal. -/
def cleanOther : Diagnostic GitContext :=
  fun ⟨p, r, q, _⟩ =>
    (s!"{r} is unstaged by {q}; clean would discard {q}'s dirty resource",
      opf p r q)

/-- Denial shared by the claim cells; `doing` ends the precondition. -/
def lastReadBy (doing : String) : Diagnostic GitContext :=
  fun ⟨p, r, _, s⟩ =>
    (s!"{r} was last read by {s}; {p} must read it before {doing}",
      rcf p r)

/-- 19. edit of a resource another principal last read. -/
def editClaimed : Diagnostic GitContext :=
  lastReadBy "editing it"

/-- 20. delete of a resource another principal last read. -/
def deleteClaimed : Diagnostic GitContext :=
  lastReadBy "deleting it"

/-- 21. clean of a resource another principal last read. -/
def cleanClaimed : Diagnostic GitContext :=
  lastReadBy "cleaning it"

/-- 22. checkout of a resource another principal last read. -/
def checkoutClaimed : Diagnostic GitContext :=
  lastReadBy "checking it out"

/-- 23. stash of a resource another principal last read. -/
def stashClaimed : Diagnostic GitContext :=
  lastReadBy "stashing it"

/-! ## Rules -/

/-- Row cells 1-2. -/
def editAndCheckoutRowRules : List (PolicyRule GitContext) :=
  [forbid .edit unstagedOtherLang editOther,
    forbid .checkout unstagedOtherLang checkoutOther]

/-- Row cells 3-5. -/
def stageRowRules : List (PolicyRule GitContext) :=
  [forbid .stage cleanLang stageClean,
    forbid .stage stagedLang stageStaged,
    forbid .stage unstagedOtherLang stageOther]

/-- Row cells 6-8. -/
def stashRowRules : List (PolicyRule GitContext) :=
  [forbid .stash cleanLang stashClean,
    forbid .stash stagedLang stashStaged,
    forbid .stash unstagedOtherLang stashOther]

/-- Row cells 9-11. -/
def unstageRowRules : List (PolicyRule GitContext) :=
  [forbid .unstage unstagedOtherLang unstageOther,
    forbid .unstage cleanLang unstageClean,
    forbid .unstage unstagedSelfLang unstageSelf]

/-- Row cells 12-14. -/
def commitRowRules : List (PolicyRule GitContext) :=
  [forbid (.commit none) cleanLang commitClean,
    forbid (.commit none) unstagedSelfLang commitSelf,
    forbid (.commit none) unstagedOtherLang commitOther]

/-- Row cells 15-18. -/
def deleteAndCleanRowRules : List (PolicyRule GitContext) :=
  [forbid .delete stagedLang deleteStaged,
    forbid .delete unstagedSelfLang deleteSelf,
    forbid .delete unstagedOtherLang deleteOther,
    forbid .clean unstagedOtherLang cleanOther]

/-- Claim cells 19-23. -/
def readClaimRules : List (PolicyRule GitContext) :=
  [forbid .edit readClaimedOtherLang editClaimed,
    forbid .delete readClaimedOtherLang deleteClaimed,
    forbid .clean readClaimedOtherLang cleanClaimed,
    forbid .checkout readClaimedOtherLang checkoutClaimed,
    forbid .stash readClaimedOtherLang stashClaimed]

/-- The git legality table: row cells before claim cells. -/
def gitRules : List (PolicyRule GitContext) :=
  editAndCheckoutRowRules ++ stageRowRules ++ stashRowRules ++
    unstageRowRules ++ commitRowRules ++ deleteAndCleanRowRules ++
    readClaimRules

/-! ## Decisions -/

section Order

variable [LinearOrder TestNode] [LinearOrder Regex] [LinearOrder TransitionNode]

/-- Compiled git policy, reusable across candidate decisions. -/
structure GitPolicy where
  /-- The compiled table. -/
  compiled : CompiledPolicy GitContext

/-- Builds and compiles the git policy; `none` is the panic on a table that
does not compile. -/
def GitPolicy.new : Option GitPolicy := do
  match ← CompiledPolicy.new gitRules with
  | .error _ => none
  | .ok compiled => pure ⟨compiled⟩

/-- The candidate form rule heads match: commit messages are dropped. -/
def probeOf (candidate : Event) : Event :=
  match candidate.action with
  | .commit _ => { candidate with action := .commit none }
  | _ => candidate

/-- Decides one candidate against a history. -/
def GitPolicy.decide
    (policy : GitPolicy)
    (history : List Event)
    (candidate : Event) : Option (PolicyDecision × GitPolicy) := do
  let (decision, compiled) ← policy.compiled.decide history (probeOf candidate)
    (gitContext history candidate)
  pure (decision, ⟨compiled⟩)

/-- Decides one candidate with a policy compiled for this call only. -/
def gitDecision
    (history : List Event)
    (candidate : Event) : Option PolicyDecision := do
  let policy ← GitPolicy.new
  let (decision, _) ← policy.decide history candidate
  pure decision

end Order

end Git
end Policy
end Marsh
