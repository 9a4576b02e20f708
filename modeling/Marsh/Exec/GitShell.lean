import Marsh.Exec.GitCommand

/-!
# Git builtins

A git builtin from its argument vector to the repository it opens and the paths
it acts on there.
-/

namespace Marsh
namespace Exec

open Library

theorem length_lt_of_parent
    {directory parent : Path}
    (above : directory.parent = some parent) :
    parent.length < directory.length := by
  rw [Path.parent] at above
  split_ifs at above with stops
  obtain rfl := Option.some.inj above
  rw [List.length_dropLast]
  have some : 0 < directory.length :=
    List.length_pos_iff.mpr (not_or.mp stops).1
  omega

/-- `repo_root`, given where a `.git` entry exists. -/
def repoRoot (hasGit : Path -> Bool) (boundary directory : Path) :
    Option Path :=
  if ¬boundary <+: directory then none
  else if hasGit directory then some directory
  else
    match _above : directory.parent with
    | none => none
    | some parent => repoRoot hasGit boundary parent
termination_by directory.length
decreasing_by exact length_lt_of_parent _above

/-- The segments of a resource of the repository. -/
def repoSegments (root absolute : Path) : Option (List Text) := do
  let segments ← relativeSegments root absolute
  if segments = [] ∨ segments.head? = some ".git".toList then none
  else some segments

/-- `repo_relative`. -/
def repoRelative (root absolute : Path) : Option Text :=
  (repoSegments root absolute).map (['/'].intercalate ·)

/-- Who a commit is attributed to. -/
structure GitEnvIdentity where
  name : Text
  email : Text
  time : Text
  deriving DecidableEq, Repr

/-- How a git builtin ends, or which invocation it runs in which repository. -/
inductive GitExecution
  | unmappable (reason : GitCmdError)
  | noRepository
  | outsideRepository (pathspec : Text)
  | badIdentity (reason : Text)
  | runs (invocation : GitInvocation) (root : Path)
      (author committer : GitEnvIdentity)
  deriving DecidableEq, Repr

/-- The paths a builtin acts on, in the order they were named. -/
def resolvePathspecs (root cwd : Path) :
    List Text -> Except Text (List Text)
  | [] => .ok []
  | pathspec :: pathspecs =>
      match repoRelative root (resolve cwd pathspec) with
      | none => .error pathspec
      | some relative => do
          let resolved ← resolvePathspecs root cwd pathspecs
          .ok (relative :: resolved)

/-- `execute`, of a shell in the directory `cwd`. -/
def execute
    (hasGit : Path -> Bool)
    (snapshotRoot : Option Text)
    (identityFromEnv : Text -> Except Text GitEnvIdentity)
    (cwd : Path)
    (argv : List Text) : GitExecution :=
  match parse argv with
  | .error reason => .unmappable reason
  | .ok invocation =>
      let boundary := (snapshotRoot.map Path.ofText).getD [.rootDir]
      match repoRoot hasGit boundary cwd with
      | none => .noRepository
      | some root =>
          match resolvePathspecs root cwd invocation.pathspecs with
          | .error pathspec => .outsideRepository pathspec
          | .ok resolved =>
              match identityFromEnv "AUTHOR".toList,
                identityFromEnv "COMMITTER".toList with
              | .ok author, .ok committer =>
                  .runs ⟨invocation.action, resolved⟩ root author committer
              | .error reason, _ => .badIdentity reason
              | _, .error reason => .badIdentity reason

/-- A builtin acts on all the paths it names, or on none. -/
theorem resolvePathspecs_eq_ok
    {root cwd : Path}
    {pathspecs resolved : List Text}
    (accepted : resolvePathspecs root cwd pathspecs = .ok resolved) :
    ∃ executed : List (List Text),
      (pathspecs.map fun pathspec =>
          repoSegments root (resolve cwd pathspec)) = executed.map some ∧
        resolved = executed.map (['/'].intercalate ·) := by
  induction pathspecs generalizing resolved with
  | nil =>
      cases accepted
      exact ⟨[], rfl, rfl⟩
  | cons pathspec pathspecs hypothesis =>
      rw [resolvePathspecs, repoRelative] at accepted
      cases found : repoSegments root (resolve cwd pathspec) with
      | none =>
          rw [found] at accepted
          cases accepted
      | some segments =>
          rw [found] at accepted
          cases later : resolvePathspecs root cwd pathspecs with
          | error refused =>
              rw [later] at accepted
              cases accepted
          | ok others =>
              rw [later] at accepted
              cases accepted
              obtain ⟨executed, rest, rfl⟩ := hypothesis later
              exact ⟨segments :: executed,
                congrArg₂ List.cons found rest, rfl⟩

/-- A builtin that runs was parsed, and every pathspec resolved. -/
theorem execute_eq_runs
    {hasGit : Path -> Bool}
    {snapshotRoot : Option Text}
    {identityFromEnv : Text -> Except Text GitEnvIdentity}
    {cwd root : Path}
    {argv : List Text}
    {invocation : GitInvocation}
    {author committer : GitEnvIdentity}
    (runs : execute hasGit snapshotRoot identityFromEnv cwd argv =
      .runs invocation root author committer) :
    ∃ requested, parse argv = .ok requested ∧
      invocation.action = requested.action ∧
      resolvePathspecs root cwd requested.pathspecs =
        .ok invocation.pathspecs := by
  unfold execute at runs
  cases parsed : parse argv with
  | error reason =>
      rw [parsed] at runs
      cases runs
  | ok requested =>
      rw [parsed] at runs
      dsimp only at runs
      split at runs
      · cases runs
      · rename_i found _
        cases resolved : resolvePathspecs found cwd requested.pathspecs with
        | error pathspec =>
            rw [resolved] at runs
            cases runs
        | ok paths =>
            rw [resolved] at runs
            dsimp only at runs
            split at runs
            · cases runs
              exact ⟨requested, rfl, rfl, resolved⟩
            · cases runs
            · cases runs

end Exec
end Marsh
