import Marsh.Trace.RowAgreement

/-!
# Executing a trace

What the commands of a generated trace do to a repository.  Every mutation
writes a line that names its step, so that no write gives a path content it had
before.
-/

namespace Marsh
namespace Trace

open Library Exec Validator Policy Policy.Git Gitexec

/-! ## Commands -/

/-- What `printf 'step %s\n' step` prints. -/
def stepLine (step : Nat) : Text :=
  "step ".toList ++ Nat.toDigits 10 step ++ ['\n']

/-- The directory of the pooled paths. -/
def sourceDirectory : FileName where
  bytes := Text.bytes "src".toList
  ne_nil := by decide
  not_curDir := by decide
  not_parentDir := by decide
  slash_notMem := by decide
  nul_notMem := by decide

/-- The name of a pooled path in it. -/
def fileNameFor (file : Fin maxFiles) : FileName where
  bytes := Text.bytes ("file".toList ++ Nat.toDigits 10 file ++ ".txt".toList)
  ne_nil := by revert file; decide
  not_curDir := by revert file; decide
  not_parentDir := by revert file; decide
  slash_notMem := by revert file; decide
  nul_notMem := by revert file; decide

/-- `path_for`, below the work tree. -/
def pathFor (file : Fin maxFiles) : Location :=
  [sourceDirectory, fileNameFor file]

theorem pathFor_apart :
    ∀ file other, file ≠ other -> ¬ Nested (pathFor file) (pathFor other) := by
  decide

section Commands

variable {Oid Index Tree : Type} [DecidableEq Oid]
variable (git : Libgit2 Oid Index Tree) (workdir : Location)
variable (creation : Nat) (author committer : GitEnvIdentity)

/-- A command that changes the work tree, or fails. -/
def onWorkTree
    (change : FileTree -> Except Errno FileTree)
    (state : GitState Index Tree) : Int × GitState Index Tree :=
  match change state.files with
  | .ok files => (0, { state with files })
  | .error _ => (1, state)

/-- The command that performs an operation on a pooled path at a step. -/
def commandFor
    (operation : GeneratedOperation)
    (file : Fin maxFiles)
    (step : Nat)
    (state : GitState Index Tree) : Int × GitState Index Tree :=
  let path := absolute workdir (pathFor file)
  let builtin action :=
    run git workdir creation action [pathFor file] author committer state
  match operation with
  | .create =>
      onWorkTree (fun tree => tree.write path (stepLine step).bytes creation)
        state
  | .modify =>
      onWorkTree (fun tree => tree.append path (stepLine step).bytes creation)
        state
  | .delete => onWorkTree (fun tree => tree.unlink path) state
  | .read =>
      match state.files.read path with
      | .ok content =>
          (0, { state with stdout := state.stdout ++ Text.lossy content })
      | .error _ => (1, state)
  | .stage => builtin .stage
  | .unstage => builtin .unstage
  | .commit =>
      builtin (.commit (some ("step ".toList ++ Nat.toDigits 10 step)))
  | .checkout => builtin .checkout
  | .stash => builtin .stash
  | .diff => builtin .diff
  | .history => builtin .history
  | .remove => builtin .delete
  | .clean => builtin .clean

/-- The command of one candidate. -/
def commandOf
    (candidate : Candidate)
    (state : GitState Index Tree) : Int × GitState Index Tree :=
  commandFor git workdir creation author committer candidate.operation
    candidate.file candidate.step state

/-- Runs commands in order: their exit codes, and the state they leave. -/
def execute :
    List Candidate -> GitState Index Tree -> List Int × GitState Index Tree
  | [], state => ([], state)
  | candidate :: candidates, state =>
      let (code, next) :=
        commandOf git workdir creation author committer candidate state
      let (codes, last) := execute candidates next
      (code :: codes, last)

end Commands

end Trace
end Marsh
