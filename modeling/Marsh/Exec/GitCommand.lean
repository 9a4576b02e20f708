import Marsh.Library.UnixPath

/-!
# The git command grammar

A git command line parsed to the operation it requests and the paths it names,
and paths resolved against a directory.
-/

namespace Marsh
namespace Exec

open Library

/-- A git operation the executor can perform. -/
inductive GitAction
  | stage
  | delete
  | commit (message : Option Text)
  | unstage
  | checkout
  | stash
  | clean
  | diff
  | history
  deriving DecidableEq, Repr

/-- A parsed git command line. -/
structure GitInvocation where
  action : GitAction
  pathspecs : List Text
  deriving DecidableEq, Repr

/-- Why a git command line does not name a capability. -/
inductive GitCmdError
  | noSubcommand
  | globalFlags
  | leadingArguments (subcommand : Text) (expected : Nat) (got : List Text)
  | restoreWithoutStaged
  | checkout (revision : Text)
  | stash
  | cleanWithoutForce
  | unknownSubcommand (subcommand : Text)
  | emptyPathspecs (subcommand : Text)
  | pathspecPattern (pathspec : Text)
  | commitFromFile
  | commitMessageMissing
  deriving DecidableEq, Repr

/-! ## Flags -/

/-- A flag followed by its value. -/
def takesValue (flag : Text) : Bool :=
  flag = "-m".toList || flag = "--message".toList || flag = "-F".toList ||
    flag = "--file".toList

/-- `split_flags`. -/
def splitFlags : List Text -> List Text × List Text
  | [] => ([], [])
  | [arg] => if arg.head? = some '-' then ([arg], []) else ([], [arg])
  | arg :: value :: rest =>
      if arg.head? = some '-' then
        if takesValue arg then
          let parts := splitFlags rest
          (arg :: value :: parts.1, parts.2)
        else
          let parts := splitFlags (value :: rest)
          (arg :: parts.1, parts.2)
      else
        let parts := splitFlags (value :: rest)
        (parts.1, arg :: parts.2)

/-- The message of a flag that holds one. -/
def ownMessage (flag : Text) : List Text :=
  match Text.stripPrefix "--message=".toList flag with
  | some value => [value]
  | none =>
      ((Text.stripPrefix "-m".toList flag).filter fun value => value ≠ []).toList

/-- The loop of `commit_message`. -/
def commitMessages : List Text -> Except GitCmdError (List Text)
  | [] => .ok []
  | flag :: rest =>
      if flag = "-F".toList ∨ flag = "--file".toList ∨
          "--file=".toList <+: flag then .error .commitFromFile
      else if flag = "-m".toList ∨ flag = "--message".toList then
        match rest with
        | [] => .error .commitMessageMissing
        | value :: rest => do
            let messages ← commitMessages rest
            .ok (value :: messages)
      else do
        let messages ← commitMessages rest
        .ok (ownMessage flag ++ messages)

/-- `commit_message`. -/
def commitMessage (flags : List Text) : Except GitCmdError (Option Text) := do
  let messages ← commitMessages flags
  .ok (if messages = [] then none
    else some ("\n\n".toList.intercalate messages))

/-! ## The command line -/

/-- How many leading words belong to a subcommand. -/
def reserved (subcommand : Text) : Nat :=
  if subcommand = "checkout".toList ∨ subcommand = "stash".toList then 1 else 0

/-- The flags, the leading words and the pathspecs after a subcommand. -/
def arguments (subcommand : Text) (rest : List Text) :
    List Text × List Text × List Text :=
  let separator := "--".toList
  if separator ∈ rest then
    let parts := splitFlags (rest.takeWhile (· ≠ separator))
    (parts.1, parts.2, (rest.dropWhile (· ≠ separator)).tail)
  else
    let parts := splitFlags rest
    (parts.1, parts.2.take (reserved subcommand),
      parts.2.drop (reserved subcommand))

/-- The operation of a subcommand. -/
def gitAction
    (subcommand : Text)
    (flags revisions : List Text) : Except GitCmdError GitAction :=
  let revision := revisions.headD []
  if subcommand = "add".toList ∨ subcommand = "stage".toList then .ok .stage
  else if subcommand = "rm".toList then .ok .delete
  else if subcommand = "commit".toList then (commitMessage flags).map .commit
  else if subcommand = "restore".toList then
    if "--staged".toList ∈ flags then .ok .unstage
    else .error .restoreWithoutStaged
  else if subcommand = "checkout".toList then
    if revision ≠ "HEAD".toList then .error (.checkout revision)
    else .ok .checkout
  else if subcommand = "stash".toList then
    if revision ≠ "push".toList then .error .stash else .ok .stash
  else if subcommand = "clean".toList then
    if "-f".toList ∈ flags ∨ "--force".toList ∈ flags then .ok .clean
    else .error .cleanWithoutForce
  else if subcommand = "diff".toList then .ok .diff
  else if subcommand = "log".toList then .ok .history
  else .error (.unknownSubcommand subcommand)

/-- A pathspec that is a pattern. -/
def isPattern (pathspec : Text) : Bool :=
  pathspec.any fun char => char = '*' || char = '?' || char = '['

/-- `parse`. -/
def parse (argv : List Text) : Except GitCmdError GitInvocation :=
  match argv with
  | _ :: subcommand :: rest =>
      if subcommand.head? = some '-' then .error .globalFlags
      else
        let (flags, revisions, pathspecs) := arguments subcommand rest
        if revisions.length ≠ reserved subcommand then
          .error (.leadingArguments subcommand (reserved subcommand) revisions)
        else do
          let action ← gitAction subcommand flags revisions
          if pathspecs = [] then .error (.emptyPathspecs subcommand)
          else match pathspecs.find? isPattern with
            | some pathspec => .error (.pathspecPattern pathspec)
            | none => .ok ⟨action, pathspecs⟩
  | _ => .error .noSubcommand

/-! ## Paths -/

/-- A component taken into a normalized path. -/
def resolveStep (out : Path) (component : Component) : Path :=
  match component with
  | .rootDir => [.rootDir]
  | .curDir => out
  | .parentDir => out.pop
  | .normal name => out ++ [.normal name]

/-- `resolve`. -/
def resolve (base : Path) (path : Text) : Path :=
  let joined :=
    if path.head? = some '/' then Path.ofText path
    else base.join (Path.ofText path)
  joined.foldl resolveStep []

/-- The name of a component, read as text. -/
def segment : Component -> Option Text
  | .normal name => some (Text.lossy name)
  | _ => none

/-- `relative_segments`. -/
def relativeSegments (root path : Path) : Option (List Text) :=
  (root.stripPrefix path).map fun relative => relative.filterMap segment

/-- Only the bytes of the path matter. -/
theorem resolve_eq (base : Path) (path : Text) :
    resolve base path =
      (base.join (Path.ofText path)).foldl resolveStep [] := by
  unfold resolve
  dsimp only
  split_ifs with absolute
  · have root : (Path.ofText path).head? = some .rootDir := by
      cases path with
      | nil => contradiction
      | cons char rest =>
          obtain rfl : char = '/' := Option.some.inj absolute
          rfl
    rw [Path.join, if_pos (.inl root)]
  · rfl

end Exec
end Marsh
