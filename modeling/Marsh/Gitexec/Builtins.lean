import Marsh.Library.EarlyReturn
import Marsh.Gitexec.Repository

/-!
# Git builtins

The operations of the git builtins on a repository: what each checks of the
paths it is given, and what it then does to the index, the work tree, `HEAD`
and `refs/stash`.
-/

namespace Marsh
namespace Gitexec

open Library Exec
open Operation

/-- An operation of a builtin. -/
abbrev GitOperation (Index Tree α : Type) :=
  Operation (GitState Index Tree) GitError α

/-- How a pathspec is spelled. -/
def specText (spec : Location) : Text :=
  ['/'].intercalate (spec.map fun name => Text.lossy name.bytes)

/-- `lines`: a carriage return before a newline belongs to it. -/
def lines (text : Text) : List Text :=
  let pieces := text.splitOn '\n'
  let ended := pieces.dropLast.map fun line =>
    if line.getLast? = some '\r' then line.dropLast else line
  ended ++ pieces.getLast?.toList.filter (· ≠ [])

/-! ## Parts -/

section Parts

variable {Index Tree α : Type}

/-- Prints a line. -/
def println (line : Text) : GitOperation Index Tree Unit :=
  change fun state => .ok { state with stdout := state.stdout ++ line ++ ['\n'] }

/-- Prints a line of an error. -/
def eprintln (line : Text) : GitOperation Index Tree Unit :=
  change fun state => .ok { state with stderr := state.stderr ++ line ++ ['\n'] }

/-- An operation on the file system. -/
def onFiles (action : FileOperation α) : GitOperation Index Tree α :=
  fun state =>
    ((action state.files).1.mapError .os,
      { state with files := (action state.files).2 })

/-- `Index::write`. -/
def writeIndex (index : Index) : GitOperation Index Tree Unit :=
  change fun state => .ok { state with index }

/-- The path of a pathspec in a work tree. -/
def absolute (workdir spec : Location) : Path :=
  FileTree.absolutePath (workdir ++ spec)

/-- Whether a pathspec names an entry of the work tree. -/
def present (workdir spec : Location) : GitOperation Index Tree Bool :=
  look fun state => .ok (state.files.lstat (absolute workdir spec)).isOk

/-- Removes the entry of a pathspec, if there is one. -/
def removeFile (workdir spec : Location) : GitOperation Index Tree Unit := do
  if ← present workdir spec then
    onFiles (change fun tree => tree.unlink (absolute workdir spec))

/-- `is_executable`. -/
def isExecutable (mode : Nat) : Bool :=
  mode &&& 0o111 ≠ 0

end Parts

section Builtins

variable {Oid Index Tree : Type} [DecidableEq Oid]
variable (git : Libgit2 Oid Index Tree) (workdir : Location)

/-- `head_tree`. -/
def headTree (state : GitState Index Tree) : Option Tree :=
  state.head.map Commit.tree

/-- `branch_name`. -/
def branchName (state : GitState Index Tree) : Text :=
  if state.head.isSome then state.branch else "HEAD".toList

/-- `tree_blob`. -/
def treeBlob (tree : Tree) (spec : Location) : Option (Blob Oid) :=
  (git.treeGet tree spec).map fun entry => ⟨entry.1, fileMode entry.2⟩

/-- `index_blob`. -/
def indexBlob (index : Index) (spec : Location) : Option (Blob Oid) :=
  (git.indexGet index spec).map fun entry => ⟨entry.1, fileMode entry.2⟩

/-- `worktree_blob`. -/
def worktreeBlob
    (files : FileTree)
    (spec : Location) : Except GitError (Option (Blob Oid)) :=
  let path := absolute workdir spec
  match files.lstat path with
  | .error .notFound => .ok none
  | .error error => .error (.os error)
  | .ok (.symlink _) =>
      match files.readLink path with
      | .error error => .error (.os error)
      | .ok target => .ok (some ⟨git.blob target, .link⟩)
  | .ok (.file _ mode) =>
      match files.read path with
      | .error error => .error (.os error)
      | .ok content =>
          .ok (some ⟨git.blob content,
            if isExecutable mode then .blobExecutable else .blob⟩)
  | .ok .directory | .ok (.other _) => .ok none

/-- `short`. -/
def short (id : Text) : Text := id.take 7

/-- `index.add` of an `index_entry`. -/
def addEntry
    (spec : Location)
    (blob : Blob Oid)
    (index : Index) : Except GitError Index :=
  git.indexAdd index spec blob.id blob.mode.raw

/-- `write_blob`.  A file is made with the permission bits `creation` before it
gets its own. -/
def writeBlob
    (creation : Nat)
    (spec : Location)
    (blob : Blob Oid) : GitOperation Index Tree Unit := do
  let path := absolute workdir spec
  onFiles (FileOperation.createDirAll (absolute workdir spec.dropLast))
  let content ← look fun _ => git.findBlob blob.id
  if blob.mode = .link then
    removeFile workdir spec
    onFiles (change fun tree => tree.symlink (Text.lossy content).bytes path)
  else
    onFiles (change fun tree => tree.write path content creation)
    onFiles (change fun tree => tree.setPermissions path
      (if blob.mode = .blobExecutable then 0o755 else 0o644))

/-! ## `git add` -/

/-- One pathspec of `stage`. -/
def stageEach
    (spec : Location)
    (index : Index) : GitOperation Index Tree (Except Int Index) := do
  if ← present workdir spec then
    let next ← look fun state => git.indexAddPath index state.files workdir spec
    return .ok next
  else if (git.indexGet index spec).isSome then
    let next ← look fun _ => git.indexRemovePath index spec
    return .ok next
  else
    eprintln ("fatal: pathspec '".toList ++ specText spec ++
      "' did not match any files".toList)
    return .error fatal

/-- `stage`: the index becomes the work tree, for each pathspec. -/
def stage (specs : List Location) : GitOperation Index Tree Int := do
  let index ← look fun state => .ok state.index
  match ← forEach (stageEach git workdir) specs index with
  | .error code => return code
  | .ok index => do
      writeIndex index
      return 0

/-! ## `git rm` -/

/-- Why the removal of a file would lose work, and how to force it. -/
def refusal (stagedChanges localChanges : Bool) : Option (String × String) :=
  match stagedChanges, localChanges with
  | true, true =>
      some ("the following file has staged content different from both the\n" ++
          "file and the HEAD:",
        "(use -f to force removal)")
  | true, false =>
      some ("the following file has changes staged in the index:",
        "(use --cached to keep the file, or -f to force removal)")
  | false, true =>
      some ("the following file has local modifications:",
        "(use --cached to keep the file, or -f to force removal)")
  | false, false => none

/-- What is checked of one pathspec of `delete`. -/
def deleteCheck
    (index : Index)
    (head : Option Tree)
    (spec : Location)
    (done : Unit) : GitOperation Index Tree (Except Int Unit) := do
  match indexBlob git index spec with
  | none => do
      eprintln ("fatal: pathspec '".toList ++ specText spec ++
        "' did not match any files".toList)
      return .error fatal
  | some staged => do
      let committed := head.bind fun tree => treeBlob git tree spec
      let working ← look fun state => worktreeBlob git workdir state.files spec
      match working.bind fun working =>
          refusal (committed ≠ some staged) (working ≠ staged) with
      | some (reason, hint) => do
          eprintln ("error: ".toList ++ reason.toList ++ "\n    ".toList ++
            specText spec ++ ['\n'] ++ hint.toList)
          return .error refused
      | none => return .ok done

/-- What is done for one pathspec of `delete`. -/
def deleteEach
    (spec : Location)
    (index : Index) : GitOperation Index Tree (Except Int Index) := do
  removeFile workdir spec
  let next ← look fun _ => git.indexRemovePath index spec
  println ("rm '".toList ++ specText spec ++ ['\''])
  return .ok next

/-- `delete`: work tree and index entry both go away, unless that would lose
work. -/
def delete (specs : List Location) : GitOperation Index Tree Int := do
  let index ← look fun state => .ok state.index
  let head ← look fun state => .ok (headTree state)
  match ← forEach (deleteCheck git workdir index head) specs () with
  | .error code => return code
  | .ok _ => do
      match ← forEach (deleteEach git workdir) specs index with
      | .error code => return code
      | .ok index => do
          writeIndex index
          return 0

/-! ## `git commit` -/

/-- The update one pathspec of `commit` makes. -/
def commitEach
    (index : Index)
    (base : Tree)
    (spec : Location)
    (updates : List (TreeUpdate Oid)) :
    GitOperation Index Tree (Except Int (List (TreeUpdate Oid))) := do
  if (git.indexGet index spec).isSome || (treeBlob git base spec).isSome then
    let blob ← look fun state => worktreeBlob git workdir state.files spec
    return .ok (updates ++ [⟨spec, blob⟩])
  else
    eprintln ("error: pathspec '".toList ++ specText spec ++
      "' did not match any file(s) known to git".toList)
    return .error refused

/-- One pathspec of a commit, in the index. -/
def indexEach
    (spec : Location)
    (index : Index) : GitOperation Index Tree (Except Int Index) := do
  if ← present workdir spec then
    let next ← look fun state => git.indexAddPath index state.files workdir spec
    return .ok next
  else
    let next ← look fun _ => git.indexRemovePath index spec
    return .ok next

/-- `commit`: commits the work tree's state of the named paths. -/
def commit
    (specs : List Location)
    (message : Option Text)
    (author committer : GitEnvIdentity) : GitOperation Index Tree Int := do
  match message with
  | none => do
      eprintln "fatal: no commit message".toList
      return fatal
  | some message => do
      let message ← look fun _ => git.messagePrettify message
      match ← look fun state => .ok state.head with
      | none => do
          eprintln "fatal: could not resolve 'HEAD'".toList
          return fatal
      | some parent => do
          let index ← look fun state => .ok state.index
          match ← forEach (commitEach git workdir index parent.tree) specs [] with
          | .error code => return code
          | .ok updates => do
              let tree ← look fun _ => git.createUpdated parent.tree updates
              if git.treeId tree = git.treeId parent.tree then
                println "no changes added to commit".toList
                return refused
              else
                let made : Commit Tree :=
                  { tree, parents := [parent], author, committer, message }
                change fun state => .ok { state with head := some made }
                match ← forEach (indexEach git workdir) specs index with
                | .error code => return code
                | .ok index => do
                    writeIndex index
                    let branch ← look fun state => .ok (branchName state)
                    println (['['] ++ branch ++ [' '] ++
                      short (git.commitId made) ++ "] ".toList ++
                      (lines message).headD [])
                    return 0

/-! ## `git restore --staged` -/

/-- One pathspec of `unstage`. -/
def unstageEach
    (head : Option Tree)
    (spec : Location)
    (index : Index) : GitOperation Index Tree (Except Int Index) := do
  match head.bind fun tree => treeBlob git tree spec with
  | some blob => do
      let next ← look fun _ => addEntry git spec blob index
      return .ok next
  | none =>
      if (git.indexGet index spec).isSome then
        let next ← look fun _ => git.indexRemovePath index spec
        return .ok next
      else
        eprintln ("error: pathspec '".toList ++ specText spec ++
          "' did not match any file(s) known to git".toList)
        return .error refused

/-- `unstage`: the index becomes `HEAD`, for each pathspec. -/
def unstage (specs : List Location) : GitOperation Index Tree Int := do
  let index ← look fun state => .ok state.index
  let head ← look fun state => .ok (headTree state)
  match ← forEach (unstageEach git head) specs index with
  | .error code => return code
  | .ok index => do
      writeIndex index
      return 0

/-! ## `git checkout HEAD` -/

/-- What one pathspec of `checkout` is restored to. -/
def restorableEach
    (head : Option Tree)
    (spec : Location)
    (restorable : List (Location × Blob Oid)) :
    GitOperation Index Tree (Except Int (List (Location × Blob Oid))) := do
  match head.bind fun tree => treeBlob git tree spec with
  | some blob => return .ok (restorable ++ [(spec, blob)])
  | none => do
      eprintln ("error: pathspec '".toList ++ specText spec ++
        "' did not match any file(s) known to git".toList)
      return .error refused

/-- Restores one path. -/
def checkoutEach
    (creation : Nat)
    (restored : Location × Blob Oid)
    (index : Index) : GitOperation Index Tree (Except Int Index) := do
  writeBlob git workdir creation restored.1 restored.2
  let next ← look fun _ => addEntry git restored.1 restored.2 index
  return .ok next

/-- `checkout`: work tree and index both become `HEAD`. -/
def checkout
    (creation : Nat)
    (specs : List Location) : GitOperation Index Tree Int := do
  let index ← look fun state => .ok state.index
  let head ← look fun state => .ok (headTree state)
  match ← forEach (restorableEach git head) specs [] with
  | .error code => return code
  | .ok restorable => do
      match ← forEach (checkoutEach git workdir creation) restorable index with
      | .error code => return code
      | .ok index => do
          writeIndex index
          return 0

/-! ## `git stash push` -/

/-- The states of one path that a stash saves. -/
structure StashedState (Oid : Type) where
  spec : Location
  staged : Blob Oid
  working : Option (Blob Oid)
  deriving DecidableEq

/-- What one pathspec of `stash` saves, and whether anything differs so far. -/
def stashCheck
    (index : Index)
    (base : Tree)
    (spec : Location)
    (found : List (StashedState Oid) × Bool) :
    GitOperation Index Tree (Except Int (List (StashedState Oid) × Bool)) := do
  match indexBlob git index spec with
  | none => do
      eprintln ("error: pathspec '".toList ++ specText spec ++
        "' did not match any file(s) known to git\n".toList ++
        "Did you forget to 'git add'?".toList)
      return .error refused
  | some staged => do
      let committed := treeBlob git base spec
      let working ← look fun state => worktreeBlob git workdir state.files spec
      return .ok (found.1 ++ [⟨spec, staged, working⟩],
        found.2 || committed ≠ some staged || working ≠ some staged)

/-- Takes one stashed path back to `HEAD`. -/
def stashEach
    (creation : Nat)
    (base : Tree)
    (saved : StashedState Oid)
    (index : Index) : GitOperation Index Tree (Except Int Index) := do
  match treeBlob git base saved.spec with
  | some blob => do
      writeBlob git workdir creation saved.spec blob
      let next ← look fun _ => addEntry git saved.spec blob index
      return .ok next
  | none => do
      removeFile workdir saved.spec
      let next ← look fun _ => git.indexRemovePath index saved.spec
      return .ok next

/-- Sets `refs/stash`, and logs it if that did not. -/
def setStash (made : Commit Tree) (message : Text) :
    GitOperation Index Tree Unit :=
  change fun state =>
    let log := git.logged state.stashLog made message
    .ok { state with
      stash := some made
      stashLog := if log = [] then [(made, message)] else log }

/-- `stash`: the named paths' work tree and index state moves to `refs/stash`,
and they go back to `HEAD`. -/
def stash
    (creation : Nat)
    (specs : List Location)
    (committer : GitEnvIdentity) : GitOperation Index Tree Int := do
  match ← look fun state => .ok state.head with
  | none => do
      eprintln "fatal: could not resolve 'HEAD'".toList
      return fatal
  | some parent => do
      let index ← look fun state => .ok state.index
      match ← forEach (stashCheck git workdir index parent.tree) specs
          ([], false) with
      | .error code => return code
      | .ok (states, dirty) =>
          if dirty then do
            let branch ← look fun state => .ok (branchName state)
            let label := "on ".toList ++ branch ++ ": ".toList ++
              short (git.commitId parent) ++ [' '] ++
              (git.summary parent).getD []
            let stagedTree ← look fun _ => git.createUpdated parent.tree
              (states.map fun saved => ⟨saved.spec, some saved.staged⟩)
            let stagedMessage ← look fun _ =>
              git.messagePrettify ("index ".toList ++ label)
            let stagedCommit : Commit Tree :=
              { tree := stagedTree, parents := [parent], author := committer
                committer, message := stagedMessage }
            let workingTree ← look fun _ => git.createUpdated parent.tree
              (states.map fun saved => ⟨saved.spec, saved.working⟩)
            let message ← look fun _ =>
              git.messagePrettify ("WIP ".toList ++ label)
            let workingCommit : Commit Tree :=
              { tree := workingTree, parents := [parent, stagedCommit]
                author := committer, committer, message }
            setStash git workingCommit message
            match ← forEach (stashEach git workdir creation parent.tree) states
                index with
            | .error code => return code
            | .ok index => do
                writeIndex index
                println ("Saved working directory and index state ".toList ++
                  message)
                return 0
          else do
            println "No local changes to save".toList
            return 0

/-! ## `git clean -f` -/

/-- One pathspec of `clean`. -/
def cleanEach
    (index : Index)
    (spec : Location)
    (done : Unit) : GitOperation Index Tree (Except Int Unit) := do
  if (git.indexGet index spec).isNone && (← present workdir spec) then
    onFiles (change fun tree => tree.unlink (absolute workdir spec))
    println ("Removing ".toList ++ specText spec)
    return .ok done
  else
    return .ok done

/-- `clean`: untracked content at the named paths is deleted. -/
def clean (specs : List Location) : GitOperation Index Tree Int := do
  let index ← look fun state => .ok state.index
  match ← forEach (cleanEach git workdir index) specs () with
  | .error code => return code
  | .ok _ => return 0

/-! ## `git diff` and `git log` -/

/-- `diff`. -/
def diff (specs : List Location) : GitOperation Index Tree Int := do
  let patch ← look fun state =>
    git.printDiff state.index state.files workdir specs
  change fun state => .ok { state with stdout := state.stdout ++ patch }
  return 0

/-- Whether one of the named paths changed in a commit. -/
def touched (specs : List Location) (commit : Commit Tree) : Bool :=
  specs.any fun spec =>
    let here := treeBlob git commit.tree spec
    if commit.parents.isEmpty then here.isSome
    else commit.parents.all fun parent => treeBlob git parent.tree spec ≠ here

/-- The lines a commit is listed with. -/
def commitText (commit : Commit Tree) : Text :=
  "commit ".toList ++ git.commitId commit ++ "\nAuthor: ".toList ++
    commit.author.name ++ " <".toList ++ commit.author.email ++
    ">\n\n".toList ++
    ((lines commit.message).flatMap fun line =>
      "    ".toList ++ line ++ ['\n']) ++ ['\n']

/-- `history`. -/
def history (specs : List Location) : GitOperation Index Tree Int := do
  match ← look fun state => .ok state.head with
  | none => return 0
  | some head => do
      let commits ← look fun _ => git.revwalk head
      let listed := (commits.filter (touched git specs)).flatMap
        (commitText git)
      change fun state => .ok { state with stdout := state.stdout ++ listed }
      return 0

/-! ## Running a builtin -/

/-- The operation of an action. -/
def perform
    (creation : Nat)
    (action : GitAction)
    (specs : List Location)
    (author committer : GitEnvIdentity) : GitOperation Index Tree Int :=
  match action with
  | .stage => stage git workdir specs
  | .delete => delete git workdir specs
  | .commit message => commit git workdir specs message author committer
  | .unstage => unstage git specs
  | .checkout => checkout git workdir creation specs
  | .stash => stash git workdir creation specs committer
  | .clean => clean git workdir specs
  | .diff => diff git workdir specs
  | .history => history git specs

/-- `run`: the exit code of one invocation, and the state it leaves. -/
def run
    (creation : Nat)
    (action : GitAction)
    (specs : List Location)
    (author committer : GitEnvIdentity)
    (state : GitState Index Tree) : Int × GitState Index Tree :=
  let failing (line : Text) (state : GitState Index Tree) :
      Int × GitState Index Tree :=
    (fatal, { state with stderr := state.stderr ++ line ++ ['\n'] })
  match git.openRepository state.files workdir with
  | .error error =>
      failing ("fatal: not a git repository: ".toList ++ error.message) state
  | .ok () =>
      if git.signature author && git.signature committer then
        match perform git workdir creation action specs author committer state
          with
        | (.ok code, next) => (code, next)
        | (.error error, next) =>
            failing ("fatal: ".toList ++ error.message) next
      else
        failing "fatal: invalid author or committer identity".toList state

end Builtins

end Gitexec
end Marsh
