import Marsh.Exec.GitShell
import Marsh.Library.FileWrites
import Marsh.Shellmux.Wal

/-!
# The repository of a git builtin

What a builtin reads and writes: the commits `HEAD` and `refs/stash` name, the
index, the work tree and the two streams it prints to.  The library that keeps
the index, the trees and the objects is a parameter, with the documented
behaviour that is relied on.  An object, a reference and the index file can
always be written, and the object database keeps what it was given.
-/

namespace Marsh
namespace Gitexec

open Library Exec

/-! ## Data -/

/-- Exit code of `fatal:` conditions. -/
def fatal : Int := 128

/-- Exit code of `error:` conditions and of "nothing happened". -/
def refused : Int := 1

/-- What git records an entry as. -/
inductive FileMode
  | blob
  | blobExecutable
  | link
  | tree
  | commit
  deriving DecidableEq, Repr

/-- The number a mode is stored as. -/
def FileMode.raw : FileMode -> Nat
  | .blob => 0o100644
  | .blobExecutable => 0o100755
  | .link => 0o120000
  | .tree => 0o040000
  | .commit => 0o160000

/-- `file_mode`. -/
def fileMode (raw : Nat) : FileMode :=
  if raw = 0o120000 then .link
  else if raw = 0o100755 then .blobExecutable
  else if raw = 0o040000 then .tree
  else if raw = 0o160000 then .commit
  else .blob

@[simp] theorem fileMode_raw (mode : FileMode) : fileMode mode.raw = mode := by
  cases mode <;> rfl

/-- A mode of an entry with content of its own. -/
def FileMode.IsFile (mode : FileMode) : Prop :=
  mode = .blob ∨ mode = .blobExecutable ∨ mode = .link

instance (mode : FileMode) : Decidable mode.IsFile :=
  inferInstanceAs (Decidable (_ ∨ _ ∨ _))

/-- A path's content and mode in one of the places git tracks it. -/
structure Blob (Oid : Type) where
  /-- Object id of the content. -/
  id : Oid
  /-- Git file mode. -/
  mode : FileMode
  deriving DecidableEq, Repr

/-- Why an operation of a builtin fails. -/
inductive GitError
  | libgit2 (message : Text)
  | os (error : Errno)
  deriving DecidableEq, Repr

/-- The text an error is reported with. -/
def GitError.message : GitError -> Text
  | .libgit2 message => message
  | .os error => (Shellmux.errorText error).toList

/-- A commit. -/
structure Commit (Tree : Type) where
  tree : Tree
  parents : List (Commit Tree)
  author : GitEnvIdentity
  committer : GitEnvIdentity
  message : Text

/-- What a builtin acts on. -/
structure GitState (Index Tree : Type) where
  /-- The commit `HEAD` names; none on an unborn branch. -/
  head : Option (Commit Tree)
  /-- The short name of the current branch. -/
  branch : Text
  /-- The commit `refs/stash` names. -/
  stash : Option (Commit Tree)
  /-- The log of `refs/stash`. -/
  stashLog : List (Commit Tree × Text)
  /-- The index file. -/
  index : Index
  /-- The file system of the work tree. -/
  files : FileTree
  stdout : Text
  stderr : Text

/-- Whether two states differ in what was printed at most. -/
structure GitState.Untouched
    {Index Tree : Type}
    (state next : GitState Index Tree) : Prop where
  head : next.head = state.head
  branch : next.branch = state.branch
  stash : next.stash = state.stash
  stashLog : next.stashLog = state.stashLog
  index : next.index = state.index
  files : next.files = state.files

instance {Index Tree : Type} :
    Std.Refl (@GitState.Untouched Index Tree) where
  refl _ := ⟨rfl, rfl, rfl, rfl, rfl, rfl⟩

instance {Index Tree : Type} : IsTrans (GitState Index Tree)
    GitState.Untouched where
  trans _ _ _ first second :=
    ⟨second.head.trans first.head, second.branch.trans first.branch,
      second.stash.trans first.stash, second.stashLog.trans first.stashLog,
      second.index.trans first.index, second.files.trans first.files⟩

/-- One change to a tree: the entry a path gets, or its removal. -/
structure TreeUpdate (Oid : Type) where
  path : Location
  blob : Option (Blob Oid)
  deriving DecidableEq

/-- Whether what a tree has at a path is what an update put there. -/
def TreeUpdate.Stands
    {Oid : Type}
    (update : TreeUpdate Oid)
    (found : Option (Oid × Nat)) : Prop :=
  match update.blob with
  | some blob => found = some (blob.id, blob.mode.raw)
  | none => ∀ entry ∈ found, fileMode entry.2 = .tree

/-! ## The library -/

/-- The operations of `libgit2` the builtins use.  Paths are relative to the
work tree, and entries are read with their raw modes. -/
structure Libgit2 (Oid Index Tree : Type) where
  /-- `Repository::open`. -/
  openRepository : FileTree -> Location -> Except GitError Unit
  /-- Whether `Signature::new` takes an identity. -/
  signature : GitEnvIdentity -> Bool
  /-- `Repository::blob`, `Repository::blob_path`. -/
  blob : List UInt8 -> Oid
  /-- The content of `Repository::find_blob`. -/
  findBlob : Oid -> Except GitError (List UInt8)
  /-- Whether the index takes a path. -/
  accepts : Location -> Bool
  /-- `Index::get_path` at stage 0. -/
  indexGet : Index -> Location -> Option (Oid × Nat)
  /-- `Index::add`. -/
  indexAdd : Index -> Location -> Oid -> Nat -> Except GitError Index
  /-- `Index::add_path`, in this file system and work tree. -/
  indexAddPath : Index -> FileTree -> Location -> Location ->
    Except GitError Index
  /-- `Index::remove_path`. -/
  indexRemovePath : Index -> Location -> Except GitError Index
  /-- `Tree::get_path`. -/
  treeGet : Tree -> Location -> Option (Oid × Nat)
  /-- `Tree::id`. -/
  treeId : Tree -> Oid
  /-- `TreeUpdateBuilder::create_updated`. -/
  createUpdated : Tree -> List (TreeUpdate Oid) -> Except GitError Tree
  /-- `Commit::id`, as text. -/
  commitId : Commit Tree -> Text
  /-- `Commit::summary`. -/
  summary : Commit Tree -> Option Text
  /-- `message_prettify`. -/
  messagePrettify : Text -> Except GitError Text
  /-- What setting a reference adds to its log. -/
  logged : List (Commit Tree × Text) -> Commit Tree -> Text ->
    List (Commit Tree × Text)
  /-- The commits `Revwalk` visits from `HEAD`. -/
  revwalk : Commit Tree -> Except GitError (List (Commit Tree))
  /-- The patch of `diff_index_to_workdir` limited to some paths. -/
  printDiff : Index -> FileTree -> Location -> List Location ->
    Except GitError Text

/-- Whether one location is above the other one, or is it. -/
def Nested (path other : Location) : Prop :=
  path <+: other ∨ other <+: path

instance (path other : Location) : Decidable (Nested path other) :=
  inferInstanceAs (Decidable (_ ∨ _))

theorem Nested.symm {path other : Location} (nested : Nested path other) :
    Nested other path :=
  Or.symm nested

theorem nested_self (path : Location) : Nested path path :=
  .inl (List.prefix_refl path)

/-- The documented behaviour of `libgit2` that is relied on: the index and the
trees are maps in which a file and a directory never share a name, and objects
are named by their content. -/
structure Libgit2.Lawful
    {Oid Index Tree : Type}
    (git : Libgit2 Oid Index Tree) : Prop where
  /-- An entry replaces what was at its path, above it and below it. -/
  indexGet_add : ∀ {index path id raw next},
    git.indexAdd index path id raw = .ok next -> ∀ other,
      git.indexGet next other =
        if other = path then some (id, raw)
        else if Nested path other then none
        else git.indexGet index other
  /-- An index has no directories. -/
  fileMode_add : ∀ {index path id raw next},
    git.indexAdd index path id raw = .ok next -> fileMode raw ≠ .tree
  /-- A file is taken into the index at any path it accepts. -/
  indexAdd_ok : ∀ {index path id content} {mode : FileMode},
    git.accepts path = true -> git.findBlob id = .ok content -> mode.IsFile ->
      ∃ next, git.indexAdd index path id mode.raw = .ok next
  /-- A regular file is added with its content, executable if its owner may
  execute it. -/
  addPath_file : ∀ {index files workdir path content mode},
    files.lstat (FileTree.absolutePath (workdir ++ path)) =
        .ok (.file content mode) ->
      git.indexAddPath index files workdir path =
        git.indexAdd index path (git.blob content)
          (if mode &&& 0o100 ≠ 0 then FileMode.blobExecutable.raw
            else FileMode.blob.raw)
  /-- A symbolic link is added with its target. -/
  addPath_symlink : ∀ {index files workdir path target},
    files.lstat (FileTree.absolutePath (workdir ++ path)) =
        .ok (.symlink target) ->
      git.indexAddPath index files workdir path =
        git.indexAdd index path (git.blob target) FileMode.link.raw
  /-- Removing a path removes its entry and no other. -/
  indexGet_remove : ∀ {index path next},
    git.indexRemovePath index path = .ok next -> ∀ other,
      git.indexGet next other =
        if other = path then none else git.indexGet index other
  /-- Removing a path that has no entry is no error. -/
  indexRemovePath_ok : ∀ index path,
    ∃ next, git.indexRemovePath index path = .ok next
  /-- Nothing is below a file of a tree. -/
  treeGet_below : ∀ {tree path other id raw},
    git.treeGet tree path = some (id, raw) -> fileMode raw ≠ .tree ->
      path <+: other -> path ≠ other -> git.treeGet tree other = none
  /-- Trees are above an entry of a tree. -/
  treeGet_above : ∀ {tree path above},
    git.treeGet tree path ≠ none -> above <+: path -> above ≠ path ->
      above ≠ [] -> ∃ id, git.treeGet tree above = some (id, FileMode.tree.raw)
  /-- Trees with one id are one tree. -/
  treeGet_of_treeId : ∀ {tree other}, git.treeId tree = git.treeId other ->
    ∀ path, git.treeGet tree path = git.treeGet other path
  /-- Each path gets the entry of its updates, when they agree. -/
  treeGet_updated : ∀ {base updates next},
    git.createUpdated base updates = .ok next -> ∀ update ∈ updates,
      (∀ other ∈ updates, other.path = update.path -> other = update) ->
        update.Stands (git.treeGet next update.path)
  /-- Entries apart from those that are updated stay. -/
  treeGet_apart : ∀ {base updates next},
    git.createUpdated base updates = .ok next -> ∀ path,
      (∀ update ∈ updates, ¬ Nested update.path path) ->
        git.treeGet next path = git.treeGet base path
  /-- A file of a tree can be replaced by a file, and removed. -/
  createUpdated_ok : ∀ {base path id raw} {blob : Option (Blob Oid)},
    git.treeGet base path = some (id, raw) -> (fileMode raw).IsFile ->
      (∀ file ∈ blob, file.mode.IsFile ∧
        ∃ content, git.findBlob file.id = .ok content) ->
        ∃ next, git.createUpdated base [⟨path, blob⟩] = .ok next
  /-- A file of a tree is in the object database. -/
  findBlob_treeGet : ∀ {tree path id raw},
    git.treeGet tree path = some (id, raw) -> (fileMode raw).IsFile ->
      ∃ content, git.findBlob id = .ok content
  /-- Content is found under its id. -/
  findBlob_blob : ∀ content, git.findBlob (git.blob content) = .ok content
  /-- An id is the id of the content found under it. -/
  blob_of_findBlob : ∀ {id content},
    git.findBlob id = .ok content -> git.blob content = id
  /-- Only a message with a NUL is refused. -/
  messagePrettify_ok : ∀ message : Text, '\x00' ∉ message ->
    ∃ pretty, git.messagePrettify message = .ok pretty
  /-- The texts the library names commits with have no NUL. -/
  nul_notMem_commitId : ∀ commit, '\x00' ∉ git.commitId commit
  nul_notMem_summary : ∀ commit, ∀ summary ∈ git.summary commit,
    '\x00' ∉ summary

end Gitexec
end Marsh
