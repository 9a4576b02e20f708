import Marsh.Library.FileOperations
import Marsh.Shellmux.Authority

/-!
# The file moves a log replays

A write copies an entry into a temporary beside its destination and renames it
there; a removal prunes the directories it empties.
-/

namespace Marsh
namespace Shellmux

open Library

/-- Suffix of the temporaries a write lands through. -/
def temporarySuffix : Text := ".tmp-wal".toList

/-- How an error of the system is worded. -/
def errorText : Errno -> String
  | .notFound => "No such file or directory (os error 2)"
  | .alreadyExists => "File exists (os error 17)"
  | .notDirectory => "Not a directory (os error 20)"
  | .isDirectory => "Is a directory (os error 21)"
  | .notEmpty => "Directory not empty (os error 39)"
  | .tooManyLinks => "Too many levels of symbolic links (os error 40)"
  | .nameTooLong => "File name too long (os error 36)"
  | .permissionDenied => "Permission denied (os error 13)"
  | .invalidInput => "invalid input parameter"

/-- An operation on the trees of a session. -/
abbrev SeedOperation (α : Type) := Operation FileTree MuxError α

namespace Wal

open Operation

/-- An error of the system, as it is passed on. -/
def io (error : Errno) : MuxError :=
  .io (errorText error)

/-- The temporary of a name. -/
def temporaryName (name : List UInt8) : Text :=
  Text.lossy name ++ temporarySuffix

/-- The directory of a write's target. -/
def targetParent (target : Path) : Except MuxError Path :=
  (target.parent).elim
    (.error (.wal ("write target " ++ target.display ++ " has no parent"))) .ok

/-- The name of a write's target. -/
def targetName (target : Path) : Except MuxError (List UInt8) :=
  (target.fileName).elim
    (.error (.wal ("write target " ++ target.display ++ " has no name"))) .ok

/-- What a write copies. -/
def sourceMetadata (source : Path) (tree : FileTree) : Except MuxError Node :=
  (tree.lstat source).mapError fun error =>
    .wal ("missing source " ++ source.display ++ ": " ++ errorText error)

/-- Copies an entry; a symbolic link is recreated rather than dereferenced. -/
def copyEntry (source temporary : Path) : Node -> SeedOperation Unit
  | .symlink _ => do
      let link ← mapError io (look fun tree => tree.readLink source)
      mapError io (change fun tree => tree.symlink link temporary)
  | .directory | .file _ _ | .other _ =>
      mapError io (change fun tree => tree.copy source temporary)

/-- Removes a directory in a file's place: it has to be gone first. -/
def clearTarget (target : Path) : SeedOperation Unit := do
  let occupied ← look fun tree => .ok (tree.lstat target)
  match occupied with
  | .ok .directory => mapError io (FileOperation.removeDirAll target)
  | _ => pure ()

/-- Copies `source` onto `target`, atomically at `target`. -/
def applyWrite (source target : Path) : SeedOperation Unit := do
  let parent ← look fun _ => targetParent target
  mapError io (FileOperation.createDirAll parent)
  let name ← look fun _ => targetName target
  let temporary := parent.join (Path.ofText (temporaryName name))
  let metadata ← look (sourceMetadata source)
  recover (mapError io (change fun tree => tree.unlink temporary))
    fun _ => pure ()
  copyEntry source temporary metadata
  clearTarget target
  mapError io (change fun tree => tree.rename temporary target)

/-- Whether a path leads to a directory without entries. -/
def leadsToEmpty (tree : FileTree) (path : Path) : Bool :=
  match tree.enter path with
  | .ok location => tree.Empty location
  | .error _ => false

/-- Removes directories left empty by a deletion, from the one these components
spell backwards, stopping at `root`. -/
def pruneEmptyRev (root : Path) : Path -> FileTree -> FileTree
  | [], tree => tree
  | component :: above, tree =>
      let directory := (component :: above).reverse
      if directory = root ∨ ¬ root <+: directory then tree
      else if leadsToEmpty tree directory then
        match tree.rmdir directory with
        | .ok next => pruneEmptyRev root above next
        | .error _ => tree
      else tree

/-- Removes directories left empty by a deletion, stopping at `root`. -/
def pruneEmptyParents (root target : Path) (tree : FileTree) : FileTree :=
  match target.parent with
  | some parent => pruneEmptyRev root parent.reverse tree
  | none => tree

/-- Deletes `target`, whatever it is; an absent one is no error. -/
def removeEntry (target : Path) : FileOperation Unit := do
  let metadata ← look fun tree => .ok (tree.lstat target)
  match metadata with
  | .ok .directory => FileOperation.removeDirAll target
  | .ok _ => change fun tree => tree.unlink target
  | .error .notFound => pure ()
  | .error error => throw error

/-- Deletes `target` and prunes the directories the deletion empties, stopping
at `root`. -/
def applyRemove (root target : Path) : SeedOperation Unit := do
  mapError io (recover (removeEntry target) fun error =>
    if error = .notFound then pure () else throw error)
  change fun tree => .ok (pruneEmptyParents root target tree)

end Wal

/-! ## Applying operations -/

/-- Where a seed-relative path is. -/
def joined (root : Location) (path : String) : Path :=
  (FileTree.absolutePath root).join (Path.ofText path.toList)

/-- Applies one operation to the seed, from a job's work tree. -/
def applyOp (seed work : Location) : CommitOp -> SeedOperation Unit
  | .remove segments => 
      let op : CommitOp := .remove segments
      Wal.applyRemove (FileTree.absolutePath seed) (joined seed op.path)
  | .write segments => 
      let op : CommitOp := .write segments
      Wal.applyWrite (joined work op.path) (joined seed op.path)

/-- Applies operations in order, up to one that fails. -/
def applyOps (seed work : Location) : List CommitOp -> SeedOperation Unit
  | [] => pure ()
  | op :: ops => do
      applyOp seed work op
      applyOps seed work ops

end Shellmux
end Marsh
