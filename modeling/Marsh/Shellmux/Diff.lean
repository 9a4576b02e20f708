import Std.Data.TreeMap.Lemmas
import Marsh.Library.TreeListing
import Marsh.Shellmux.Wal

/-!
# What a command changed

The seed and the command's work snapshot are scanned and compared.  Directories
are implicit: an operation names an entry that is none.
-/

namespace Marsh
namespace Shellmux

open Library

/-! ## Scanning a tree -/

/-- A non-directory tree entry: the segments of its path, and what it is. -/
structure Entry where
  segments : List String
  node : Node

/-- The entries found so far, by their `/`-joined relative path. -/
abbrev Entries := Std.TreeMap String Entry

namespace Diff

/-- A name as it is printed into a path. -/
def segment (name : FileName) : String :=
  String.ofList (Text.lossy name.bytes)

/-- Appends one name to a relative path. -/
def extend (before : List String) (name : FileName) : List String :=
  before ++ [segment name]

/-- A directory still to be listed, below the root. -/
structure Pending where
  directory : Location
  before : List String

/-- What one listed name adds: a directory to the stack, anything else to the
entries. -/
def scanEntry
    (tree : FileTree)
    (pending : Pending)
    (scanned : List Pending × Entries)
    (name : FileName) : List Pending × Entries :=
  let relative := extend pending.before name
  match tree.find (pending.directory ++ [name]) with
  | some .directory =>
      (⟨pending.directory ++ [name], relative⟩ :: scanned.1, scanned.2)
  | some node =>
      (scanned.1, scanned.2.insert ("/".intercalate relative) ⟨relative, node⟩)
  | none => scanned

/-- Lists the directories of the stack, the last one pushed first.  The tree's
size is enough fuel. -/
def scan
    (tree : FileTree)
    (listing : Listing tree) : Nat -> List Pending × Entries -> Entries
  | _, ([], entries) => entries
  | 0, (_ :: _, entries) => entries
  | fuel + 1, (pending :: stack, entries) =>
      scan tree listing fuel
        ((listing.names pending.directory).foldl (scanEntry tree pending)
          (stack, entries))

/-- Indexes every non-directory entry of `root` by its `/`-joined relative
path. -/
def collect (tree : FileTree) (listing : Listing tree) (root : Location) :
    Entries :=
  scan tree listing tree.locations.card ([⟨root, []⟩], ∅)

/-! ## Comparing two entries -/

/-- Compares two regular files byte for byte. -/
def contentsDiffer
    (tree : FileTree)
    (seed work : Path) : Except MuxError Bool := do
  let left ← (tree.ownerRead seed).mapError Wal.io
  let right ← (tree.ownerRead work).mapError Wal.io
  return left ≠ right

/-- Whether the two entries differ; `identical` tells whether their inode
identities are the same, which answers without reading. -/
def changed
    (tree : FileTree)
    (identical : Bool)
    (seed work : Node)
    (seedPath workPath : Path) : Except MuxError Bool :=
  match seed, work with
  | .file seedContent seedMode, .file workContent workMode =>
      if seedMode ≠ workMode then .ok true
      else if identical then .ok false
      else if seedContent.length ≠ workContent.length then .ok true
      else contentsDiffer tree seedPath workPath
  | .symlink seedTarget, .symlink workTarget =>
      .ok (seedTarget ≠ workTarget)
  | .other seedMode, .other workMode => .ok (seedMode ≠ workMode)
  -- A change of kind.
  | _, _ => .ok true

/-! ## The operations -/

/-- Sort key placing shallower paths first. -/
def depthKey (path : String) : Nat × String :=
  ((path.toList.splitOn '/').length, path)

/-- Whether a path sorts before another one. -/
def shallower (left right : CommitOp) : Bool :=
  let (depth, path) := depthKey left.path
  let (otherDepth, other) := depthKey right.path
  depth < otherDepth || (depth = otherDepth && path ≤ other)

/-- What the seed's entry at a path asks for: its removal, a write, or
nothing. -/
def compareEntry
    (tree : FileTree)
    (identical : String -> Bool)
    (seed work : Location)
    (workEntries : Entries)
    (path : String)
    (entry : Entry) : Except MuxError (List CommitOp × List CommitOp) :=
  match workEntries[path]? with
  | none => .ok ([.remove entry.segments], [])
  | some workEntry => do
      let differs ← changed tree (identical path) entry.node workEntry.node
        (joined seed path) (joined work path)
      return ([], if differs then [.write entry.segments] else [])

/-- Compares the seed's entries with the work tree's, in the order of their
paths. -/
def compareEntries
    (tree : FileTree)
    (identical : String -> Bool)
    (seed work : Location)
    (workEntries : Entries) :
    List (String × Entry) -> Except MuxError (List CommitOp × List CommitOp)
  | [] => .ok ([], [])
  | (path, entry) :: rest => do
      let (removes, writes) ←
        compareEntry tree identical seed work workEntries path entry
      let (otherRemoves, otherWrites) ←
        compareEntries tree identical seed work workEntries rest
      return (removes ++ otherRemoves, writes ++ otherWrites)

/-- Computes the changes that turn `seed` into `work`: removals first, deepest
paths first, then writes, shallowest first. -/
def diffTrees
    (tree : FileTree)
    (listing : Listing tree)
    (identical : String -> Bool)
    (seed work : Location) : Except MuxError (List CommitOp) := do
  let seedEntries := collect tree listing seed
  let workEntries := collect tree listing work
  let (removes, writes) ←
    compareEntries tree identical seed work workEntries seedEntries.toList
  let created := workEntries.toList.filterMap fun (path, entry) =>
    if seedEntries.contains path then none
    else some (CommitOp.write entry.segments)
  return removes.mergeSort (fun left right => shallower right left) ++
    (writes ++ created).mergeSort shallower

end Diff

end Shellmux
end Marsh
