import Marsh.Exec.GitCommand
import Marsh.Exec.Evidence

/-!
# Resource names

The paths a trace mentions, and the resources and keys they are known by below
the work root.
-/

namespace Marsh
namespace Shellmux

open Library
open Exec

/-! ## Paths of a syscall -/

/-- `decorated_path`. -/
def decoratedPath (arg : Text) : Option Path := do
  let (_, after) ← Text.splitOnce ['<'] arg
  let (path, _) ← Text.rsplitOnce '>' after
  if path.head? = some '/' then some (Path.ofText path) else none

/-- `path_at`, of a thread in the directory `cwd`. -/
def pathAt
    (dirfd path : Option Text)
    (cwd : Path)
    (retPath : Option Text) : Option Path :=
  match retPath with
  | some resolved => some (Path.ofText resolved)
  | none => do
      let path ← path
      let path ← parseQuoted path
      some (resolve ((dirfd.bind decoratedPath).getD cwd) path)

/-! ## Resources and keys -/

/-- `seed_resource`. -/
def seedResource (workRoot path : Path) : Option (List Text) := do
  let segments ← relativeSegments workRoot path
  if segments = [] ∨ ".git".toList ∈ segments then none else some segments

/-- `work_relative`. -/
def workRelative (workRoot path : Path) : Option Text := do
  let segments ← relativeSegments workRoot path
  if segments = [] then none else some (['/'].intercalate segments)

/-- The key `collect` gives an entry of a directory whose key is `parent`. -/
def entryKey (parent : Text) (name : FileName) : Text :=
  if parent = [] then Text.lossy name.bytes
  else parent ++ '/' :: Text.lossy name.bytes

/-- The key `collect` gives the entry it finds below a tree's root. -/
def treeKey (names : List FileName) : Text := names.foldl entryKey []

end Shellmux
end Marsh
