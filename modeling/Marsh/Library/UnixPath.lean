import Marsh.Library.Utf8

/-!
# Unix paths

Paths by their components, as they are compared, and the bytes of the names in
them.
-/

namespace Library

/-- A component of a path. -/
inductive Component
  | rootDir
  | curDir
  | parentDir
  | normal (name : List UInt8)
  deriving DecidableEq, Repr

/-- A path. -/
abbrev Path := List Component

namespace Path

/-- The component between two slashes, if any. -/
def component (piece : List UInt8) : Option Component :=
  if piece = [] ∨ piece = [46] then none
  else if piece = [46, 46] then some .parentDir
  else some (.normal piece)

/-- The path written as bytes. -/
def ofBytes (bytes : List UInt8) : Path :=
  let pieces := bytes.splitOn 47
  let rest := pieces.filterMap component
  if bytes.head? = some 47 then .rootDir :: rest
  else if pieces.head? = some [46] then .curDir :: rest
  else rest

/-- The path a string names. -/
def ofText (text : Text) : Path := ofBytes text.bytes

/-- `join`. -/
def join (base path : Path) : Path :=
  if path.head? = some .rootDir ∨ base = [] then path
  else base ++ path.filter (· ≠ .curDir)

/-- `pop`. -/
def pop (path : Path) : Path :=
  if path.getLast? = some .rootDir then path else path.dropLast

/-- `parent`. -/
def parent (path : Path) : Option Path :=
  if path = [] ∨ path.getLast? = some .rootDir then none
  else some path.dropLast

/-- `file_name`. -/
def fileName (path : Path) : Option (List UInt8) :=
  match path.getLast? with
  | some (.normal name) => some name
  | _ => none

/-- The text of a component. -/
def componentText : Component -> Text
  | .rootDir => []
  | .curDir => ['.']
  | .parentDir => ['.', '.']
  | .normal name => Text.lossy name

/-- `display`. -/
def display (path : Path) : String :=
  if path = [.rootDir] then "/"
  else String.ofList (['/'].intercalate (path.map componentText))

/-- `strip_prefix`. -/
def stripPrefix (root path : Path) : Option Path :=
  if root <+: path then some (path.drop root.length) else none

end Path

/-- The name of a file in its directory. -/
structure FileName where
  bytes : List UInt8
  ne_nil : bytes ≠ []
  not_curDir : bytes ≠ [46]
  not_parentDir : bytes ≠ [46, 46]
  slash_notMem : 47 ∉ bytes
  nul_notMem : 0 ∉ bytes

namespace FileName

/-- A path of names below a directory. -/
def path (names : List FileName) : Path :=
  names.map fun name => .normal name.bytes

/-- How the path of names below a directory is written. -/
def relative (names : List FileName) : List UInt8 :=
  [47].intercalate (names.map FileName.bytes)

/-- How the path of names below the root is written. -/
def absolute (names : List FileName) : List UInt8 := 47 :: relative names

theorem component_bytes (name : FileName) :
    Path.component name.bytes = some (.normal name.bytes) := by
  rw [Path.component, if_neg (not_or.mpr ⟨name.ne_nil, name.not_curDir⟩),
    if_neg name.not_parentDir]

theorem filterMap_splitOn_relative (names : List FileName) :
    ((relative names).splitOn 47).filterMap Path.component = path names := by
  by_cases empty : names = []
  · subst empty
    rfl
  · rw [relative, List.splitOn_intercalate]
    · rw [List.filterMap_map, path, ← List.filterMap_eq_map]
      apply List.filterMap_congr
      intro name _
      exact name.component_bytes
    · intro bytes member
      obtain ⟨name, -, rfl⟩ := List.mem_map.mp member
      exact name.slash_notMem
    · simpa using empty

/-- An absolute path is read as it was written. -/
theorem ofBytes_absolute (names : List FileName) :
    Path.ofBytes (absolute names) = .rootDir :: path names := by
  have split : (absolute names).splitOn 47 =
      [] :: (relative names).splitOn 47 :=
    List.splitOn_append_cons_self_of_not_mem List.not_mem_nil (relative names)
  unfold Path.ofBytes
  dsimp only
  rw [if_pos (by rfl), split, List.filterMap_cons_none (by rfl),
    filterMap_splitOn_relative]

theorem relative_singleton (name : FileName) : relative [name] = name.bytes := by
  simp [relative]

theorem relative_cons_cons (name next : FileName) (names : List FileName) :
    relative (name :: next :: names) =
      name.bytes ++ 47 :: relative (next :: names) := by
  simp [relative]

/-- The bytes of a relative path are those of its names, and slashes. -/
theorem mem_relative
    {names : List FileName}
    {byte : UInt8}
    (member : byte ∈ relative names) :
    byte = 47 ∨ ∃ name ∈ names, byte ∈ name.bytes := by
  induction names with
  | nil => exact absurd member List.not_mem_nil
  | cons name names hypothesis =>
      cases names with
      | nil =>
          rw [relative_singleton] at member
          exact .inr ⟨name, List.mem_cons_self, member⟩
      | cons next names =>
          rw [relative_cons_cons, List.mem_append, List.mem_cons] at member
          rcases member with own | slash | later
          · exact .inr ⟨name, List.mem_cons_self, own⟩
          · exact .inl slash
          · rcases hypothesis later with slash | ⟨other, listed, inside⟩
            · exact .inl slash
            · exact .inr ⟨other, List.mem_cons_of_mem _ listed, inside⟩

theorem relative_cons (name : FileName) (names : List FileName) :
    ∃ rest, relative (name :: names) = name.bytes ++ rest ∧
      (rest = [] ∨ rest.head? = some 47) := by
  cases names with
  | nil => exact ⟨[], by simp [relative_singleton], .inl rfl⟩
  | cons next names =>
      exact ⟨47 :: relative (next :: names), relative_cons_cons _ _ _, .inr rfl⟩

/-- A relative path is read as it was written. -/
theorem ofBytes_relative (names : List FileName) :
    Path.ofBytes (relative names) = path names := by
  cases names with
  | nil => rfl
  | cons name names =>
      have relativeHead : (relative (name :: names)).head? ≠ some 47 := by
        obtain ⟨rest, same, -⟩ := relative_cons name names
        rw [same, List.head?_append_of_ne_nil _ name.ne_nil]
        exact fun head => name.slash_notMem (List.mem_of_mem_head? head)
      have pieces : (relative (name :: names)).splitOn 47 =
          (name :: names).map FileName.bytes := by
        apply List.splitOn_intercalate
        · intro bytes member
          obtain ⟨other, -, rfl⟩ := List.mem_map.mp member
          exact other.slash_notMem
        · exact List.cons_ne_nil _ _
      have noDot : ((relative (name :: names)).splitOn 47).head? ≠ some [46] := by
        rw [pieces]
        exact fun same => name.not_curDir (Option.some.inj same)
      unfold Path.ofBytes
      dsimp only
      rw [if_neg relativeHead, if_neg noDot, filterMap_splitOn_relative]

end FileName

end Library
