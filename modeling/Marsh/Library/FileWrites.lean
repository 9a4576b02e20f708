import Marsh.Library.FileOperations

/-!
# Writing files

Operations that open a path and so follow a symbolic link it ends in, and what
making the directories of a path leaves alone.
-/

namespace Library
namespace FileTree

/-! ## Following a path to its end -/

/-- Follows a path to the entry it names, handing each symbolic link over with
what is left of the path.  The last entry may be missing. -/
def followList
    (tree : FileTree)
    (onLink : Location -> Path -> Except Errno Location) :
    Location -> Path -> Except Errno Location
  | here, [] => .ok here
  | _, .rootDir :: rest => tree.followList onLink [] rest
  | here, .curDir :: rest => tree.followList onLink here rest
  | here, .parentDir :: rest => tree.followList onLink here.dropLast rest
  | here, .normal bytes :: rest =>
      match fileName bytes with
      | .error error => .error error
      | .ok name =>
          match tree.find (here ++ [name]) with
          | some .directory => tree.followList onLink (here ++ [name]) rest
          | some (.symlink target) => onLink here (Path.ofBytes target ++ rest)
          | some (.file _ _) | some (.other _) =>
              if rest = [] then .ok (here ++ [name]) else .error .notDirectory
          | none =>
              if rest = [] then .ok (here ++ [name]) else .error .notFound

/-- Follows a path to its entry through at most so many symbolic links. -/
def followUpTo (tree : FileTree) :
    Nat -> Location -> Path -> Except Errno Location
  | 0 => tree.followList fun _ _ => .error .tooManyLinks
  | links + 1 => tree.followList (tree.followUpTo links)

/-- Where the entry is, or would be made, that opening a path reaches. -/
def follow (tree : FileTree) (path : Path) : Except Errno Location :=
  tree.followUpTo linkMax [] path

/-- `std::fs::write`: the bytes of a regular file, made with these permission
bits where none is.  Nothing is written to what is neither. -/
def write
    (tree : FileTree)
    (path : Path)
    (content : List UInt8)
    (creation : Nat) : Except Errno FileTree := do
  let location ← tree.follow path
  match tree.find location with
  | some .directory => throw .isDirectory
  | some (.file _ mode) => tree.put location (.file content mode)
  | some (.symlink _) | some (.other _) => throw .invalidInput
  | none => tree.put location (.file content creation)

/-- Writes at the end of a regular file, made with these permission bits where
none is. -/
def append
    (tree : FileTree)
    (path : Path)
    (content : List UInt8)
    (creation : Nat) : Except Errno FileTree := do
  let location ← tree.follow path
  match tree.find location with
  | some .directory => throw .isDirectory
  | some (.file old mode) => tree.put location (.file (old ++ content) mode)
  | some (.symlink _) | some (.other _) => throw .invalidInput
  | none => tree.put location (.file content creation)

/-- `std::fs::set_permissions`.  A directory's permission bits are not part of
its entry. -/
def setPermissions
    (tree : FileTree)
    (path : Path)
    (mode : Nat) : Except Errno FileTree := do
  let location ← tree.follow path
  match tree.find location with
  | some .directory => return tree
  | some (.file content _) => tree.put location (.file content mode)
  | some (.other _) => tree.put location (.other mode)
  | some (.symlink _) => throw .invalidInput
  | none => throw .notFound

section Follows

variable {tree : FileTree}

/-- A path of names without links reaches the entry it spells. -/
theorem followUpTo_of_unlinked
    {base there : Location}
    {names : List FileName}
    {links : Nat}
    (unlinked : ∀ above, above <+: names ->
      ∀ target, tree.find (base ++ above) ≠ some (.symlink target))
    (found : tree.find base = some .directory)
    (nonempty : names ≠ [])
    (leads : tree.followUpTo links base (FileName.path names) = .ok there) :
    there = base ++ names ∧
      tree.find (base ++ names.dropLast) = some .directory := by
  induction names generalizing base with
  | nil => exact absurd rfl nonempty
  | cons name names hypothesis =>
      have short : name.bytes.length ≤ nameMax := by
        by_contra long
        have named : fileName name.bytes = .error .nameTooLong := by
          rw [fileName, if_pos (Nat.lt_of_not_le long)]
        cases links <;>
          simp [FileName.path, followUpTo, followList, named] at leads
      have linkless : ∀ target, tree.find (base ++ [name]) ≠
          some (.symlink target) := unlinked [name] ⟨names, rfl⟩
      by_cases last : names = []
      · subst last
        rw [List.dropLast_singleton, List.append_nil]
        refine ⟨?_, found⟩
        cases here : tree.find (base ++ [name]) with
        | none =>
            cases links <;>
              simpa [FileName.path, followUpTo, followList,
                fileName_bytes short, here, eq_comm] using leads
        | some node =>
            cases node with
            | symlink target => exact absurd here (linkless target)
            | directory =>
                cases links <;>
                  simpa [FileName.path, followUpTo, followList,
                    fileName_bytes short, here, eq_comm] using leads
            | file =>
                cases links <;>
                  simpa [FileName.path, followUpTo, followList,
                    fileName_bytes short, here, eq_comm] using leads
            | other =>
                cases links <;>
                  simpa [FileName.path, followUpTo, followList,
                    fileName_bytes short, here, eq_comm] using leads
      · have more : FileName.path names ≠ [] := by
          simpa [FileName.path] using last
        have inside : tree.find (base ++ [name]) = some .directory ∧
            tree.followUpTo links (base ++ [name]) (FileName.path names) =
              .ok there := by
          change tree.followUpTo links base
            (.normal name.bytes :: FileName.path names) = .ok there at leads
          cases here : tree.find (base ++ [name]) with
          | none =>
              cases links <;>
                simp [followUpTo, followList, fileName_bytes short, here, more]
                  at leads
          | some node =>
              cases node with
              | symlink target => exact absurd here (linkless target)
              | directory =>
                  refine ⟨rfl, ?_⟩
                  cases links <;>
                    simpa only [followUpTo, followList, fileName_bytes short,
                      here] using leads
              | file =>
                  cases links <;>
                    simp [followUpTo, followList, fileName_bytes short, here,
                      more] at leads
              | other =>
                  cases links <;>
                    simp [followUpTo, followList, fileName_bytes short, here,
                      more] at leads
        rw [List.dropLast_cons_of_ne_nil last, List.append_cons base name names,
          List.append_cons base name names.dropLast]
        refine hypothesis (fun above before target => ?_) inside.1 last inside.2
        rw [List.append_assoc]
        exact unlinked (name :: above) (List.cons_prefix_cons.mpr ⟨rfl, before⟩)
          target

theorem followUpTo_rootDir (links : Nat) (here : Location) (rest : Path) :
    tree.followUpTo links here (.rootDir :: rest) =
      tree.followUpTo links [] rest := by
  cases links <;> rfl

/-- Directories are followed under their names. -/
theorem followUpTo_of_descends
    {base : Location}
    {names : List FileName}
    (descends : tree.Descends base names)
    (links : Nat)
    (rest : Path) :
    tree.followUpTo links base (FileName.path names ++ rest) =
      tree.followUpTo links (base ++ names) rest := by
  induction names generalizing base with
  | nil => rw [List.append_nil]; rfl
  | cons name names hypothesis =>
      have found : tree.find (base ++ [name]) = some .directory :=
        descends [name] ⟨names, rfl⟩
      have short : name.bytes.length ≤ nameMax :=
        tree.short (by simp [found] : tree.find (base ++ [name]) ≠ none) name
          (by simp)
      rw [List.append_cons base name names, ← hypothesis descends.tail]
      change tree.followUpTo links base
        (.normal name.bytes :: (FileName.path names ++ rest)) = _
      cases links <;>
        simp only [followUpTo, followList, fileName_bytes short, found]

variable {location : Location}

/-- A path without links reaches the location it spells. -/
theorem follow_of_unlinked
    {there : Location}
    (unlinked : tree.Unlinked location)
    (nonroot : location ≠ [])
    (leads : tree.follow (absolutePath location) = .ok there) :
    there = location ∧ tree.find location.dropLast = some .directory := by
  rw [follow, absolutePath, followUpTo_rootDir] at leads
  refine followUpTo_of_unlinked (fun above before target => ?_) tree.root nonroot
    leads
  rw [List.nil_append]
  exact unlinked above before target

/-- The path of an entry in a directory reaches it, unless it is a link. -/
theorem follow_absolutePath
    {above : Location}
    {name : FileName}
    (inside : tree.find above = some .directory)
    (short : name.bytes.length ≤ nameMax)
    (linkless : ∀ target, tree.find (above ++ [name]) ≠ some (.symlink target)) :
    tree.follow (absolutePath (above ++ [name])) = .ok (above ++ [name]) := by
  rw [follow, absolutePath_append, absolutePath, List.cons_append,
    followUpTo_rootDir, followUpTo_of_descends (descends_of_directory inside),
    List.nil_append]
  change tree.followUpTo linkMax above [.normal name.bytes] = _
  rw [show linkMax = 39 + 1 from rfl, followUpTo, followList,
    fileName_bytes short]
  dsimp only
  cases here : tree.find (above ++ [name]) with
  | none => rfl
  | some node =>
      cases node with
      | symlink target => exact absurd here (linkless target)
      | directory => rfl
      | file => rfl
      | other => rfl

/-- An entry whose way has no links is located where it is spelled. -/
theorem locate_of_unlinked_dropLast
    {there : Location}
    (nonroot : location ≠ [])
    (unlinked : tree.Unlinked location.dropLast)
    (located : tree.locate (absolutePath location) = .ok there) :
    there = location ∧ tree.find location.dropLast = some .directory := by
  obtain ⟨above, name, rfl⟩ := List.eq_nil_or_concat location |>.resolve_left
    nonroot
  rw [List.concat_eq_append, List.dropLast_concat] at *
  obtain ⟨same, found, -⟩ := locate_of_unlinked unlinked located
  exact ⟨same, found⟩

/-- What is above an entry is above its directory. -/
theorem isPrefix_dropLast
    {above : Location}
    (before : above <+: location)
    (apart : above ≠ location) : above <+: location.dropLast := by
  obtain ⟨rest, rfl⟩ := before
  have nonempty : rest ≠ [] := by
    rintro rfl
    exact apart (List.append_nil above).symm
  rw [List.dropLast_append_of_ne_nil nonempty]
  exact List.prefix_append above rest.dropLast

/-- An entry is not above its own directory. -/
theorem not_isPrefix_dropLast (nonroot : location ≠ []) :
    ¬ location <+: location.dropLast := by
  intro longer
  have lengths := longer.length_le
  have positive := List.length_pos_iff.mpr nonroot
  rw [List.length_dropLast] at lengths
  omega

/-- No link is on a way on which none is put. -/
theorem Unlinked.set
    {node : Node}
    {vacant : tree.Vacant location}
    {way : Location}
    (unlinked : tree.Unlinked way)
    (linkless : ∀ target, node ≠ .symlink target) :
    (tree.set location node vacant).Unlinked way := by
  intro above before target found
  rw [find_set] at found
  split_ifs at found
  · exact linkless target (Option.some.inj found)
  · exact unlinked above before target found

/-! ## What is written -/

variable {next : FileTree} {content : List UInt8}

/-- A file that is written is where its path is spelled. -/
theorem write_eq_ok
    {creation : Nat}
    (unlinked : tree.Unlinked location)
    (nonroot : location ≠ [])
    (writes : tree.write (absolutePath location) content creation = .ok next) :
    ∃ mode vacant, next = tree.set location (.file content mode) vacant := by
  cases leads : tree.follow (absolutePath location) with
  | error error => simp [write, leads, bind, Except.bind] at writes
  | ok there =>
      obtain ⟨rfl, -⟩ := follow_of_unlinked unlinked nonroot leads
      simp only [write, leads, bind, Except.bind] at writes
      split at writes
      next => cases writes
      next old mode found =>
        obtain ⟨vacant, rfl⟩ := put_eq_ok writes
        exact ⟨mode, vacant, rfl⟩
      next => cases writes
      next => cases writes
      next found =>
        obtain ⟨vacant, rfl⟩ := put_eq_ok writes
        exact ⟨creation, vacant, rfl⟩

/-- The permission bits of a file are set where its path is spelled. -/
theorem setPermissions_eq_ok
    {old mode : Nat}
    (unlinked : tree.Unlinked location)
    (nonroot : location ≠ [])
    (found : tree.find location = some (.file content old))
    (sets : tree.setPermissions (absolutePath location) mode = .ok next) :
    ∃ vacant, next = tree.set location (.file content mode) vacant := by
  cases leads : tree.follow (absolutePath location) with
  | error error => simp [setPermissions, leads, bind, Except.bind] at sets
  | ok there =>
      obtain ⟨rfl, -⟩ := follow_of_unlinked unlinked nonroot leads
      simp only [setPermissions, leads, found, bind, Except.bind] at sets
      exact put_eq_ok sets

end Follows

end FileTree

namespace FileOperation

open Operation

section Directories

variable {tree : FileTree} {location : Location}

/-- Making a directory on a way without links changes nothing off that way. -/
def AlongWay (location : Location) (tree next : FileTree) : Prop :=
  tree.Unlinked location -> tree.Extends next ∧
    ∀ other, ¬ other <+: location -> next.find other = tree.find other

instance : Std.Refl (AlongWay location) where
  refl tree _ := ⟨Std.Refl.refl tree, fun _ _ => rfl⟩

instance : IsTrans FileTree (AlongWay location) where
  trans tree middle next first second unlinked := by
    obtain ⟨extended, same⟩ := first unlinked
    obtain ⟨again, later⟩ := second (extended.unlinked unlinked)
    refine ⟨IsTrans.trans _ _ _ extended again, fun other apart => ?_⟩
    rw [later other apart, same other apart]

theorem alongWay_of_mkdir
    {above : Location}
    {next : FileTree}
    (before : above <+: location)
    (nonroot : above ≠ [])
    (makes : tree.mkdir (FileTree.absolutePath above) = .ok next) :
    AlongWay location tree next := by
  intro unlinked
  refine ⟨extends_of_mkdir makes, fun other apart => ?_⟩
  obtain ⟨there, vacant, located, -, rfl⟩ := FileTree.mkdir_eq_ok makes
  obtain ⟨rfl, -⟩ := FileTree.locate_of_unlinked_dropLast nonroot
    (unlinked.of_isPrefix ((List.dropLast_prefix _).trans before)) located
  refine FileTree.find_set_of_ne ?_
  rintro rfl
  exact apart before

/-- Making the directories of a path without links changes nothing off it. -/
theorem alongWay_createDirAll
    {above : Location}
    (before : above <+: location) :
    Keeps (AlongWay location) (createDirAll (FileTree.absolutePath above)) := by
  induction above using List.reverseRecOn with
  | nil =>
      intro tree
      have located : tree.locate [.rootDir] = .ok [] := by
        simp [FileTree.locate, FileTree.enter, FileTree.walk_rootDir,
          FileTree.walk_nil]
      change AlongWay location tree (createDirAllRev [.rootDir] tree).2
      unfold createDirAllRev
      dsimp only
      rw [List.reverse_singleton, FileTree.mkdir_of_some located tree.root]
      exact Keeps.look _ tree
  | append_singleton above name hypothesis =>
      intro tree
      have path : (.normal name.bytes ::
          (FileTree.absolutePath above).reverse).reverse =
          FileTree.absolutePath (above ++ [name]) := by
        rw [← reverse_absolutePath, List.reverse_reverse]
      have makes : ∀ {state next : FileTree},
          state.mkdir (FileTree.absolutePath (above ++ [name])) = .ok next ->
            AlongWay location state next :=
        fun makes => alongWay_of_mkdir before (by simp) makes
      have above := hypothesis ((List.prefix_append _ _).trans before)
      rw [createDirAll, reverse_absolutePath]
      unfold createDirAllRev
      dsimp only
      rw [path]
      split
      next next made => exact makes made
      next =>
        exact (Keeps.bind above fun _ => Keeps.recover (Keeps.change makes)
          fun _ => Keeps.look _) tree
      next error _ => exact Keeps.look _ tree

end Directories

end FileOperation
end Library
