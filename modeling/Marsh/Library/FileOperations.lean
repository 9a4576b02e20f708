import Marsh.Library.FileTree
import Marsh.Library.Operation

/-!
# File operations

The system's operations on a file tree, and those the standard library builds
from them.  An operation that fails leaves what it has done so far.
-/

namespace Library

/-- An operation on a file tree. -/
abbrev FileOperation (α : Type) := Operation FileTree Errno α

namespace FileTree

/-! ## Single operations -/

/-- Puts an entry where none is, or one that is no directory. -/
def put
    (tree : FileTree)
    (location : Location)
    (node : Node) : Except Errno FileTree :=
  if vacant : tree.Vacant location then .ok (tree.set location node vacant)
  else .error .isDirectory

/-- Removes an entry and all below it. -/
def remove (tree : FileTree) (location : Location) : Except Errno FileTree :=
  if nonroot : location ≠ [] then .ok (tree.drop location nonroot)
  else .error .invalidInput

/-- `lstat`. -/
def lstat (tree : FileTree) (path : Path) : Except Errno Node := do
  let location ← tree.locate path
  match tree.find location with
  | some node => return node
  | none => throw .notFound

/-- `mkdir`. -/
def mkdir (tree : FileTree) (path : Path) : Except Errno FileTree := do
  let location ← tree.locate path
  match tree.find location with
  | some _ => throw .alreadyExists
  | none => tree.put location .directory

/-- `unlink`. -/
def unlink (tree : FileTree) (path : Path) : Except Errno FileTree := do
  let location ← tree.locate path
  match tree.find location with
  | some .directory => throw .isDirectory
  | some _ => tree.remove location
  | none => throw .notFound

/-- `rmdir`. -/
def rmdir (tree : FileTree) (path : Path) : Except Errno FileTree := do
  let location ← tree.locate path
  match tree.find location with
  | some .directory =>
      if tree.Empty location then tree.remove location else throw .notEmpty
  | some _ => throw .notDirectory
  | none => throw .notFound

/-- `symlink`. -/
def symlink
    (tree : FileTree)
    (target : List UInt8)
    (path : Path) : Except Errno FileTree := do
  let location ← tree.locate path
  match tree.find location with
  | some _ => throw .alreadyExists
  | none => tree.put location (.symlink target)

/-- `read_link`. -/
def readLink (tree : FileTree) (path : Path) : Except Errno (List UInt8) := do
  let location ← tree.locate path
  match tree.find location with
  | some (.symlink target) => return target
  | some _ => throw .invalidInput
  | none => throw .notFound

/-- Reads a regular file, with the rights to. -/
def read (tree : FileTree) (path : Path) : Except Errno (List UInt8) := do
  let location ← tree.locate path
  match tree.find location with
  | some (.file content _) => return content
  | some .directory => throw .isDirectory
  | some _ => throw .invalidInput
  | none => throw .notFound

/-- Reads a regular file as its owner, who needs the permission. -/
def ownerRead (tree : FileTree) (path : Path) : Except Errno (List UInt8) := do
  let location ← tree.locate path
  match tree.find location with
  | some (.file content mode) =>
      if readable mode then return content else throw .permissionDenied
  | some .directory => throw .isDirectory
  | some _ => throw .invalidInput
  | none => throw .notFound

/-- `std::fs::copy` of an entry that is no symbolic link, by an owner of the
files without privileges.  The permission bits are set before the bytes are
written. -/
def copy
    (tree : FileTree)
    (source target : Path) : Except Errno FileTree := do
  let origin ← tree.locate source
  match tree.find origin with
  | some (.file content mode) =>
      if readable mode then
        let location ← tree.locate target
        match tree.find location with
        | some .directory => throw .isDirectory
        -- A link at the target would be written through.
        | some (.symlink _) | some (.other _) => throw .invalidInput
        | some (.file _ old) =>
            if writable old then
              -- Opening the target for writing has emptied it.
              let content := if origin = location then [] else content
              tree.put location (.file content (writtenMode content mode))
            else throw .permissionDenied
        | none => tree.put location (.file content (writtenMode content mode))
      else throw .permissionDenied
  | some _ => throw .invalidInput
  | none => throw .notFound

/-- `rename` of an entry that is no directory. -/
def rename
    (tree : FileTree)
    (source target : Path) : Except Errno FileTree := do
  let origin ← tree.locate source
  let location ← tree.locate target
  match tree.find origin with
  | some .directory => throw .isDirectory
  | some node =>
      if origin = location then return tree
      else
        let placed ← tree.put location node
        placed.remove origin
  | none => throw .notFound

section Singles

variable {tree : FileTree} {location : Location} {path : Path}

theorem put_of_vacant
    {node : Node}
    (vacant : tree.Vacant location) :
    tree.put location node = .ok (tree.set location node vacant) := by
  rw [put, dif_pos vacant]

theorem remove_of_nonroot
    (nonroot : location ≠ []) :
    tree.remove location = .ok (tree.drop location nonroot) := by
  rw [remove, dif_pos nonroot]

theorem lstat_of_some
    {node : Node}
    (located : tree.locate path = .ok location)
    (found : tree.find location = some node) : tree.lstat path = .ok node := by
  simp [lstat, located, found, bind, Except.bind, pure, Except.pure]

theorem lstat_of_none
    (located : tree.locate path = .ok location)
    (missing : tree.find location = none) :
    tree.lstat path = .error .notFound := by
  simp [lstat, located, missing, bind, Except.bind, throw, throwThe,
    MonadExceptOf.throw]

theorem read_of_file
    {content : List UInt8}
    {mode : Nat}
    (located : tree.locate path = .ok location)
    (found : tree.find location = some (.file content mode)) :
    tree.read path = .ok content := by
  simp [read, located, found, bind, Except.bind, pure, Except.pure]

theorem ownerRead_of_file
    {content : List UInt8}
    {mode : Nat}
    (located : tree.locate path = .ok location)
    (found : tree.find location = some (.file content mode)) :
    tree.ownerRead path =
      if readable mode then .ok content else .error .permissionDenied := by
  simp [ownerRead, located, found, bind, Except.bind, pure, Except.pure, throw,
    throwThe, MonadExceptOf.throw]

theorem mkdir_of_none
    (located : tree.locate path = .ok location)
    (missing : tree.find location = none) :
    tree.mkdir path = tree.put location .directory := by
  simp [mkdir, located, missing, bind, Except.bind]

theorem mkdir_of_some
    {node : Node}
    (located : tree.locate path = .ok location)
    (found : tree.find location = some node) :
    tree.mkdir path = .error .alreadyExists := by
  simp [mkdir, located, found, bind, Except.bind, throw, throwThe,
    MonadExceptOf.throw]

theorem mkdir_of_error
    {error : Errno}
    (fails : tree.locate path = .error error) :
    tree.mkdir path = .error error := by
  simp [mkdir, fails, bind, Except.bind]

theorem unlink_of_none
    (located : tree.locate path = .ok location)
    (missing : tree.find location = none) :
    tree.unlink path = .error .notFound := by
  simp [unlink, located, missing, bind, Except.bind, throw, throwThe,
    MonadExceptOf.throw]

theorem unlink_of_leaf
    {node : Node}
    (located : tree.locate path = .ok location)
    (found : tree.leaf location = some node)
    (nonroot : location ≠ []) :
    tree.unlink path = .ok (tree.drop location nonroot) := by
  obtain ⟨here, kind⟩ := leaf_eq_some.mp found
  cases node with
  | directory => exact absurd rfl kind
  | file => simp [unlink, located, here, bind, Except.bind, remove, nonroot]
  | symlink => simp [unlink, located, here, bind, Except.bind, remove, nonroot]
  | other => simp [unlink, located, here, bind, Except.bind, remove, nonroot]

theorem rmdir_of_empty
    (located : tree.locate path = .ok location)
    (found : tree.find location = some .directory)
    (empty : tree.Empty location)
    (nonroot : location ≠ []) :
    tree.rmdir path = .ok (tree.drop location nonroot) := by
  simp [rmdir, located, found, empty, bind, Except.bind, remove, nonroot]

theorem symlink_of_none
    {target : List UInt8}
    (located : tree.locate path = .ok location)
    (missing : tree.find location = none)
    (vacant : tree.Vacant location) :
    tree.symlink target path =
      .ok (tree.set location (.symlink target) vacant) := by
  simp [symlink, located, missing, bind, Except.bind, put, vacant]

theorem readLink_of_symlink
    {target : List UInt8}
    (located : tree.locate path = .ok location)
    (found : tree.find location = some (.symlink target)) :
    tree.readLink path = .ok target := by
  simp [readLink, located, found, bind, Except.bind, pure, Except.pure]

theorem copy_of_file
    {source : Path}
    {origin : Location}
    {content : List UInt8}
    {mode : Nat}
    (sourced : tree.locate source = .ok origin)
    (found : tree.find origin = some (.file content mode))
    (reads : readable mode = true)
    (located : tree.locate path = .ok location)
    (missing : tree.find location = none)
    (vacant : tree.Vacant location) :
    tree.copy source path =
      .ok (tree.set location (.file content (writtenMode content mode))
        vacant) := by
  simp [copy, sourced, found, reads, located, missing, bind, Except.bind, put,
    vacant]

/-- What its owner may not read is not copied. -/
theorem copy_of_unreadable
    {source : Path}
    {origin : Location}
    {content : List UInt8}
    {mode : Nat}
    (sourced : tree.locate source = .ok origin)
    (found : tree.find origin = some (.file content mode))
    (denied : readable mode = false) :
    tree.copy source path = .error .permissionDenied := by
  simp [copy, sourced, found, denied, bind, Except.bind, throw, throwThe,
    MonadExceptOf.throw]

/-- Nothing is put where a path locates nothing. -/
theorem symlink_of_unlocated
    {target : List UInt8}
    (unlocated : ∀ location, tree.locate path ≠ .ok location)
    (next : FileTree) : tree.symlink target path ≠ .ok next := by
  cases located : tree.locate path with
  | ok location => exact absurd located (unlocated location)
  | error error => simp [symlink, located, bind, Except.bind]

theorem copy_of_unlocated
    {source : Path}
    (unlocated : ∀ location, tree.locate path ≠ .ok location)
    (next : FileTree) : tree.copy source path ≠ .ok next := by
  cases located : tree.locate path with
  | ok location => exact absurd located (unlocated location)
  | error error =>
      cases sourced : tree.locate source with
      | error error => simp [copy, sourced, bind, Except.bind]
      | ok origin =>
          simp only [copy, sourced, located, bind, Except.bind]
          split
          next =>
            split_ifs <;> simp [throw, throwThe, MonadExceptOf.throw]
          next => simp [throw, throwThe, MonadExceptOf.throw]
          next => simp [throw, throwThe, MonadExceptOf.throw]

theorem rename_of_leaf
    {source : Path}
    {origin : Location}
    {node : Node}
    (sourced : tree.locate source = .ok origin)
    (found : tree.leaf origin = some node)
    (located : tree.locate path = .ok location)
    (apart : origin ≠ location)
    (vacant : tree.Vacant location)
    (nonroot : origin ≠ []) :
    tree.rename source path =
      .ok ((tree.set location node vacant).drop origin nonroot) := by
  obtain ⟨here, kind⟩ := leaf_eq_some.mp found
  cases node with
  | directory => exact absurd rfl kind
  | file =>
      simp [rename, sourced, here, located, apart, bind, Except.bind, put,
        vacant, remove, nonroot]
  | symlink =>
      simp [rename, sourced, here, located, apart, bind, Except.bind, put,
        vacant, remove, nonroot]
  | other =>
      simp [rename, sourced, here, located, apart, bind, Except.bind, put,
        vacant, remove, nonroot]

/-! ### Operations that succeed -/

variable {next : FileTree}

theorem put_eq_ok
    {node : Node}
    (puts : tree.put location node = .ok next) :
    ∃ vacant, next = tree.set location node vacant := by
  rw [put] at puts
  split_ifs at puts with vacant
  exact ⟨vacant, (Except.ok.inj puts).symm⟩

theorem remove_eq_ok (removes : tree.remove location = .ok next) :
    ∃ nonroot, next = tree.drop location nonroot := by
  rw [remove] at removes
  split_ifs at removes with nonroot
  exact ⟨nonroot, (Except.ok.inj removes).symm⟩

theorem mkdir_eq_ok (makes : tree.mkdir path = .ok next) :
    ∃ location vacant, tree.locate path = .ok location ∧
      tree.find location = none ∧
      next = tree.set location .directory vacant := by
  cases located : tree.locate path with
  | error error => simp [mkdir, located, bind, Except.bind] at makes
  | ok location =>
      cases found : tree.find location with
      | some node =>
          rw [mkdir_of_some located found] at makes
          cases makes
      | none =>
          rw [mkdir_of_none located found] at makes
          obtain ⟨vacant, rfl⟩ := put_eq_ok makes
          exact ⟨location, vacant, rfl, found, rfl⟩

theorem unlink_eq_ok (unlinks : tree.unlink path = .ok next) :
    ∃ location node nonroot, tree.locate path = .ok location ∧
      tree.leaf location = some node ∧
      next = tree.drop location nonroot := by
  cases located : tree.locate path with
  | error error => simp [unlink, located, bind, Except.bind] at unlinks
  | ok location =>
      cases found : tree.find location with
      | none =>
          rw [unlink_of_none located found] at unlinks
          cases unlinks
      | some node =>
          by_cases kind : node = .directory
          · subst kind
            simp [unlink, located, found, bind, Except.bind, throw, throwThe,
              MonadExceptOf.throw] at unlinks
          · have removes : tree.remove location = .ok next := by
              cases node with
              | directory => exact absurd rfl kind
              | file => simpa [unlink, located, found, bind, Except.bind]
                  using unlinks
              | symlink => simpa [unlink, located, found, bind, Except.bind]
                  using unlinks
              | other => simpa [unlink, located, found, bind, Except.bind]
                  using unlinks
            obtain ⟨nonroot, rfl⟩ := remove_eq_ok removes
            exact ⟨location, node, nonroot, rfl,
              leaf_eq_some.mpr ⟨found, kind⟩, rfl⟩

theorem symlink_eq_ok
    {target : List UInt8}
    (links : tree.symlink target path = .ok next) :
    ∃ location vacant, tree.locate path = .ok location ∧
      tree.find location = none ∧
      next = tree.set location (.symlink target) vacant := by
  cases located : tree.locate path with
  | error error => simp [symlink, located, bind, Except.bind] at links
  | ok location =>
      cases found : tree.find location with
      | some node =>
          simp [symlink, located, found, bind, Except.bind, throw, throwThe,
            MonadExceptOf.throw] at links
      | none =>
          simp only [symlink, located, found, bind, Except.bind] at links
          obtain ⟨vacant, rfl⟩ := put_eq_ok links
          exact ⟨location, vacant, rfl, found, rfl⟩

theorem ownerRead_eq_ok
    {content : List UInt8}
    (reads : tree.ownerRead path = .ok content) :
    ∃ location mode, tree.locate path = .ok location ∧
      tree.find location = some (.file content mode) ∧
      readable mode = true := by
  cases located : tree.locate path with
  | error error => simp [ownerRead, located, bind, Except.bind] at reads
  | ok location =>
      simp only [ownerRead, located, bind, Except.bind] at reads
      split at reads
      next held mode found =>
        split_ifs at reads with allowed
        cases reads
        exact ⟨location, mode, rfl, found, allowed⟩
      next => cases reads
      next => cases reads
      next => cases reads

theorem copy_eq_ok
    {source : Path}
    (copies : tree.copy source path = .ok next) :
    ∃ origin content mode location copied vacant,
      tree.locate source = .ok origin ∧
      tree.find origin = some (.file content mode) ∧
      readable mode = true ∧
      tree.locate path = .ok location ∧
      (tree.find location = none ∨
        ∃ old oldMode, tree.find location = some (.file old oldMode)) ∧
      next = tree.set location (.file copied (writtenMode copied mode))
        vacant := by
  cases sourced : tree.locate source with
  | error error => simp [copy, sourced, bind, Except.bind] at copies
  | ok origin =>
      simp only [copy, sourced, bind, Except.bind] at copies
      split at copies
      next content mode found =>
        split_ifs at copies with reads
        cases located : tree.locate path with
        | error error => simp [located] at copies
        | ok location =>
            simp only [located] at copies
            split at copies
            next => cases copies
            next => cases copies
            next => cases copies
            next old oldMode here =>
              split_ifs at copies
              all_goals
                obtain ⟨vacant, rfl⟩ := put_eq_ok copies
                exact ⟨origin, content, mode, location, _, vacant, rfl, found,
                  reads, rfl, .inr ⟨old, oldMode, here⟩, rfl⟩
            next here =>
              obtain ⟨vacant, rfl⟩ := put_eq_ok copies
              exact ⟨origin, content, mode, location, content, vacant, rfl,
                found, reads, rfl, .inl here, rfl⟩
      next => cases copies
      next => cases copies

end Singles

end FileTree

/-! ## Sequences of operations -/

namespace FileOperation

open Operation

/-- `remove_dir_all` of a directory.  One named by `..` is emptied and stays. -/
def removeDirAll (path : Path) : FileOperation Unit := do
  let location ← look fun tree => tree.locate path
  match path.getLast? with
  | some (.normal _) => change fun tree => tree.remove location
  | _ => do
      change fun tree => .ok (tree.clear location)
      throw .notEmpty

/-- Forgives an error where a directory is found. -/
def unlessDirectory (path : Path) (error : Errno) : FileOperation Unit :=
  look fun tree =>
    match tree.enter path with
    | .ok _ => .ok ()
    | .error _ => .error error

/-- `create_dir_all` of the path these components spell backwards. -/
def createDirAllRev : Path -> FileOperation Unit
  | [] => pure ()
  | component :: above => fun tree =>
      let path := (component :: above).reverse
      match tree.mkdir path with
      | .ok next => (.ok (), next)
      | .error .notFound =>
          (do
            createDirAllRev above
            recover (change fun tree => tree.mkdir path)
              (unlessDirectory path) : FileOperation Unit) tree
      | .error error => unlessDirectory path error tree

/-- `create_dir_all`. -/
def createDirAll (path : Path) : FileOperation Unit :=
  createDirAllRev path.reverse

section Runs

variable {tree : FileTree}

theorem unlessDirectory_of_directory
    {location : Location}
    (found : tree.find location = some .directory)
    (error : Errno) :
    unlessDirectory (FileTree.absolutePath location) error tree =
      (.ok (), tree) := by
  refine look_of_ok ?_
  rw [FileTree.enter_absolutePath found]

/-- A new directory changes no entry. -/
theorem extends_of_mkdir
    {path : Path}
    {next : FileTree}
    (makes : tree.mkdir path = .ok next) : tree.Extends next := by
  obtain ⟨location, vacant, -, missing, rfl⟩ := FileTree.mkdir_eq_ok makes
  refine ⟨fun present => FileTree.find_set_of_ne ?_, fun {other} absent => ?_⟩
  · rintro rfl
    exact present missing
  · rw [FileTree.find_set]
    split_ifs
    · exact .inr rfl
    · exact .inl absent

theorem keeps_createDirAllRev (path : Path) :
    Keeps FileTree.Extends (createDirAllRev path) := by
  induction path with
  | nil => exact Keeps.pure ()
  | cons component above hypothesis =>
      intro tree
      have retries : Keeps FileTree.Extends (do
          createDirAllRev above
          recover (change fun tree => tree.mkdir (component :: above).reverse)
            (unlessDirectory (component :: above).reverse) :
          FileOperation Unit) :=
        hypothesis.bind fun _ => Keeps.recover
          (Keeps.change extends_of_mkdir) fun _ => Keeps.look _
      unfold createDirAllRev
      dsimp only
      split
      next next makes => exact extends_of_mkdir makes
      next => exact retries tree
      next error _ => exact Keeps.look _ tree

/-- Making directories changes no entry. -/
theorem keeps_createDirAll (path : Path) :
    Keeps FileTree.Extends (createDirAll path) :=
  keeps_createDirAllRev path.reverse

/-- A directory goes with all below it. -/
theorem removeDirAll_absolutePath
    {location : Location}
    (present : tree.find location ≠ none)
    (nonroot : location ≠ []) :
    removeDirAll (FileTree.absolutePath location) tree =
      (.ok (), tree.drop location nonroot) := by
  have located := FileTree.locate_of_found present
  have last : ∃ bytes, (FileTree.absolutePath location).getLast? =
      some (.normal bytes) := by
    cases location using List.reverseRecOn with
    | nil => exact absurd rfl nonroot
    | append_singleton above name =>
        exact ⟨name.bytes, FileTree.getLast?_path [.rootDir] above name⟩
  obtain ⟨bytes, last⟩ := last
  have looked : look (fun tree : FileTree =>
      tree.locate (FileTree.absolutePath location)) tree =
      (.ok location, tree) := look_of_ok located
  rw [removeDirAll, bind_of_ok looked, last]
  exact change_of_ok (FileTree.remove_of_nonroot nonroot)

/-- What is left of a tree when a path that ends in a name is removed. -/
theorem removeDirAll_snd
    {path : Path}
    {bytes : List UInt8}
    (last : path.getLast? = some (.normal bytes))
    (tree : FileTree) :
    (removeDirAll path tree).2 = tree ∨
      ∃ location nonroot, tree.locate path = .ok location ∧
        (removeDirAll path tree).2 = tree.drop location nonroot := by
  cases located : tree.locate path with
  | error error =>
      have looked : look (fun tree : FileTree => tree.locate path) tree =
          (.error error, tree) := look_of_error located
      rw [removeDirAll, bind_of_error looked]
      exact .inl rfl
  | ok location =>
      have looked : look (fun tree : FileTree => tree.locate path) tree =
          (.ok location, tree) := look_of_ok located
      rw [removeDirAll, bind_of_ok looked, last]
      dsimp only
      by_cases nonroot : location = []
      · have fails : tree.remove location = .error .invalidInput := by
          rw [FileTree.remove, dif_neg (not_not.mpr nonroot)]
        rw [change_of_error fails]
        exact .inl rfl
      · rw [change_of_ok (FileTree.remove_of_nonroot nonroot)]
        exact .inr ⟨location, nonroot, rfl, rfl⟩

theorem reverse_absolutePath (above : Location) (name : FileName) :
    (FileTree.absolutePath (above ++ [name])).reverse =
      .normal name.bytes :: (FileTree.absolutePath above).reverse := by
  simp [FileTree.absolutePath, FileName.path]

/-- Every directory of a path is made that is not there. -/
theorem createDirAll_absolutePath
    {location : Location}
    (passable : tree.Passable location)
    (short : ∀ name ∈ location, name.bytes.length ≤ nameMax) :
    ∃ next, createDirAll (FileTree.absolutePath location) tree =
        (.ok (), next) ∧
      ∀ other, next.find other =
        if other <+: location then some .directory else tree.find other := by
  induction location using List.reverseRecOn with
  | nil =>
      refine ⟨tree, ?_, fun other => ?_⟩
      · have located : tree.locate [.rootDir] = .ok [] := by
          simp [FileTree.locate, FileTree.enter, FileTree.walk_rootDir,
            FileTree.walk_nil]
        change createDirAllRev [.rootDir] tree = _
        unfold createDirAllRev
        dsimp only
        rw [List.reverse_singleton, FileTree.mkdir_of_some located tree.root]
        exact unlessDirectory_of_directory tree.root _
      · split_ifs with above
        · rw [List.prefix_nil.mp above, tree.root]
        · rfl
  | append_singleton above name hypothesis =>
      have before : above <+: above ++ [name] := ⟨[name], rfl⟩
      have shortName := short name (by simp)
      have shortAbove : ∀ name ∈ above, name.bytes.length ≤ nameMax :=
        fun other member => short other (by simp [member])
      have path : (.normal name.bytes ::
          (FileTree.absolutePath above).reverse).reverse =
          FileTree.absolutePath (above ++ [name]) := by
        rw [← reverse_absolutePath, List.reverse_reverse]
      have prefixes : ∀ other : Location, other <+: above ++ [name] ↔
          other <+: above ∨ other = above ++ [name] := by
        intro other
        rw [List.prefix_concat_iff, or_comm]
      rw [createDirAll, reverse_absolutePath]
      unfold createDirAllRev
      dsimp only
      rw [path]
      obtain missing | found := passable above before
      · -- The directory above is made first.
        obtain ⟨middle, made, finds⟩ :=
          hypothesis (passable.of_isPrefix before) shortAbove
        have absent : tree.find (above ++ [name]) = none :=
          tree.find_of_none missing before
        rw [FileTree.mkdir_of_error (FileTree.locate_absolutePath_of_missing
          (passable.of_isPrefix before) missing shortAbove)]
        have inside : middle.find above = some .directory := by
          rw [finds, if_pos (List.prefix_refl _)]
        have free : middle.find (above ++ [name]) = none := by
          rw [finds, if_neg, absent]
          exact fun longer => by simpa using longer.length_le
        have vacant : middle.Vacant (above ++ [name]) :=
          ⟨by simp, by rwa [List.dropLast_concat], by simp [free], short⟩
        refine ⟨middle.set _ .directory vacant, ?_, fun other => ?_⟩
        · rw [createDirAll] at made
          dsimp only
          rw [bind_of_ok made]
          refine recover_of_ok (change_of_ok ?_)
          rw [FileTree.mkdir_of_none
            (FileTree.locate_absolutePath inside shortName) free,
            FileTree.put_of_vacant vacant]
        · rw [FileTree.find_set, finds]
          by_cases same : other = above ++ [name]
          · simp [same]
          · simp [same, prefixes]
      · have located := FileTree.locate_absolutePath found shortName
        obtain missing | directory := passable _ (List.prefix_refl _)
        · have vacant : tree.Vacant (above ++ [name]) :=
            ⟨by simp, by rwa [List.dropLast_concat], by simp [missing], short⟩
          refine ⟨tree.set _ .directory vacant, ?_, fun other => ?_⟩
          · rw [FileTree.mkdir_of_none located missing,
              FileTree.put_of_vacant vacant]
          · rw [FileTree.find_set]
            by_cases same : other = above ++ [name]
            · simp [same]
            · rw [if_neg same]
              split_ifs with below
              · obtain earlier | last := (prefixes other).mp below
                · by_cases whole : other = above
                  · rw [whole, found]
                  · exact tree.directory_of_below (by simp [found]) earlier
                      whole
                · exact absurd last same
              · rfl
        · refine ⟨tree, ?_, fun other => ?_⟩
          · rw [FileTree.mkdir_of_some located directory]
            exact unlessDirectory_of_directory directory _
          · split_ifs with below
            · by_cases same : other = above ++ [name]
              · rw [same, directory]
              · exact tree.directory_of_below (by simp [directory]) below same
            · rfl

end Runs

end FileOperation

end Library
