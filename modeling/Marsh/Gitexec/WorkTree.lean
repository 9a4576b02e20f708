import Marsh.Gitexec.Builtins

/-!
# What the builtins do to a work tree

The entry of a pathspec in the work tree, when no symbolic link is on the way to
it: what is read there, and what removing and writing it changes.
-/

namespace Marsh
namespace Gitexec

open Library Exec
open Operation

/-! ## Direct ways -/

/-- Whether a pathspec names an entry below the work tree's directory, with no
symbolic link on the way. -/
structure Direct (files : FileTree) (workdir spec : Location) : Prop where
  nonempty : spec ≠ []
  unlinked : files.Unlinked (workdir ++ spec.dropLast)

section Direct

variable {files next : FileTree} {workdir spec : Location}

theorem Direct.nonroot (direct : Direct files workdir spec) :
    workdir ++ spec ≠ [] :=
  List.append_ne_nil_of_right_ne_nil _ direct.nonempty

theorem dropLast_workdir (direct : Direct files workdir spec) :
    (workdir ++ spec).dropLast = workdir ++ spec.dropLast :=
  List.dropLast_append_of_ne_nil direct.nonempty

/-- The entry of a direct way is located where it is spelled. -/
theorem Direct.located
    (direct : Direct files workdir spec)
    {there : Location}
    (located : files.locate (absolute workdir spec) = .ok there) :
    there = workdir ++ spec ∧
      files.find (workdir ++ spec.dropLast) = some .directory := by
  have unlinked := direct.unlinked
  rw [← dropLast_workdir direct] at unlinked ⊢
  exact FileTree.locate_of_unlinked_dropLast direct.nonroot unlinked located

/-- An entry is found where its path is spelled. -/
theorem lstat_of_find
    {node : Node}
    (found : files.find (workdir ++ spec) = some node) :
    files.lstat (absolute workdir spec) = .ok node :=
  FileTree.lstat_of_some
    (FileTree.locate_of_found (by rw [found]; exact Option.some_ne_none _))
    found

theorem Direct.find_of_lstat
    (direct : Direct files workdir spec)
    {node : Node}
    (found : files.lstat (absolute workdir spec) = .ok node) :
    files.find (workdir ++ spec) = some node := by
  cases here : files.find (workdir ++ spec) with
  | some other =>
      rw [lstat_of_find here] at found
      rw [Except.ok.inj found]
  | none =>
      cases located : files.locate (absolute workdir spec) with
      | error error =>
          simp [FileTree.lstat, located, bind, Except.bind] at found
      | ok there =>
          obtain ⟨rfl, -⟩ := direct.located located
          rw [FileTree.lstat_of_none located here] at found
          cases found

theorem Direct.isOk_lstat (direct : Direct files workdir spec) :
    (files.lstat (absolute workdir spec)).isOk = true ↔
      files.find (workdir ++ spec) ≠ none := by
  constructor
  · intro here
    cases found : files.lstat (absolute workdir spec) with
    | error error =>
        rw [found] at here
        cases here
    | ok node =>
        rw [direct.find_of_lstat found]
        exact Option.some_ne_none node
  · intro here
    obtain ⟨node, found⟩ := Option.ne_none_iff_exists'.mp here
    rw [lstat_of_find found]
    rfl

end Direct

/-! ## What is read -/

section Reads

variable {Oid Index Tree : Type}
variable (git : Libgit2 Oid Index Tree)

/-- What git takes an entry of the work tree for. -/
def nodeBlob : Node -> Option (Blob Oid)
  | .file content mode =>
      some ⟨git.blob content,
        if isExecutable mode then .blobExecutable else .blob⟩
  | .symlink target => some ⟨git.blob target, .link⟩
  | .directory | .other _ => none

/-- What git takes the entry of a pathspec for. -/
def workingBlob (files : FileTree) (workdir spec : Location) :
    Option (Blob Oid) :=
  (files.find (workdir ++ spec)).bind (nodeBlob git)

variable {git}
variable {files : FileTree} {workdir spec : Location}

theorem worktreeBlob_of_find
    {node : Node}
    (found : files.find (workdir ++ spec) = some node) :
    worktreeBlob git workdir files spec = .ok (nodeBlob git node) := by
  have present : files.find (workdir ++ spec) ≠ none := by
    rw [found]
    exact Option.some_ne_none node
  have located := FileTree.locate_of_found present
  unfold worktreeBlob
  dsimp only
  rw [lstat_of_find found]
  cases node with
  | directory => rfl
  | other => rfl
  | symlink target =>
      dsimp only
      rw [absolute, FileTree.readLink_of_symlink located found]
      rfl
  | file content mode =>
      dsimp only
      rw [absolute, FileTree.read_of_file located found]
      rfl

/-- What is read of a direct way is what is there. -/
theorem Direct.worktreeBlob_eq_ok
    (direct : Direct files workdir spec)
    {blob : Option (Blob Oid)}
    (reads : worktreeBlob git workdir files spec = .ok blob) :
    blob = workingBlob git files workdir spec := by
  unfold workingBlob
  cases found : files.find (workdir ++ spec) with
  | some node =>
      rw [worktreeBlob_of_find found] at reads
      exact (Except.ok.inj reads).symm
  | none =>
      unfold worktreeBlob at reads
      dsimp only at reads
      cases stat : files.lstat (absolute workdir spec) with
      | ok node =>
          rw [direct.find_of_lstat stat] at found
          cases found
      | error error =>
          rw [stat] at reads
          cases error <;> cases reads
          rfl

end Reads

/-! ## What is removed -/

section Changes

variable {Index Tree α : Type}
variable {state next : GitState Index Tree} {workdir spec : Location}

theorem onFiles_eq_ok
    {action : FileOperation α}
    {value : α}
    (runs : onFiles action state = (.ok value, next)) :
    ∃ files, action state.files = (.ok value, files) ∧
      next = { state with files } := by
  cases ran : action state.files with
  | mk result files =>
      rw [onFiles, ran] at runs
      obtain ⟨same, rfl⟩ := Prod.mk.inj runs
      cases result with
      | error error => cases same
      | ok done =>
          cases same
          exact ⟨files, rfl, rfl⟩

theorem present_eq_ok
    {here : Bool}
    (runs : present workdir spec state = (.ok here, next)) :
    here = (state.files.lstat (absolute workdir spec)).isOk ∧ next = state := by
  obtain ⟨same, rfl⟩ := look_eq_ok runs
  exact ⟨(Except.ok.inj same).symm, rfl⟩

/-- The file system changes at one location, which holds this afterwards. -/
structure Replaced
    (state next : GitState Index Tree)
    (location : Location)
    (node : Option Node) : Prop where
  only : next = { state with files := next.files }
  here : next.files.find location = node
  there : ∀ other, other ≠ location ->
    next.files.find other = state.files.find other

/-- Unlinking an entry removes it and nothing else. -/
theorem replaced_of_unlink
    (direct : Direct state.files workdir spec)
    (runs : onFiles (change fun tree => tree.unlink (absolute workdir spec))
      state = (.ok (), next)) :
    Replaced state next (workdir ++ spec) none := by
  obtain ⟨files, changed, rfl⟩ := onFiles_eq_ok runs
  obtain ⟨there, node, nonroot, located, leaf, rfl⟩ :=
    FileTree.unlink_eq_ok (change_eq_ok changed)
  obtain ⟨rfl, -⟩ := direct.located located
  refine ⟨rfl, @FileTree.find_drop_of_below _ _ nonroot _
    (List.prefix_refl _), fun other apart => ?_⟩
  dsimp only
  rw [FileTree.find_drop]
  split_ifs with below
  · exact (FileTree.find_of_leaf_above leaf below apart.symm).symm
  · rfl

/-- Removing an entry leaves none there, and changes nothing else. -/
theorem replaced_of_removeFile
    (direct : Direct state.files workdir spec)
    (runs : removeFile workdir spec state = (.ok (), next)) :
    Replaced state next (workdir ++ spec) none := by
  obtain ⟨here, middle, looked, rest⟩ := bind_eq_ok runs
  obtain ⟨same, rfl⟩ := present_eq_ok looked
  split_ifs at rest with found
  · exact replaced_of_unlink direct rest
  · cases rest
    refine ⟨rfl, ?_, fun _ _ => rfl⟩
    rw [same, direct.isOk_lstat, not_not] at found
    exact found

/-! ## What is written -/

/-- The entry a blob is written as. -/
def blobNode (mode : FileMode) (content : List UInt8) : Node :=
  if mode = .link then .symlink (Text.lossy content).bytes
  else .file content (if mode = .blobExecutable then 0o755 else 0o644)

/-- The file system changes at one location, but for directories made above
it. -/
structure Written
    (files next : FileTree)
    (workdir spec : Location)
    (node : Node) : Prop where
  here : next.find (workdir ++ spec) = some node
  there : ∀ other, other ≠ workdir ++ spec ->
    next.find other = files.find other ∨
      other <+: workdir ++ spec.dropLast ∧ files.find other = none ∧
        next.find other = some .directory

/-- Making the directories above an entry. -/
theorem made_of_createDirAll
    {files : FileTree}
    (direct : Direct state.files workdir spec)
    (made : FileOperation.createDirAll (absolute workdir spec.dropLast)
      state.files = (.ok (), files)) :
    Direct files workdir spec ∧ files.find (workdir ++ spec) =
        state.files.find (workdir ++ spec) ∧
      ∀ other, files.find other = state.files.find other ∨
        other <+: workdir ++ spec.dropLast ∧ state.files.find other = none ∧
          files.find other = some .directory := by
  have along := FileOperation.alongWay_createDirAll
    (List.prefix_refl (workdir ++ spec.dropLast)) state.files direct.unlinked
  rw [absolute] at made
  rw [made] at along
  obtain ⟨extended, same⟩ := along
  refine ⟨⟨direct.nonempty, extended.unlinked direct.unlinked⟩, ?_, ?_⟩
  · refine same _ fun below => ?_
    rw [← dropLast_workdir direct] at below
    exact FileTree.not_isPrefix_dropLast direct.nonroot below
  · intro other
    by_cases above : other <+: workdir ++ spec.dropLast
    · by_cases missing : state.files.find other = none
      · rcases extended.added missing with absent | directory
        · exact .inl (absent.trans missing.symm)
        · exact .inr ⟨above, missing, directory⟩
      · exact .inl (extended.kept missing)
    · exact .inl (same other above)

theorem filesOnly_trans
    {first middle last : GitState Index Tree}
    (one : middle = { first with files := middle.files })
    (two : last = { middle with files := last.files }) :
    last = { first with files := last.files } := by
  rw [one] at two
  exact two

theorem find_set_only
    {files : FileTree}
    {location : Location}
    {node : Node}
    (vacant : files.Vacant location) :
    (files.set location node vacant).find location = some node ∧
      ∀ other, other ≠ location ->
        (files.set location node vacant).find other = files.find other :=
  ⟨FileTree.find_set_self, fun _ apart => FileTree.find_set_of_ne apart⟩

/-- A file that is written and gets its permission bits. -/
theorem find_of_write
    {files middle last : FileTree}
    {location : Location}
    {content : List UInt8}
    {creation mode : Nat}
    (free : files.Unlinked location)
    (nonroot : location ≠ [])
    (writes : files.write (FileTree.absolutePath location) content creation =
      .ok middle)
    (sets : middle.setPermissions (FileTree.absolutePath location) mode =
      .ok last) :
    last.find location = some (.file content mode) ∧
      ∀ other, other ≠ location -> last.find other = files.find other := by
  obtain ⟨made, vacant, rfl⟩ := FileTree.write_eq_ok free nonroot writes
  obtain ⟨again, rfl⟩ := FileTree.setPermissions_eq_ok (free.set (by simp))
    nonroot FileTree.find_set_self sets
  refine ⟨FileTree.find_set_self, fun other apart => ?_⟩
  rw [FileTree.find_set_of_ne apart, FileTree.find_set_of_ne apart]

variable {Oid : Type} {git : Libgit2 Oid Index Tree}

/-- Writing a blob puts its entry there, and changes nothing else but for the
directories above it. -/
theorem written_of_writeBlob
    {creation : Nat}
    {blob : Blob Oid}
    (direct : Direct state.files workdir spec)
    (linkless : blob.mode ≠ .link -> ∀ target,
      state.files.find (workdir ++ spec) ≠ some (.symlink target))
    (runs : writeBlob git workdir creation spec blob state = (.ok (), next)) :
    ∃ content, git.findBlob blob.id = .ok content ∧
      next = { state with files := next.files } ∧
      Written state.files next.files workdir spec
        (blobNode blob.mode content) := by
  obtain ⟨done, first, created, runs⟩ := bind_eq_ok runs
  obtain ⟨files, made, rfl⟩ := onFiles_eq_ok created
  obtain ⟨madeDirect, same, others⟩ := made_of_createDirAll direct made
  obtain ⟨content, middle, looked, runs⟩ := bind_eq_ok runs
  obtain ⟨stored, rfl⟩ := look_eq_ok looked
  refine ⟨content, stored, ?_⟩
  rw [blobNode]
  by_cases kind : blob.mode = .link
  · -- A link replaces what is there.
    rw [if_pos kind] at runs ⊢
    obtain ⟨done, middle, removed, runs⟩ := bind_eq_ok runs
    have gone := replaced_of_removeFile madeDirect removed
    have middleDirect : Direct middle.files workdir spec := by
      refine ⟨direct.nonempty, madeDirect.unlinked.of_find
        fun above before => .inl (gone.there above ?_)⟩
      rintro rfl
      rw [← dropLast_workdir direct] at before
      exact FileTree.not_isPrefix_dropLast direct.nonroot before
    obtain ⟨last, changed, rfl⟩ := onFiles_eq_ok runs
    obtain ⟨there, vacant, located, -, rfl⟩ :=
      FileTree.symlink_eq_ok (change_eq_ok changed)
    obtain ⟨rfl, -⟩ := middleDirect.located located
    obtain ⟨here, there⟩ := @find_set_only _ _
      (.symlink (Text.lossy content).bytes) vacant
    refine ⟨filesOnly_trans gone.only rfl, here, fun other apart => ?_⟩
    rw [there other apart, gone.there other apart]
    exact others other
  · rw [if_neg kind] at runs ⊢
    have free : files.Unlinked (workdir ++ spec) := by
      intro above before target found
      by_cases whole : above = workdir ++ spec
      · rw [whole, same] at found
        exact linkless kind target found
      · refine madeDirect.unlinked above ?_ target found
        rw [← dropLast_workdir direct]
        exact FileTree.isPrefix_dropLast before whole
    obtain ⟨done, middle, written, runs⟩ := bind_eq_ok runs
    obtain ⟨middle, changed, rfl⟩ := onFiles_eq_ok written
    obtain ⟨last, granted, rfl⟩ := onFiles_eq_ok runs
    obtain ⟨here, there⟩ := find_of_write free direct.nonroot
      (change_eq_ok changed) (change_eq_ok granted)
    refine ⟨rfl, here, fun other apart => ?_⟩
    dsimp only
    rw [there other apart]
    exact others other

end Changes

end Gitexec
end Marsh
