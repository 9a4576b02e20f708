import Marsh.Gitexec.Stashing

/-!
# When the builtins succeed

Each builtin on one path returns zero when the index, the work tree and `HEAD`
are what its action asks of them there.
-/

namespace Marsh
namespace Gitexec

open Library Exec
open Operation

/-! ## Paths at home -/

/-- Whether a path's directory is there, and the path is a regular file or
nothing. -/
structure Home (files : FileTree) (workdir spec : Location) : Prop where
  nonempty : spec ≠ []
  inside : files.find (workdir ++ spec.dropLast) = some .directory
  regular : ∀ node, files.find (workdir ++ spec) = some node ->
    ∃ content mode, node = .file content mode ∧ UniformMode mode
  short : ∀ name ∈ workdir ++ spec, name.bytes.length ≤ nameMax

namespace Home

variable {files : FileTree} {workdir spec : Location}

/-- All the way to a directory is directories. -/
theorem direct (home : Home files workdir spec) :
    Direct files workdir spec where
  nonempty := home.nonempty
  unlinked above before target found := by
    by_cases whole : above = workdir ++ spec.dropLast
    · rw [whole, home.inside] at found
      cases found
    · have directory := files.directory_of_below
        (by rw [home.inside]; exact Option.some_ne_none _) before whole
      rw [directory] at found
      cases found

theorem plain (home : Home files workdir spec) :
    Plain files workdir spec where
  toDirect := home.direct
  kind node found := .inl (home.regular node found)

theorem linkless
    (home : Home files workdir spec)
    (target : List UInt8) :
    files.find (workdir ++ spec) ≠ some (.symlink target) := by
  intro found
  obtain ⟨content, mode, same, -⟩ := home.regular _ found
  cases same

theorem vacant (home : Home files workdir spec) :
    files.Vacant (workdir ++ spec) where
  nonroot := home.direct.nonroot
  inside := by
    rw [dropLast_workdir home.direct]
    exact home.inside
  leaf found := by
    obtain ⟨content, mode, same, -⟩ := home.regular _ found
    cases same
  short := home.short

/-- The path is opened where it is spelled. -/
theorem follow (home : Home files workdir spec) :
    files.follow (absolute workdir spec) = .ok (workdir ++ spec) := by
  have split : workdir ++ spec =
      (workdir ++ spec.dropLast) ++ [spec.getLast home.nonempty] := by
    rw [List.append_assoc, List.dropLast_append_getLast]
  rw [absolute, split]
  refine FileTree.follow_absolutePath home.inside ?_ fun target => ?_
  · exact home.short _ (by
      rw [List.mem_append]
      exact .inr (List.getLast_mem home.nonempty))
  · rw [← split]
    exact home.linkless target

/-- A path that is nothing is found to be. -/
theorem lstat_of_none
    (home : Home files workdir spec)
    (missing : files.find (workdir ++ spec) = none) :
    files.lstat (absolute workdir spec) = .error .notFound := by
  have split : workdir ++ spec =
      (workdir ++ spec.dropLast) ++ [spec.getLast home.nonempty] := by
    rw [List.append_assoc, List.dropLast_append_getLast]
  have last := List.getLast_mem home.nonempty
  refine FileTree.lstat_of_none ?_ missing
  rw [absolute, split]
  exact FileTree.locate_absolutePath home.inside
    (home.short _ (List.mem_append_right _ last))

/-- Nothing, or a file, is overwritten. -/
theorem write
    (home : Home files workdir spec)
    (content : List UInt8)
    (creation : Nat) :
    ∃ mode, files.write (absolute workdir spec) content creation =
        .ok (files.set (workdir ++ spec) (.file content mode) home.vacant) ∧
      (files.find (workdir ++ spec) = none ∧ mode = creation ∨
        ∃ old, files.find (workdir ++ spec) = some (.file old mode)) := by
  rw [FileTree.write, home.follow]
  cases found : files.find (workdir ++ spec) with
  | none =>
      refine ⟨creation, ?_, .inl ⟨rfl, rfl⟩⟩
      simp only [bind, Except.bind, found]
      exact FileTree.put_of_vacant home.vacant
  | some node =>
      obtain ⟨old, mode, rfl, -⟩ := home.regular node found
      refine ⟨mode, ?_, .inr ⟨old, rfl⟩⟩
      simp only [bind, Except.bind, found]
      exact FileTree.put_of_vacant home.vacant

/-- A file's permission bits are set. -/
theorem setPermissions
    (home : Home files workdir spec)
    {content : List UInt8}
    {old : Nat}
    (found : files.find (workdir ++ spec) = some (.file content old))
    (mode : Nat) :
    files.setPermissions (absolute workdir spec) mode =
      .ok (files.set (workdir ++ spec) (.file content mode) home.vacant) := by
  rw [FileTree.setPermissions, home.follow]
  simp only [bind, Except.bind, found]
  exact FileTree.put_of_vacant home.vacant

/-- A path stays at home while its directory stays, and it is a file. -/
theorem of_set
    (home : Home files workdir spec)
    {content : List UInt8}
    {mode : Nat}
    (uniform : UniformMode mode) :
    Home (files.set (workdir ++ spec) (.file content mode) home.vacant) workdir
      spec where
  nonempty := home.nonempty
  inside := by
    rw [FileTree.find_set_of_ne, home.inside]
    rw [← dropLast_workdir home.direct]
    exact FileTree.dropLast_ne_self home.direct.nonroot
  regular node found := by
    rw [FileTree.find_set_self] at found
    exact ⟨content, mode, (Option.some.inj found).symm, uniform⟩
  short := home.short

/-- The directories on the way are all there. -/
theorem createDirAll (home : Home files workdir spec) :
    ∃ next, FileOperation.createDirAll (absolute workdir spec.dropLast) files =
        (.ok (), next) ∧
      next = files := by
  have directory : ∀ above : Location, above <+: workdir ++ spec.dropLast ->
      files.find above = some .directory := by
    intro above before
    by_cases whole : above = workdir ++ spec.dropLast
    · rw [whole, home.inside]
    · exact files.directory_of_below
        (by rw [home.inside]; exact Option.some_ne_none _) before whole
  obtain ⟨next, made, finds⟩ := FileOperation.createDirAll_absolutePath
    (fun above before => .inr (directory above before))
    (files.short (by rw [home.inside]; exact Option.some_ne_none _))
  refine ⟨next, made, FileTree.ext fun other => ?_⟩
  rw [finds]
  split_ifs with before
  · exact (directory other before).symm
  · rfl

end Home

/-! ## Parts that succeed -/

section Parts

variable {Oid Index Tree α : Type}
variable {git : Libgit2 Oid Index Tree}
variable {workdir spec : Location} {state : GitState Index Tree}

theorem onFiles_of_ok
    {action : FileOperation α}
    {value : α}
    {files : FileTree}
    (runs : action state.files = (.ok value, files)) :
    onFiles action state = (.ok value, { state with files }) := by
  rw [onFiles, runs]
  rfl

theorem present_of_direct (direct : Direct state.files workdir spec) :
    present workdir spec state =
      (.ok (state.files.find (workdir ++ spec)).isSome, state) := by
  refine look_of_ok (congrArg Except.ok ?_)
  rw [Bool.eq_iff_iff, direct.isOk_lstat, Option.isSome_iff_ne_none]

/-- A file that is there is removed. -/
theorem removeFile_of_home (home : Home state.files workdir spec) :
    ∃ next, removeFile workdir spec state = (.ok (), next) := by
  rw [removeFile, bind_of_ok (present_of_direct home.direct)]
  cases found : state.files.find (workdir ++ spec) with
  | none => exact ⟨state, rfl⟩
  | some node =>
      obtain ⟨content, mode, rfl, -⟩ := home.regular node found
      have leaf : state.files.leaf (workdir ++ spec) =
          some (.file content mode) :=
        FileTree.leaf_eq_some.mpr ⟨found, by simp⟩
      exact ⟨_, onFiles_of_ok (change_of_ok (FileTree.unlink_of_leaf
        (FileTree.locate_of_found (by rw [found]; exact Option.some_ne_none _))
        leaf home.direct.nonroot))⟩

/-- A file of the object database is written. -/
theorem writeBlob_of_home
    (home : Home state.files workdir spec)
    {creation : Nat}
    {blob : Blob Oid}
    {content : List UInt8}
    (uniform : UniformMode creation)
    (stored : git.findBlob blob.id = .ok content)
    (file : blob.mode ≠ .link) :
    ∃ next, writeBlob git workdir creation spec blob state = (.ok (), next) := by
  obtain ⟨files, made, rfl⟩ := home.createDirAll
  obtain ⟨mode, writes, was⟩ := home.write content creation
  have kept : UniformMode mode := by
    rcases was with ⟨-, rfl⟩ | ⟨old, found⟩
    · exact uniform
    · obtain ⟨content, other, same, uniform⟩ := home.regular _ found
      cases same
      exact uniform
  have sets := @Home.setPermissions _ workdir spec (home.of_set kept) content
    mode FileTree.find_set_self
    (if blob.mode = .blobExecutable then 0o755 else 0o644)
  have first := @onFiles_of_ok Index Tree Unit state _ _ _ made
  apply Exists.intro
  rw [writeBlob, bind_of_ok first, look_bind, stored]
  dsimp only
  rw [if_neg file]
  exact (bind_of_ok (onFiles_of_ok (change_of_ok writes))).trans
    (onFiles_of_ok (change_of_ok sets))

/-- A file of the object database is taken into the index. -/
theorem addEntry_of_stored
    (lawful : git.Lawful)
    {blob : Blob Oid}
    {content : List UInt8}
    (accepted : git.accepts spec = true)
    (stored : git.findBlob blob.id = .ok content)
    (file : blob.mode.IsFile)
    (index : Index) : ∃ next, addEntry git spec blob index = .ok next :=
  lawful.indexAdd_ok accepted stored file

/-- A file of the work tree is taken into the index. -/
theorem addPath_of_home
    (lawful : git.Lawful)
    (home : Home state.files workdir spec)
    (accepted : git.accepts spec = true)
    {node : Node}
    (found : state.files.find (workdir ++ spec) = some node)
    (index : Index) :
    ∃ next, git.indexAddPath index state.files workdir spec = .ok next := by
  obtain ⟨content, mode, rfl, -⟩ := home.regular node found
  rw [lawful.addPath_file (lstat_of_find found)]
  by_cases owner : mode &&& 0o100 ≠ 0
  · rw [if_pos owner]
    exact lawful.indexAdd_ok accepted (lawful.findBlob_blob content)
      (.inr (.inl rfl))
  · rw [if_neg owner]
    exact lawful.indexAdd_ok accepted (lawful.findBlob_blob content) (.inl rfl)

end Parts

/-! ## Builtins that succeed -/

section Builtins

variable {Oid Index Tree : Type} [DecidableEq Oid]
variable {git : Libgit2 Oid Index Tree}
variable {workdir spec : Location} {state : GitState Index Tree}

omit [DecidableEq Oid] in
/-- A path is staged when it is in the work tree or in the index. -/
theorem stage_succeeds
    (lawful : git.Lawful)
    (home : Home state.files workdir spec)
    (accepted : git.accepts spec = true)
    (known : state.files.find (workdir ++ spec) ≠ none ∨
      git.indexGet state.index spec ≠ none) :
    (stage git workdir [spec] state).1 = .ok 0 := by
  have turn : ∃ taken, stageEach git workdir spec state.index state =
      (.ok (.ok taken), state) := by
    rw [stageEach, bind_of_ok (present_of_direct home.direct)]
    cases found : state.files.find (workdir ++ spec) with
    | none =>
        have indexed := known.resolve_left (not_not.mpr found)
        obtain ⟨taken, removes⟩ := lawful.indexRemovePath_ok state.index spec
        refine ⟨taken, ?_⟩
        rw [if_neg (by simp), if_pos (Option.isSome_iff_ne_none.mpr indexed)]
        exact bind_of_ok (look_of_ok removes)
    | some node =>
        obtain ⟨taken, adds⟩ := addPath_of_home lawful home accepted found
          state.index
        refine ⟨taken, ?_⟩
        rw [if_pos (by simp)]
        exact bind_of_ok (look_of_ok adds)
  obtain ⟨taken, ran⟩ := turn
  rw [stage, look_bind]
  dsimp only
  rw [bind_of_ok (forEach_singleton ran)]
  rfl

omit [DecidableEq Oid] in
/-- A path `HEAD` has a file at is unstaged. -/
theorem unstage_succeeds
    (lawful : git.Lawful)
    (accepted : git.accepts spec = true)
    {blob : Blob Oid}
    {content : List UInt8}
    (committed : committedBlob git (headTree state) spec = some blob)
    (stored : git.findBlob blob.id = .ok content)
    (file : blob.mode.IsFile) :
    (unstage git [spec] state).1 = .ok 0 := by
  obtain ⟨taken, adds⟩ := addEntry_of_stored lawful accepted stored file
    state.index
  have turn : unstageEach git (headTree state) spec state.index state =
      (.ok (.ok taken), state) := by
    rw [committedBlob] at committed
    rw [unstageEach.eq_def, committed]
    exact bind_of_ok (look_of_ok adds)
  rw [unstage, look_bind]
  dsimp only
  rw [look_bind]
  dsimp only
  rw [bind_of_ok (forEach_singleton turn)]
  rfl

omit [DecidableEq Oid] in
/-- What is read of a path at home. -/
theorem worktreeBlob_of_home
    (home : Home state.files workdir spec) :
    worktreeBlob git workdir state.files spec =
      .ok (workingBlob git state.files workdir spec) := by
  cases found : state.files.find (workdir ++ spec) with
  | some node =>
      rw [worktreeBlob_of_find found, workingBlob, found]
      rfl
  | none =>
      rw [worktreeBlob.eq_def, workingBlob_of_none found]
      dsimp only
      rw [home.lstat_of_none found]

/-- A path that is the same everywhere is removed. -/
theorem delete_succeeds
    (lawful : git.Lawful)
    (home : Home state.files workdir spec)
    {blob : Blob Oid}
    (staged : indexBlob git state.index spec = some blob)
    (committed : committedBlob git (headTree state) spec = some blob)
    (working : workingBlob git state.files workdir spec = some blob) :
    (delete git workdir [spec] state).1 = .ok 0 := by
  have checks : deleteCheck git workdir state.index (headTree state) spec ()
      state = (.ok (.ok ()), state) := by
    rw [committedBlob] at committed
    rw [deleteCheck.eq_def, staged, committed]
    dsimp only
    rw [look_bind, worktreeBlob_of_home home, working]
    simp [refusal]
    rfl
  obtain ⟨middle, removed⟩ := removeFile_of_home home
  obtain ⟨taken, removes⟩ := lawful.indexRemovePath_ok state.index spec
  have turn : ∃ last, deleteEach git workdir spec state.index state =
      (.ok (.ok taken), last) := by
    apply Exists.intro
    rw [deleteEach, bind_of_ok removed, look_bind, removes]
    rfl
  obtain ⟨last, ran⟩ := turn
  rw [delete, look_bind]
  dsimp only
  rw [look_bind]
  dsimp only
  rw [bind_of_ok (forEach_singleton checks)]
  dsimp only
  rw [bind_of_ok (forEach_singleton ran)]
  rfl

omit [DecidableEq Oid] in
/-- A path the index knows is not cleaned. -/
theorem clean_succeeds
    (home : Home state.files workdir spec)
    (known : git.indexGet state.index spec ≠ none ∨
      state.files.find (workdir ++ spec) = none) :
    clean git workdir [spec] state = (.ok 0, state) := by
  have turn : cleanEach git workdir state.index spec () state =
      (.ok (.ok ()), state) := by
    have tracked : ¬ ((git.indexGet state.index spec).isNone &&
        (state.files.find (workdir ++ spec)).isSome) = true := by
      rw [Bool.and_eq_true, Option.isNone_iff_eq_none,
        Option.isSome_iff_ne_none]
      rcases known with indexed | missing
      · exact fun both => indexed both.1
      · exact fun both => both.2 missing
    rw [cleanEach, bind_of_ok (present_of_direct home.direct), if_neg tracked]
    rfl
  rw [clean, look_bind]
  dsimp only
  rw [bind_of_ok (forEach_singleton turn)]
  rfl

omit [DecidableEq Oid] in
/-- A path `HEAD` has a file at is checked out. -/
theorem checkout_succeeds
    (lawful : git.Lawful)
    (home : Home state.files workdir spec)
    (accepted : git.accepts spec = true)
    {creation : Nat}
    (uniform : UniformMode creation)
    {blob : Blob Oid}
    {content : List UInt8}
    (committed : committedBlob git (headTree state) spec = some blob)
    (stored : git.findBlob blob.id = .ok content)
    (file : blob.mode.IsFile)
    (linkless : blob.mode ≠ .link) :
    (checkout git workdir creation [spec] state).1 = .ok 0 := by
  have found : restorableEach git (headTree state) spec [] state =
      (.ok (.ok [(spec, blob)]), state) := by
    rw [committedBlob] at committed
    rw [restorableEach.eq_def, committed]
    rfl
  obtain ⟨written, writes⟩ := writeBlob_of_home home uniform stored linkless
  obtain ⟨taken, adds⟩ := addEntry_of_stored lawful accepted stored file
    state.index
  have turn : checkoutEach git workdir creation (spec, blob) state.index state =
      (.ok (.ok taken), written) := by
    rw [checkoutEach, bind_of_ok writes, look_bind, adds]
    rfl
  rw [checkout, look_bind]
  dsimp only
  rw [look_bind]
  dsimp only
  rw [bind_of_ok (forEach_singleton found)]
  dsimp only
  rw [bind_of_ok (forEach_singleton turn)]
  rfl

/-! ## Commits that succeed -/

/-- Whether a blob is a regular file of the object database. -/
structure Stored (git : Libgit2 Oid Index Tree) (blob : Blob Oid) : Prop where
  file : blob.mode.IsFile
  linkless : blob.mode ≠ .link
  content : ∃ content, git.findBlob blob.id = .ok content

omit [DecidableEq Oid] in
/-- What is at a path at home is a regular file. -/
theorem stored_of_home
    (lawful : git.Lawful)
    {files : FileTree}
    (home : Home files workdir spec)
    {blob : Blob Oid}
    (working : workingBlob git files workdir spec = some blob) :
    Stored git blob := by
  obtain ⟨node, found, is⟩ := Option.bind_eq_some_iff.mp working
  obtain ⟨content, mode, rfl, -⟩ := home.regular node found
  cases is
  refine ⟨?_, ?_, content, lawful.findBlob_blob content⟩
  · dsimp only
    split_ifs
    · exact .inr (.inl rfl)
    · exact .inl rfl
  · dsimp only
    split_ifs <;> exact fun same => by cases same

omit [DecidableEq Oid] in
/-- A file of a tree is replaced by a file, or removed. -/
theorem createUpdated_of_stored
    (lawful : git.Lawful)
    {base : Tree}
    {committed : Blob Oid}
    (found : treeBlob git base spec = some committed)
    (stored : Stored git committed)
    {blob : Option (Blob Oid)}
    (replaces : ∀ file ∈ blob, Stored git file) :
    ∃ tree, git.createUpdated base [⟨spec, blob⟩] = .ok tree := by
  obtain ⟨entry, there, rfl⟩ := Option.map_eq_some_iff.mp found
  exact lawful.createUpdated_ok there stored.file fun file is =>
    ⟨(replaces file is).file, (replaces file is).content⟩

omit [DecidableEq Oid] in
/-- A tree whose file was replaced by another one is another tree. -/
theorem treeId_ne_of_createUpdated
    (lawful : git.Lawful)
    {base tree : Tree}
    {blob : Blob Oid}
    (creates : git.createUpdated base [⟨spec, some blob⟩] = .ok tree)
    (differs : treeBlob git base spec ≠ some blob) :
    git.treeId tree ≠ git.treeId base := by
  intro same
  have stands := lawful.treeGet_updated creates ⟨spec, some blob⟩
    (List.mem_singleton_self _) fun other listed _ => List.mem_singleton.mp listed
  have recorded : treeBlob git tree spec = some blob :=
    recorded_of_stands stands
  rw [treeBlob, lawful.treeGet_of_treeId same spec] at recorded
  exact differs recorded

omit [DecidableEq Oid] in
/-- A file that was committed is taken into the index. -/
theorem indexEach_succeeds
    (lawful : git.Lawful)
    (home : Home state.files workdir spec)
    (accepted : git.accepts spec = true)
    {node : Node}
    (found : state.files.find (workdir ++ spec) = some node)
    (index : Index) :
    ∃ taken, indexEach git workdir spec index state =
      (.ok (.ok taken), state) := by
  obtain ⟨taken, adds⟩ := addPath_of_home lawful home accepted found index
  refine ⟨taken, ?_⟩
  rw [indexEach, bind_of_ok (present_of_direct home.direct),
    if_pos (by rw [found]; rfl), look_bind, adds]
  rfl

/-- A path whose file is another one than `HEAD` has is committed. -/
theorem commit_succeeds
    (lawful : git.Lawful)
    (home : Home state.files workdir spec)
    (accepted : git.accepts spec = true)
    {text : Text}
    (printable : '\x00' ∉ text)
    (author committer : GitEnvIdentity)
    {committed working : Blob Oid}
    (head : committedBlob git (headTree state) spec = some committed)
    (stored : Stored git committed)
    (there : workingBlob git state.files workdir spec = some working)
    (differs : working ≠ committed) :
    (commit git workdir [spec] (some text) author committer state).1 =
      .ok 0 := by
  obtain ⟨tree, headed, found⟩ := Option.bind_eq_some_iff.mp head
  obtain ⟨parent, isHead, rfl⟩ := Option.map_eq_some_iff.mp headed
  obtain ⟨pretty, prettified⟩ := lawful.messagePrettify_ok text printable
  obtain ⟨made, creates⟩ := createUpdated_of_stored lawful found stored
    (fun file (is : file ∈ some working) =>
      Option.some.inj is ▸ stored_of_home lawful home there)
  have changed := treeId_ne_of_createUpdated lawful creates
    (fun same => differs (Option.some.inj (same.symm.trans found)))
  have update : commitEach git workdir state.index parent.tree spec [] state =
      (.ok (.ok [⟨spec, some working⟩]), state) := by
    rw [commitEach, if_pos (by rw [found, Option.isSome_some, Bool.or_true]),
      look_bind, worktreeBlob_of_home home, there]
    rfl
  obtain ⟨node, here, -⟩ := Option.bind_eq_some_iff.mp there
  obtain ⟨taken, turn⟩ := @indexEach_succeeds _ _ _ git workdir spec
    { state with head := some ⟨made, [parent], author, committer, pretty⟩ }
    lawful home accepted _ here state.index
  rw [commit.eq_def]
  dsimp only
  rw [look_bind, prettified]
  dsimp only
  rw [look_bind, isHead]
  dsimp only
  rw [look_bind]
  dsimp only
  rw [bind_of_ok (forEach_singleton update)]
  dsimp only
  rw [look_bind, creates]
  dsimp only
  rw [if_neg changed, change_bind]
  dsimp only
  rw [bind_of_ok (forEach_singleton turn)]
  rfl

/-! ## Stashes that succeed -/

omit [DecidableEq Oid] in
/-- A path is taken back to a file of `HEAD` before the rest. -/
theorem stashEach_bind
    (lawful : git.Lawful)
    (home : Home state.files workdir spec)
    (accepted : git.accepts spec = true)
    {creation : Nat}
    (uniform : UniformMode creation)
    {base : Tree}
    {saved : StashedState Oid}
    (place : saved.spec = spec)
    {blob : Blob Oid}
    (committed : treeBlob git base spec = some blob)
    (stored : Stored git blob)
    {index : Index}
    {rest : Except Int Index -> GitOperation Index Tree Int}
    (later : ∀ taken last, (rest (.ok taken) last).1 = .ok 0) :
    ((forEach (stashEach git workdir creation base) [saved] index >>= rest)
      state).1 = .ok 0 := by
  subst place
  obtain ⟨content, isStored⟩ := stored.content
  obtain ⟨written, writes⟩ := writeBlob_of_home home uniform isStored
    stored.linkless
  obtain ⟨taken, adds⟩ := addEntry_of_stored lawful accepted isStored
    stored.file index
  have turn : stashEach git workdir creation base saved index state =
      (.ok (.ok taken), written) := by
    rw [stashEach.eq_def, committed]
    dsimp only
    rw [bind_of_ok writes, look_bind, adds]
    rfl
  rw [bind_of_ok (forEach_singleton turn)]
  exact later taken written

omit [DecidableEq Oid] in
/-- What a stash is named has no NUL when the branch has none. -/
theorem printable_label
    (lawful : git.Lawful)
    (branch : '\x00' ∉ branchName state)
    (parent : Commit Tree)
    {start : Text}
    (printable : '\x00' ∉ start) :
    '\x00' ∉ start ++ ("on ".toList ++ branchName state ++ ": ".toList ++
      short (git.commitId parent) ++ [' '] ++
      (git.summary parent).getD []) := by
  have id : '\x00' ∉ short (git.commitId parent) :=
    fun member => lawful.nul_notMem_commitId parent (List.mem_of_mem_take member)
  have summary : '\x00' ∉ (git.summary parent).getD [] := by
    cases is : git.summary parent with
    | none => exact List.not_mem_nil
    | some text => exact lawful.nul_notMem_summary parent text is
  simp only [List.mem_append, not_or]
  exact ⟨printable, ⟨⟨⟨⟨⟨by decide, branch⟩, by decide⟩, id⟩, by decide⟩,
    summary⟩⟩

/-- A known path that differs somewhere is stashed. -/
theorem stash_succeeds
    (lawful : git.Lawful)
    (home : Home state.files workdir spec)
    (accepted : git.accepts spec = true)
    {creation : Nat}
    (uniform : UniformMode creation)
    (committer : GitEnvIdentity)
    (branch : '\x00' ∉ branchName state)
    {committed staged : Blob Oid}
    (head : committedBlob git (headTree state) spec = some committed)
    (stored : Stored git committed)
    (indexed : indexBlob git state.index spec = some staged)
    (stagedStored : Stored git staged)
    (differs : workingBlob git state.files workdir spec ≠ some committed) :
    (stash git workdir creation [spec] committer state).1 = .ok 0 := by
  obtain ⟨tree, headed, found⟩ := Option.bind_eq_some_iff.mp head
  obtain ⟨parent, isHead, rfl⟩ := Option.map_eq_some_iff.mp headed
  have dirty : (false || decide (treeBlob git parent.tree spec ≠ some staged) ||
      decide (workingBlob git state.files workdir spec ≠ some staged)) =
        true := by
    by_cases same : committed = staged
    · rw [← same, decide_eq_true differs, Bool.or_true]
    · have other : treeBlob git parent.tree spec ≠ some staged :=
        fun is => same (Option.some.inj (found.symm.trans is))
      rw [decide_eq_true other, Bool.or_true, Bool.true_or]
  have check : stashCheck git workdir state.index parent.tree spec ([], false)
      state = (.ok (.ok ([⟨spec, staged,
        workingBlob git state.files workdir spec⟩], true)), state) := by
    rw [stashCheck.eq_def, indexed]
    dsimp only
    rw [look_bind, worktreeBlob_of_home home]
    dsimp only
    rw [dirty]
    rfl
  obtain ⟨stagedTree, stagedCreates⟩ := createUpdated_of_stored lawful found
    stored (fun file (is : file ∈ some staged) =>
      Option.some.inj is ▸ stagedStored)
  obtain ⟨workingTree, workingCreates⟩ := createUpdated_of_stored lawful found
    stored (fun file is => stored_of_home lawful home is)
  obtain ⟨stagedMessage, stagedPretty⟩ := lawful.messagePrettify_ok _
    (printable_label lawful branch parent
      (by decide : '\x00' ∉ "index ".toList))
  obtain ⟨message, pretty⟩ := lawful.messagePrettify_ok _
    (printable_label lawful branch parent (by decide : '\x00' ∉ "WIP ".toList))
  rw [stash, look_bind, isHead]
  dsimp only
  rw [look_bind]
  dsimp only
  rw [bind_of_ok (forEach_singleton check)]
  dsimp only
  rw [if_pos rfl, look_bind]
  dsimp only
  rw [look_bind, List.map_singleton, stagedCreates]
  dsimp only
  rw [look_bind, stagedPretty]
  dsimp only
  rw [look_bind, List.map_singleton, workingCreates]
  dsimp only
  rw [look_bind, pretty]
  dsimp only
  rw [setStash, change_bind]
  dsimp only
  refine stashEach_bind lawful ?_ accepted uniform rfl found stored
    fun taken last => rfl
  exact home

end Builtins

end Gitexec
end Marsh
