import Marsh.Gitexec.Repository

/-!
# A repository library over lists of entries

The index and the trees as lists of files no two of which are nested.  It has
the behaviour that the builtins rely on.
-/

namespace Marsh
namespace Gitexec

open Library Exec

/-! ## Entries -/

/-- Content and mode of a file. -/
structure FileEntry where
  path : Location
  content : List UInt8
  mode : FileMode
  deriving DecidableEq

/-- Two files that are not nested. -/
def FileEntry.Apart (first second : FileEntry) : Prop :=
  ¬ Nested first.path second.path

instance : Std.Symm FileEntry.Apart where
  symm _ _ apart nested := apart nested.symm

/-- Files no two of which are nested. -/
structure EntryList where
  entries : List FileEntry
  apart : entries.Pairwise FileEntry.Apart
  files : ∀ entry ∈ entries, entry.mode.IsFile

namespace EntryList

/-- The file at a path. -/
def get (list : EntryList) (path : Location) : Option FileEntry :=
  list.entries.find? fun entry => entry.path = path

/-- Removes what is at a path, above it and below it. -/
def clear (list : EntryList) (path : Location) : EntryList where
  entries := list.entries.filter fun entry => ¬ Nested path entry.path
  apart := list.apart.filter _
  files entry member := list.files entry (List.mem_of_mem_filter member)

/-- Puts a file at its path. -/
def put (list : EntryList) (entry : FileEntry) (file : entry.mode.IsFile) :
    EntryList where
  entries := entry :: (list.clear entry.path).entries
  apart := by
    refine List.pairwise_cons.mpr ⟨fun other member => ?_, (list.clear _).apart⟩
    have kept : ¬ Nested entry.path other.path := by
      simpa using List.of_mem_filter member
    exact kept
  files other member := by
    rcases List.mem_cons.mp member with rfl | member
    · exact file
    · exact (list.clear _).files other member

/-- The files below a directory. -/
def below (list : EntryList) (path : Location) : List FileEntry :=
  list.entries.filter fun entry => path <+: entry.path ∧ path ≠ entry.path

variable {list : EntryList} {path : Location}

/-- A file that is listed is the one at its path. -/
theorem get_eq_some {entry : FileEntry} :
    list.get path = some entry ↔ entry ∈ list.entries ∧ entry.path = path := by
  constructor
  · intro found
    exact ⟨List.mem_of_find?_eq_some found,
      by simpa using List.find?_some found⟩
  · rintro ⟨member, rfl⟩
    cases found : list.get entry.path with
    | none =>
        have absent := List.find?_eq_none.mp found entry member
        simp at absent
    | some other =>
        have same : other.path = entry.path := by
          simpa using List.find?_some found
        have listed := List.mem_of_find?_eq_some found
        by_contra apart
        have different : other ≠ entry := fun equal => apart (by rw [equal])
        refine list.apart.forall listed member different ?_
        rw [same]
        exact nested_self _

theorem get_clear (list : EntryList) (path other : Location) :
    (list.clear path).get other =
      if Nested path other then none else list.get other := by
  ext entry
  rw [get_eq_some]
  split_ifs with nested
  · simp only [clear, List.mem_filter, decide_not, Bool.not_eq_eq_eq_not,
      Bool.not_true, decide_eq_false_iff_not, iff_false, not_and]
    rintro ⟨-, separate⟩ rfl
    exact separate nested
  · rw [get_eq_some]
    simp only [clear, List.mem_filter, decide_not, Bool.not_eq_eq_eq_not,
      Bool.not_true, decide_eq_false_iff_not, and_assoc]
    constructor
    · rintro ⟨member, -, same⟩
      exact ⟨member, same⟩
    · rintro ⟨member, rfl⟩
      exact ⟨member, nested, rfl⟩

theorem get_put
    (list : EntryList)
    (entry : FileEntry)
    (file : entry.mode.IsFile)
    (other : Location) :
    (list.put entry file).get other =
      if other = entry.path then some entry
      else if Nested entry.path other then none
      else list.get other := by
  split_ifs with same nested
  · exact get_eq_some.mpr ⟨List.mem_cons_self, same.symm⟩
  · have cleared := get_clear list entry.path other
    rw [if_pos nested] at cleared
    rw [← cleared]
    exact List.find?_cons_of_neg (by simpa [eq_comm] using same)
  · have cleared := get_clear list entry.path other
    rw [if_neg nested] at cleared
    rw [← cleared]
    exact List.find?_cons_of_neg (by simpa [eq_comm] using same)

/-- Clearing a path leaves the files below one that is apart. -/
theorem below_clear
    {other : Location}
    (apart : ¬ Nested path other) :
    (list.clear path).below other = list.below other := by
  unfold below clear
  rw [List.filter_filter]
  apply List.filter_congr
  intro entry _
  by_cases under : other <+: entry.path ∧ other ≠ entry.path
  · have separate : ¬ Nested path entry.path := by
      rintro (above | higher)
      · exact apart (List.prefix_or_prefix_of_prefix above under.1)
      · exact apart (.inr (under.1.trans higher))
    simp [under, separate]
  · simp [under]

theorem below_put
    {entry : FileEntry}
    {file : entry.mode.IsFile}
    {other : Location}
    (apart : ¬ Nested entry.path other) :
    (list.put entry file).below other = list.below other := by
  rw [← @below_clear list _ _ apart]
  refine List.filter_cons_of_neg ?_
  simp only [decide_eq_true_eq, not_and]
  exact fun under => absurd (.inr under) apart

end EntryList

/-! ## Objects -/

/-- Objects are named by what they hold. -/
inductive ObjectId
  | blob (content : List UInt8)
  | tree (entries : List FileEntry)
  deriving DecidableEq

/-- The entry of a file, as it is read. -/
def FileEntry.read (entry : FileEntry) : ObjectId × Nat :=
  (.blob entry.content, entry.mode.raw)

/-- The entry a tree has at a path. -/
def EntryList.treeGet (list : EntryList) (path : Location) :
    Option (ObjectId × Nat) :=
  match list.get path with
  | some entry => some entry.read
  | none =>
      if list.below path = [] then none
      else some (.tree (list.below path), FileMode.tree.raw)

/-- The library's error for an operation it refuses. -/
def refusedBy (operation : String) : GitError :=
  .libgit2 operation.toList

/-- Whether no name of a path is reserved. -/
def acceptsPath (path : Location) : Bool :=
  path ≠ [] ∧ ∀ name ∈ path, name.bytes ≠ Text.bytes ".git".toList

/-- `Index::add`. -/
def EntryList.add
    (list : EntryList)
    (path : Location)
    (id : ObjectId)
    (raw : Nat) : Except GitError EntryList :=
  match id with
  | .tree _ => .error (refusedBy "invalid object")
  | .blob content =>
      if valid : (fileMode raw).IsFile ∧ (fileMode raw).raw = raw then
        if acceptsPath path then
          .ok (list.put ⟨path, content, fileMode raw⟩ valid.1)
        else .error (refusedBy "invalid path")
      else .error (refusedBy "invalid entry mode")

/-- `Index::add_path`. -/
def EntryList.addPath
    (list : EntryList)
    (files : FileTree)
    (workdir path : Location) : Except GitError EntryList :=
  match files.lstat (FileTree.absolutePath (workdir ++ path)) with
  | .ok (.file content mode) =>
      list.add path (.blob content)
        (if mode &&& 0o100 ≠ 0 then FileMode.blobExecutable.raw
          else FileMode.blob.raw)
  | .ok (.symlink target) => list.add path (.blob target) FileMode.link.raw
  | .ok .directory | .ok (.other _) => .error (refusedBy "is not a file")
  | .error error => .error (.os error)

/-- `Index::remove_path`. -/
def EntryList.removePath
    (list : EntryList)
    (path : Location) : Except GitError EntryList :=
  .ok
    { entries := list.entries.filter fun entry => entry.path ≠ path
      apart := list.apart.filter _
      files := fun entry member =>
        list.files entry (List.mem_of_mem_filter member) }

/-- One update of a tree. -/
def EntryList.update
    (list : EntryList)
    (update : TreeUpdate ObjectId) : Except GitError EntryList :=
  match update.blob with
  | none => .ok (list.clear update.path)
  | some ⟨.tree _, _⟩ => .error (refusedBy "invalid object")
  | some ⟨.blob content, mode⟩ =>
      if file : mode.IsFile then
        .ok (list.put ⟨update.path, content, mode⟩ file)
      else .error (refusedBy "invalid entry mode")

/-- The updates of a tree, in order. -/
def EntryList.updateAll (list : EntryList) :
    List (TreeUpdate ObjectId) -> Except GitError EntryList
  | [] => .ok list
  | update :: updates => do
      let next ← list.update update
      next.updateAll updates

/-- `TreeUpdateBuilder::create_updated`: two of the paths may be one, and else
must not be nested; what is removed must be there. -/
def EntryList.createUpdated
    (list : EntryList)
    (updates : List (TreeUpdate ObjectId)) : Except GitError EntryList :=
  if (∀ first ∈ updates, ∀ second ∈ updates,
      Nested first.path second.path -> first.path = second.path) ∧
      ∀ update ∈ updates, update.blob = none ->
        (list.treeGet update.path).isSome then
    list.updateAll updates
  else .error (refusedBy "failed to update tree")

/-- The library over lists of entries. -/
def entryLists : Libgit2 ObjectId EntryList EntryList where
  openRepository _ _ := .ok ()
  signature identity := identity.name ≠ [] ∧ identity.email ≠ []
  blob := .blob
  findBlob
    | .blob content => .ok content
    | .tree _ => .error (refusedBy "not a blob")
  accepts := acceptsPath
  indexGet list path := (list.get path).map FileEntry.read
  indexAdd := EntryList.add
  indexAddPath := EntryList.addPath
  indexRemovePath := EntryList.removePath
  treeGet := EntryList.treeGet
  treeId list := .tree list.entries
  createUpdated := EntryList.createUpdated
  commitId _ := "0000000".toList
  summary commit := some (commit.message.takeWhile fun char =>
    char ≠ '\n' ∧ char ≠ '\x00')
  messagePrettify message :=
    if '\x00' ∈ message then .error (refusedBy "nul byte in message")
    else .ok (Text.trimEnd message ++ ['\n'])
  logged log _ _ := log
  revwalk commit := .ok (commit :: commit.parents)
  printDiff _ _ _ _ := .ok []

/-! ## Its behaviour -/

namespace EntryList

variable {list next : EntryList} {path other : Location}
variable {id : ObjectId} {raw : Nat}

theorem add_eq_ok (adds : list.add path id raw = .ok next) :
    ∃ content, ∃ file : (fileMode raw).IsFile,
      id = .blob content ∧ (fileMode raw).raw = raw ∧
        next = list.put ⟨path, content, fileMode raw⟩ file := by
  unfold add at adds
  cases id with
  | tree entries => cases adds
  | blob content =>
      dsimp only at adds
      split_ifs at adds with valid accepted
      exact ⟨content, valid.1, rfl, valid.2, (Except.ok.inj adds).symm⟩

theorem read_get_add (adds : list.add path id raw = .ok next) :
    (next.get other).map FileEntry.read =
      if other = path then some (id, raw)
      else if Nested path other then none
      else (list.get other).map FileEntry.read := by
  obtain ⟨content, file, rfl, same, rfl⟩ := add_eq_ok adds
  rw [get_put]
  split_ifs
  · simp [FileEntry.read, same]
  · rfl
  · rfl

theorem get_removePath (removes : list.removePath path = .ok next) :
    next.get other = if other = path then none else list.get other := by
  cases removes
  ext entry
  rw [get_eq_some]
  split_ifs with same
  · subst same
    simp only [List.mem_filter, ne_eq, decide_not, Bool.not_eq_eq_eq_not,
      Bool.not_true, decide_eq_false_iff_not, iff_false, not_and]
    rintro ⟨-, apart⟩ equal
    exact apart equal
  · rw [get_eq_some]
    simp only [List.mem_filter, ne_eq, decide_not, Bool.not_eq_eq_eq_not,
      Bool.not_true, decide_eq_false_iff_not, and_assoc]
    constructor
    · rintro ⟨member, -, equal⟩
      exact ⟨member, equal⟩
    · rintro ⟨member, rfl⟩
      exact ⟨member, same, rfl⟩

/-- A file is read where it is listed, and else a directory of some. -/
theorem treeGet_eq_some_iff (entry : ObjectId × Nat) :
    list.treeGet path = some entry ↔
      (∃ file, list.get path = some file ∧ file.read = entry) ∨
        list.get path = none ∧ list.below path ≠ [] ∧
          entry = (.tree (list.below path), FileMode.tree.raw) := by
  unfold treeGet
  cases list.get path with
  | some file => simp
  | none =>
      by_cases empty : list.below path = []
      · simp [empty]
      · simp [empty, eq_comm]

/-- What is read depends on the file at a path and on those below it. -/
theorem treeGet_congr
    {list other : EntryList}
    (file : list.get path = other.get path)
    (files : list.below path = other.below path) :
    list.treeGet path = other.treeGet path := by
  rw [treeGet, treeGet, file, files]

/-- A directory that is read is no file. -/
theorem get_of_treeGet_file
    (found : list.treeGet path = some (id, raw))
    (file : fileMode raw ≠ .tree) :
    ∃ entry, list.get path = some entry ∧ entry.read = (id, raw) := by
  obtain present | ⟨-, -, directory⟩ := (treeGet_eq_some_iff _).mp found
  · exact present
  · obtain ⟨-, rfl⟩ := Prod.mk.inj directory
    exact absurd rfl file

/-- Below a file that is listed nothing is. -/
theorem not_nested_of_get
    {entry inner : FileEntry}
    (found : list.get path = some entry)
    (member : inner ∈ list.entries)
    (nested : Nested path inner.path) : inner.path = path := by
  obtain ⟨listed, rfl⟩ := get_eq_some.mp found
  by_contra apart
  have different : entry ≠ inner := fun same => apart (by rw [same])
  exact list.apart.forall listed member different nested

theorem treeGet_below_file
    (found : list.treeGet path = some (id, raw))
    (file : fileMode raw ≠ .tree)
    (above : path <+: other)
    (apart : path ≠ other) : list.treeGet other = none := by
  obtain ⟨entry, listed, -⟩ := get_of_treeGet_file found file
  have missing : list.get other = none := by
    cases inner : list.get other with
    | none => rfl
    | some inside =>
        obtain ⟨member, rfl⟩ := get_eq_some.mp inner
        exact absurd (not_nested_of_get listed member (.inl above)).symm apart
  have empty : list.below other = [] := by
    refine List.filter_eq_nil_iff.mpr fun inner member under => ?_
    obtain ⟨below, -⟩ := of_decide_eq_true under
    have same := not_nested_of_get listed member (.inl (above.trans below))
    rw [same] at below
    exact apart (above.eq_of_length_le below.length_le)
  rw [treeGet, missing, if_pos empty]

theorem treeGet_above_entry
    {above : Location}
    (found : list.treeGet path ≠ none)
    (higher : above <+: path)
    (apart : above ≠ path) :
    ∃ id, list.treeGet above = some (id, FileMode.tree.raw) := by
  obtain ⟨entry, under⟩ : ∃ entry ∈ list.entries, path <+: entry.path := by
    obtain ⟨read, found⟩ := Option.ne_none_iff_exists'.mp found
    obtain ⟨file, listed, -⟩ | ⟨-, some, -⟩ := (treeGet_eq_some_iff _).mp found
    · obtain ⟨member, rfl⟩ := get_eq_some.mp listed
      exact ⟨file, member, List.prefix_refl _⟩
    · obtain ⟨file, member⟩ := List.exists_mem_of_ne_nil _ some
      obtain ⟨listed, below⟩ := List.mem_filter.mp member
      exact ⟨file, listed, (of_decide_eq_true below).1⟩
  have further : above <+: entry.path ∧ above ≠ entry.path := by
    refine ⟨higher.trans under.2, ?_⟩
    rintro rfl
    exact apart (higher.eq_of_length_le under.2.length_le)
  have missing : list.get above = none := by
    cases inner : list.get above with
    | none => rfl
    | some file =>
        exact absurd (not_nested_of_get inner under.1 (.inl further.1)).symm
          further.2
  have some : list.below above ≠ [] :=
    List.ne_nil_of_mem (List.mem_filter.mpr
      ⟨under.1, decide_eq_true further⟩)
  exact ⟨_, (treeGet_eq_some_iff _).mpr (.inr ⟨missing, some, rfl⟩)⟩

/-! ### Updates -/

variable {update : TreeUpdate ObjectId} {updates : List (TreeUpdate ObjectId)}

theorem update_eq_ok (changes : list.update update = .ok next) :
    update.blob = none ∧ next = list.clear update.path ∨
      ∃ content mode, ∃ file : mode.IsFile,
        update.blob = some ⟨.blob content, mode⟩ ∧
          next = list.put ⟨update.path, content, mode⟩ file := by
  unfold EntryList.update at changes
  split at changes
  next missing =>
    exact .inl ⟨missing, (Except.ok.inj changes).symm⟩
  next => cases changes
  next content mode stored =>
    split_ifs at changes with file
    exact .inr ⟨content, mode, file, stored, (Except.ok.inj changes).symm⟩

theorem treeGet_update_apart
    (changes : list.update update = .ok next)
    (apart : ¬ Nested update.path other) :
    next.treeGet other = list.treeGet other := by
  have different : other ≠ update.path := by
    rintro rfl
    exact apart (nested_self _)
  obtain ⟨-, rfl⟩ | ⟨content, mode, file, -, rfl⟩ := update_eq_ok changes
  · refine treeGet_congr ?_ (below_clear apart)
    rw [get_clear, if_neg apart]
  · refine treeGet_congr ?_ (below_put apart)
    rw [get_put, if_neg different, if_neg apart]

theorem treeGet_updateAll_apart
    (changes : list.updateAll updates = .ok next)
    (apart : ∀ update ∈ updates, ¬ Nested update.path other) :
    next.treeGet other = list.treeGet other := by
  induction updates generalizing list with
  | nil =>
      cases changes
      rfl
  | cons update updates hypothesis =>
      rw [updateAll] at changes
      cases first : list.update update with
      | error error => simp [first, bind, Except.bind] at changes
      | ok middle =>
          simp only [first, bind, Except.bind] at changes
          rw [hypothesis changes fun later member =>
              apart later (List.mem_cons_of_mem _ member),
            treeGet_update_apart first (apart update List.mem_cons_self)]

theorem stands_of_update (changes : list.update update = .ok next) :
    update.Stands (next.treeGet update.path) := by
  unfold TreeUpdate.Stands
  obtain ⟨missing, rfl⟩ | ⟨content, mode, file, stored, rfl⟩ :=
    update_eq_ok changes
  · have gone : (list.clear update.path).get update.path = none := by
      rw [get_clear, if_pos (nested_self _)]
    have empty : (list.clear update.path).below update.path = [] := by
      refine List.filter_eq_nil_iff.mpr fun entry member under => ?_
      have kept : ¬ Nested update.path entry.path := by
        simpa using List.of_mem_filter member
      exact kept (.inl (of_decide_eq_true under).1)
    rw [missing]
    intro entry found
    rw [treeGet, gone, if_pos empty] at found
    cases found
  · rw [stored]
    dsimp only
    rw [treeGet, get_put, if_pos rfl]
    rfl

theorem stands_of_updateAll
    (changes : list.updateAll updates = .ok next)
    (separate : ∀ first ∈ updates, ∀ second ∈ updates,
      Nested first.path second.path -> first.path = second.path)
    (member : update ∈ updates)
    (agrees : ∀ other ∈ updates, other.path = update.path -> other = update) :
    update.Stands (next.treeGet update.path) := by
  induction updates generalizing list with
  | nil => cases member
  | cons first updates hypothesis =>
      rw [updateAll] at changes
      cases changed : list.update first with
      | error error => simp [changed, bind, Except.bind] at changes
      | ok middle =>
          simp only [changed, bind, Except.bind] at changes
          by_cases later : update ∈ updates
          · exact hypothesis changes
              (fun one oneMember two twoMember =>
                separate one (List.mem_cons_of_mem _ oneMember) two
                  (List.mem_cons_of_mem _ twoMember))
              later
              fun other otherMember =>
                agrees other (List.mem_cons_of_mem _ otherMember)
          · obtain rfl := (List.mem_cons.mp member).resolve_right later
            have apart : ∀ other ∈ updates, ¬ Nested other.path update.path := by
              intro other otherMember nested
              have listed := List.mem_cons_of_mem update otherMember
              have same := agrees other listed
                (separate other listed update member nested)
              exact later (same ▸ otherMember)
            rw [treeGet_updateAll_apart changes apart]
            exact stands_of_update changed

theorem createUpdated_eq_ok (creates : list.createUpdated updates = .ok next) :
    list.updateAll updates = .ok next ∧
      ∀ first ∈ updates, ∀ second ∈ updates,
        Nested first.path second.path -> first.path = second.path := by
  unfold createUpdated at creates
  split_ifs at creates with valid
  exact ⟨creates, valid.1⟩

theorem createUpdated_single
    {blob : Option (Blob ObjectId)}
    (found : list.treeGet path = some (id, raw))
    (files : ∀ file ∈ blob, file.mode.IsFile ∧
      ∃ content, entryLists.findBlob file.id = .ok content) :
    ∃ next, list.createUpdated [⟨path, blob⟩] = .ok next := by
  have changes : ∃ next, list.updateAll [⟨path, blob⟩] = .ok next := by
    cases blob with
    | none => exact ⟨list.clear path, rfl⟩
    | some blob =>
        obtain ⟨file, content, stored⟩ := files blob rfl
        obtain ⟨id, mode⟩ := blob
        cases id with
        | tree entries => cases stored
        | blob content =>
            refine ⟨list.put ⟨path, content, mode⟩ file, ?_⟩
            rw [updateAll, EntryList.update]
            dsimp only
            rw [dif_pos file]
            rfl
  obtain ⟨next, changes⟩ := changes
  refine ⟨next, ?_⟩
  rw [createUpdated, if_pos, changes]
  simp [found]

end EntryList

/-- The lists behave as the builtins rely on. -/
theorem entryLists_lawful : entryLists.Lawful where
  indexGet_add adds other := EntryList.read_get_add adds
  fileMode_add adds directory := by
    obtain ⟨content, file, -⟩ := EntryList.add_eq_ok adds
    rw [directory] at file
    exact absurd file (by decide)
  indexAdd_ok := by
    intro index path id content mode accepted stored file
    cases id with
    | tree entries => cases stored
    | blob content =>
        have valid : (fileMode mode.raw).IsFile ∧
            (fileMode mode.raw).raw = mode.raw := by
          rw [fileMode_raw]
          exact ⟨file, rfl⟩
        refine ⟨index.put ⟨path, content, fileMode mode.raw⟩ valid.1, ?_⟩
        change EntryList.add index path (.blob content) mode.raw = _
        have taken : acceptsPath path = true := accepted
        exact (dif_pos valid).trans (if_pos taken)
  addPath_file found := by
    change EntryList.addPath _ _ _ _ = _
    rw [EntryList.addPath, found]
    rfl
  addPath_symlink found := by
    change EntryList.addPath _ _ _ _ = _
    rw [EntryList.addPath, found]
    rfl
  indexGet_remove := by
    intro index path next removes other
    change Option.map _ _ = _
    rw [EntryList.get_removePath removes]
    split_ifs <;> rfl
  indexRemovePath_ok _ _ := ⟨_, rfl⟩
  treeGet_below found file above apart :=
    EntryList.treeGet_below_file found file above apart
  treeGet_above found higher apart _ :=
    EntryList.treeGet_above_entry found higher apart
  treeGet_of_treeId same path := by
    have entries := ObjectId.tree.inj same
    refine EntryList.treeGet_congr ?_ ?_
    · rw [EntryList.get, EntryList.get, entries]
    · rw [EntryList.below, EntryList.below, entries]
  treeGet_updated creates update member agrees := by
    obtain ⟨changes, separate⟩ := EntryList.createUpdated_eq_ok creates
    exact EntryList.stands_of_updateAll changes separate member agrees
  treeGet_apart creates path apart :=
    EntryList.treeGet_updateAll_apart
      (EntryList.createUpdated_eq_ok creates).1 apart
  createUpdated_ok found _ files := EntryList.createUpdated_single found files
  findBlob_treeGet := by
    intro tree path id raw found file
    have notDirectory : fileMode raw ≠ .tree := by
      intro same
      rw [same] at file
      exact absurd file (by decide)
    obtain ⟨entry, -, same⟩ := EntryList.get_of_treeGet_file found notDirectory
    rw [← (Prod.mk.inj same).1]
    exact ⟨entry.content, rfl⟩
  findBlob_blob _ := rfl
  blob_of_findBlob := by
    intro id content found
    cases id with
    | blob content => cases found; rfl
    | tree entries => cases found
  messagePrettify_ok message clean := by
    change ∃ pretty, ite _ _ _ = _
    rw [if_neg clean]
    exact ⟨_, rfl⟩
  nul_notMem_commitId _ := by
    change '\x00' ∉ "0000000".toList
    decide
  nul_notMem_summary commit summary found := by
    cases found
    intro member
    simpa using List.mem_takeWhile_imp member

end Gitexec
end Marsh
