import Marsh.Gitexec.EntryLists
import Marsh.Gitexec.WorkTree

/-!
# What staging and unstaging do

A builtin that returns zero has brought the index to the work tree, or to
`HEAD`, at every path it was given, nested and repeated ones included, and left
every path apart from them.
-/

namespace Marsh
namespace Gitexec

open Library Exec
open Operation

section Index

variable {Oid Index Tree : Type}
variable {git : Libgit2 Oid Index Tree}

/-! ## The index -/

theorem indexBlob_eq_of_get
    {index other : Index}
    {path : Location}
    (same : git.indexGet index path = git.indexGet other path) :
    indexBlob git index path = indexBlob git other path := by
  rw [indexBlob, indexBlob, same]

/-- What an entry that is added changes. -/
theorem indexGet_of_addEntry
    (lawful : git.Lawful)
    {index next : Index}
    {spec : Location}
    {blob : Blob Oid}
    (adds : addEntry git spec blob index = .ok next) :
    blob.mode ≠ .tree ∧ indexBlob git next spec = some blob ∧
      (∀ other, other ≠ spec -> Nested spec other ->
        indexBlob git next other = none) ∧
      ∀ other, ¬ Nested spec other ->
        git.indexGet next other = git.indexGet index other := by
  have gets := lawful.indexGet_add adds
  refine ⟨?_, ?_, fun other apart nested => ?_, fun other apart => ?_⟩
  · have mode := lawful.fileMode_add adds
    rwa [fileMode_raw] at mode
  · rw [indexBlob, gets, if_pos rfl, Option.map_some, fileMode_raw]
  · rw [indexBlob, gets, if_neg apart, if_pos nested]
    rfl
  · have different : other ≠ spec := by
      rintro rfl
      exact apart (nested_self _)
    rw [gets, if_neg different, if_neg apart]

/-- What an entry that is removed changes. -/
theorem indexGet_of_remove
    (lawful : git.Lawful)
    {index next : Index}
    {spec : Location}
    (removes : git.indexRemovePath index spec = .ok next) :
    indexBlob git next spec = none ∧
      ∀ other, other ≠ spec ->
        git.indexGet next other = git.indexGet index other := by
  have gets := lawful.indexGet_remove removes
  refine ⟨?_, fun other apart => ?_⟩
  · rw [indexBlob, gets, if_pos rfl]
    rfl
  · rw [gets, if_neg apart]

/-! ## Entries git can record -/

/-- Whether anyone may execute a file only if its owner may. -/
def UniformMode (mode : Nat) : Prop :=
  isExecutable mode = true -> mode &&& 0o100 ≠ 0

instance (mode : Nat) : Decidable (UniformMode mode) :=
  inferInstanceAs (Decidable (_ -> _))

theorem isExecutable_of_owner {mode : Nat} (owner : mode &&& 0o100 ≠ 0) :
    isExecutable mode = true := by
  rw [isExecutable, decide_eq_true_eq]
  intro none
  have part : mode &&& 0o100 = (mode &&& 0o111) &&& 0o100 := by
    rw [Nat.and_assoc]
    rfl
  rw [part, none, Nat.zero_and] at owner
  exact owner rfl

theorem UniformMode.executable_iff {mode : Nat} (uniform : UniformMode mode) :
    isExecutable mode = true ↔ mode &&& 0o100 ≠ 0 :=
  ⟨uniform, isExecutable_of_owner⟩

/-- Whether a pathspec names nothing, a symbolic link, or a regular file that
anyone may execute only if its owner may (`UniformMode`). -/
structure Plain (files : FileTree) (workdir spec : Location) : Prop
    extends Direct files workdir spec where
  kind : ∀ node, files.find (workdir ++ spec) = some node ->
    (∃ content mode, node = .file content mode ∧ UniformMode mode) ∨
      ∃ target, node = .symlink target

section Adding

variable {files : FileTree} {workdir spec : Location}

/-- A path of the work tree is added as what it is taken for. -/
theorem addEntry_of_addPath
    (lawful : git.Lawful)
    (plain : Plain files workdir spec)
    {node : Node}
    (found : files.find (workdir ++ spec) = some node)
    {index next : Index}
    (adds : git.indexAddPath index files workdir spec = .ok next) :
    ∃ blob, workingBlob git files workdir spec = some blob ∧
      addEntry git spec blob index = .ok next := by
  have stat := lstat_of_find found
  rcases plain.kind node found with ⟨content, mode, rfl, uniform⟩ | ⟨target, rfl⟩
  · refine ⟨⟨git.blob content,
      if isExecutable mode then .blobExecutable else .blob⟩, ?_, ?_⟩
    · rw [workingBlob, found]
      rfl
    · rw [lawful.addPath_file stat] at adds
      rw [addEntry, ← adds]
      by_cases owner : mode &&& 0o100 ≠ 0
      · rw [if_pos owner, if_pos (uniform.executable_iff.mpr owner)]
      · rw [if_neg owner, if_neg (mt uniform.executable_iff.mp owner)]
  · refine ⟨⟨git.blob target, .link⟩, ?_, ?_⟩
    · rw [workingBlob, found]
      rfl
    · rw [lawful.addPath_symlink stat] at adds
      exact adds

theorem workingBlob_of_none
    (missing : files.find (workdir ++ spec) = none) :
    workingBlob git files workdir spec = none := by
  rw [workingBlob, missing]
  rfl

/-- Of two nested paths that are recorded one at most is there. -/
theorem workingBlob_of_nested
    {other : Location}
    {node : Node}
    (plain : Plain files workdir spec)
    (otherPlain : Plain files workdir other)
    (found : files.find (workdir ++ spec) = some node)
    (nested : Nested spec other)
    (apart : other ≠ spec) : workingBlob git files workdir other = none := by
  have nodeLeaf : ∀ {path node}, Plain files workdir path ->
      files.find (workdir ++ path) = some node -> node ≠ .directory := by
    rintro path node plain found rfl
    rcases plain.kind _ found with ⟨_, _, same, _⟩ | ⟨_, same⟩ <;> cases same
  apply workingBlob_of_none
  rcases nested with below | above
  · refine files.find_of_not_directory ?_
      ((List.prefix_append_right_inj workdir).mpr below) ?_
    · rw [found]
      exact fun same => nodeLeaf plain found (Option.some.inj same)
    · exact fun same => apart (List.append_cancel_left same).symm
  · by_contra present
    have directory := files.directory_of_below
      (by rw [found]; exact Option.some_ne_none node)
      ((List.prefix_append_right_inj workdir).mpr above)
      (fun same => apart (List.append_cancel_left same))
    exact nodeLeaf otherPlain directory rfl

end Adding

/-- The turns taken so far are turns of the loop. -/
theorem mem_of_mem_turns
    {κ : Type}
    {turns done later : List κ}
    {turn item : κ}
    (split : turns = done ++ turn :: later)
    (member : item ∈ done ++ [turn]) : item ∈ turns := by
  rw [split, List.append_cons]
  exact List.mem_append_left _ member

/-! ## Bringing the index to what paths are -/

section Turns

variable {target : Location -> Option (Blob Oid)}
variable {start index next : Index}
variable {done : List Location} {spec : Location}

/-- A turn that brings the index to what its path is. -/
inductive IndexTurn
    (git : Libgit2 Oid Index Tree)
    (target : Location -> Option (Blob Oid))
    (spec : Location)
    (index next : Index) : Prop
  | added (blob : Blob Oid)
      (is : target spec = some blob)
      (adds : addEntry git spec blob index = .ok next)
  | removed
      (is : target spec = none)
      (removes : git.indexRemovePath index spec = .ok next)

/-- Whether the index has been brought to what some paths are, from this one. -/
structure Indexed
    (git : Libgit2 Oid Index Tree)
    (target : Location -> Option (Blob Oid))
    (start : Index)
    (done : List Location)
    (index : Index) : Prop where
  files : ∀ spec ∈ done, ∀ blob ∈ target spec, blob.mode ≠ .tree
  here : ∀ spec ∈ done, indexBlob git index spec = target spec
  apart : ∀ path, (∀ spec ∈ done, ¬ Nested spec path) ->
    git.indexGet index path = git.indexGet start path

theorem indexed_nil : Indexed git target start [] start where
  files spec member := by cases member
  here spec member := by cases member
  apart _ _ := rfl

/-- What a path nested with a file is: nothing, or a directory. -/
def Separate
    (target : Location -> Option (Blob Oid))
    (specs : List Location) : Prop :=
  ∀ spec ∈ specs, ∀ other ∈ specs, other ≠ spec -> Nested spec other ->
    ∀ blob ∈ target spec, blob.mode ≠ .tree ->
      ∀ inner ∈ target other, inner.mode = .tree

/-- Each turn brings the index to one more path. -/
theorem Indexed.turn
    (lawful : git.Lawful)
    (indexed : Indexed git target start done index)
    (separate : Separate target (done ++ [spec]))
    (turn : IndexTurn git target spec index next) :
    Indexed git target start (done ++ [spec]) next := by
  have last : spec ∈ done ++ [spec] := by simp
  cases turn with
  | added blob is adds =>
      obtain ⟨file, here, nested, apart⟩ := indexGet_of_addEntry lawful adds
      refine ⟨fun path member other same => ?_, fun path member => ?_,
        fun path away => ?_⟩
      · rcases List.mem_append.mp member with earlier | own
        · exact indexed.files path earlier other same
        · rw [List.mem_singleton.mp own, is] at same
          rwa [← Option.some.inj same]
      · by_cases same : path = spec
        · rw [same, here, is]
        · have earlier : path ∈ done := by simpa [same] using member
          by_cases close : Nested spec path
          · -- A file that was added there before is a file of no tree.
            rw [nested path same close]
            cases other : target path with
            | none => rfl
            | some inner =>
                exact absurd
                  (separate spec last path member same close blob is file inner
                    other)
                  (indexed.files path earlier inner other)
          · rw [indexBlob_eq_of_get (apart path close),
              indexed.here path earlier]
      · rw [apart path (away spec last), indexed.apart path
          fun other member => away other (List.mem_append_left _ member)]
  | removed is removes =>
      obtain ⟨here, others⟩ := indexGet_of_remove lawful removes
      refine ⟨fun path member other same => ?_, fun path member => ?_,
        fun path away => ?_⟩
      · rcases List.mem_append.mp member with earlier | own
        · exact indexed.files path earlier other same
        · rw [List.mem_singleton.mp own, is] at same
          cases same
      · by_cases same : path = spec
        · rw [same, here, is]
        · have earlier : path ∈ done := by simpa [same] using member
          rw [indexBlob_eq_of_get (others path same), indexed.here path earlier]
      · have different : path ≠ spec := by
          rintro rfl
          exact away path last (nested_self _)
        rw [others path different, indexed.apart path
          fun other member => away other (List.mem_append_left _ member)]

theorem Separate.mono
    {specs fewer : List Location}
    (separate : Separate target specs)
    (listed : ∀ spec ∈ fewer, spec ∈ specs) : Separate target fewer :=
  fun spec member other also =>
    separate spec (listed spec member) other (listed other also)

/-- A loop whose turns each bring the index to one path, and do nothing else,
brings it to all of them. -/
theorem indexed_of_forEach
    (lawful : git.Lawful)
    {body : Location -> Index -> GitOperation Index Tree (Except Int Index)}
    {specs : List Location}
    {state last : GitState Index Tree}
    {taken : Index}
    (separate : Separate target specs)
    (each : ∀ spec ∈ specs, ∀ index next after,
      body spec index state = (.ok (.ok next), after) ->
      IndexTurn git target spec index next ∧ after = state)
    (runs : forEach body specs start state = (.ok (.ok taken), last)) :
    last = state ∧ Indexed git target start specs taken := by
  refine @forEach_invariant _ _ _ _ _ _
    (fun done index reached => reached = state ∧
      Indexed git target start done index) specs ?_ _ _ _ _
    ⟨rfl, indexed_nil⟩ runs
  intro done turn later index next reached middle split held ran
  obtain ⟨rfl, indexed⟩ := held
  have member : turn ∈ specs := by simp [split]
  obtain ⟨step, rfl⟩ := each turn member index next middle ran
  exact ⟨rfl, indexed.turn lawful
    (separate.mono fun spec => mem_of_mem_turns split) step⟩

end Turns

/-! ## Staging -/

section Staging

variable {workdir : Location} {specs : List Location}
variable {state next : GitState Index Tree}

/-- What nested paths of a work tree are. -/
theorem separate_workingBlob
    {files : FileTree}
    (plain : ∀ spec ∈ specs, Plain files workdir spec) :
    Separate (workingBlob git files workdir) specs := by
  intro spec member other listed apart nested blob is file inner same
  cases found : files.find (workdir ++ spec) with
  | none =>
      rw [workingBlob_of_none found] at is
      cases is
  | some node =>
      rw [workingBlob_of_nested (plain spec member) (plain other listed) found
        nested apart] at same
      cases same

/-- A turn of staging looks at the work tree and takes the index there. -/
theorem indexTurn_of_stageEach
    (lawful : git.Lawful)
    {spec : Location}
    {index taken : Index}
    (plain : Plain state.files workdir spec)
    (runs : stageEach git workdir spec index state = (.ok (.ok taken), next)) :
    IndexTurn git (workingBlob git state.files workdir) spec index taken ∧
      next = state := by
  obtain ⟨here, middle, looked, rest⟩ := bind_eq_ok runs
  obtain ⟨same, rfl⟩ := present_eq_ok looked
  by_cases found : here = true
  · rw [if_pos found] at rest
    obtain ⟨added, last, ran, ends⟩ := bind_eq_ok rest
    obtain ⟨adds, rfl⟩ := look_eq_ok ran
    cases ends
    rw [same, plain.isOk_lstat] at found
    obtain ⟨node, found⟩ := Option.ne_none_iff_exists'.mp found
    obtain ⟨blob, is, adds⟩ := addEntry_of_addPath lawful plain found adds
    exact ⟨.added blob is adds, rfl⟩
  · rw [if_neg found] at rest
    rw [same, plain.isOk_lstat, not_not] at found
    by_cases known : (git.indexGet index spec).isSome = true
    · rw [if_pos known] at rest
      obtain ⟨removed, last, ran, ends⟩ := bind_eq_ok rest
      obtain ⟨removes, rfl⟩ := look_eq_ok ran
      cases ends
      exact ⟨.removed (workingBlob_of_none found) removes, rfl⟩
    · rw [if_neg known] at rest
      obtain ⟨done, last, -, ends⟩ := bind_eq_ok rest
      cases ends

/-- A turn of staging returns early with an error only. -/
theorem fatal_of_stageEach
    {spec : Location}
    {index : Index}
    {code : Int}
    (runs : stageEach git workdir spec index state = (.ok (.error code), next)) :
    code = fatal := by
  obtain ⟨here, middle, looked, rest⟩ := bind_eq_ok runs
  by_cases found : here = true
  · rw [if_pos found] at rest
    obtain ⟨added, last, adds, ends⟩ := bind_eq_ok rest
    cases ends
  · rw [if_neg found] at rest
    by_cases known : (git.indexGet index spec).isSome = true
    · rw [if_pos known] at rest
      obtain ⟨removed, last, removes, ends⟩ := bind_eq_ok rest
      cases ends
    · rw [if_neg known] at rest
      obtain ⟨done, last, -, ends⟩ := bind_eq_ok rest
      cases ends
      rfl

/-- Staging that returns zero brings the index to the work tree at every path
it names, and changes nothing else. -/
theorem indexed_of_stage
    (lawful : git.Lawful)
    (plain : ∀ spec ∈ specs, Plain state.files workdir spec)
    (runs : stage git workdir specs state = (.ok 0, next)) :
    Indexed git (workingBlob git state.files workdir) state.index specs
        next.index ∧
      next = { state with index := next.index } := by
  obtain ⟨index, middle, looked, rest⟩ := bind_eq_ok runs
  obtain ⟨same, rfl⟩ := look_eq_ok looked
  cases same
  obtain ⟨ended, last, looped, ends⟩ := bind_eq_ok rest
  cases ended with
  | error code =>
      obtain ⟨spec, -, reached, between, -, ran⟩ := forEach_returned
        (fun _ _ _ _ _ _ _ _ => trivial) trivial looped
      have failed := fatal_of_stageEach ran
      cases ends
      cases failed
  | ok taken =>
      obtain ⟨rfl, indexed⟩ := indexed_of_forEach lawful
        (separate_workingBlob plain)
        (fun spec member index next after ran =>
          indexTurn_of_stageEach lawful (plain spec member) ran) looped
      cases ends
      exact ⟨indexed, rfl⟩

end Staging

/-! ## Unstaging -/

section Unstaging

variable {specs : List Location}
variable {state next : GitState Index Tree}

/-- What `HEAD` has at a path. -/
def committedBlob
    (git : Libgit2 Oid Index Tree)
    (head : Option Tree)
    (spec : Location) : Option (Blob Oid) :=
  head.bind fun tree => treeBlob git tree spec

/-- Of two nested paths of a tree that holds a file at one, the other one is a
directory or is not there. -/
theorem separate_committedBlob
    (lawful : git.Lawful)
    (head : Option Tree)
    (nonempty : ∀ spec ∈ specs, spec ≠ []) :
    Separate (committedBlob git head) specs := by
  intro spec member other listed apart nested blob is file inner same
  cases head with
  | none => cases is
  | some tree =>
      obtain ⟨entry, found, rfl⟩ := Option.map_eq_some_iff.mp is
      obtain ⟨above, there, rfl⟩ := Option.map_eq_some_iff.mp same
      rcases nested with below | higher
      · have gone := lawful.treeGet_below found file below (Ne.symm apart)
        rw [gone] at there
        cases there
      · obtain ⟨id, directory⟩ := lawful.treeGet_above
          (by rw [found]; exact Option.some_ne_none entry) higher apart
          (nonempty other listed)
        rw [directory] at there
        cases there
        exact fileMode_raw .tree

/-- A turn of unstaging takes what `HEAD` has. -/
theorem indexTurn_of_unstageEach
    {head : Option Tree}
    {spec : Location}
    {index taken : Index}
    (runs : unstageEach git head spec index state = (.ok (.ok taken), next)) :
    IndexTurn git (committedBlob git head) spec index taken ∧ next = state := by
  rw [unstageEach] at runs
  cases is : committedBlob git head spec with
  | some blob =>
      rw [committedBlob] at is
      rw [is] at runs
      obtain ⟨added, last, ran, ends⟩ := bind_eq_ok runs
      obtain ⟨adds, rfl⟩ := look_eq_ok ran
      cases ends
      exact ⟨.added blob is adds, rfl⟩
  | none =>
      rw [committedBlob] at is
      rw [is] at runs
      by_cases known : (git.indexGet index spec).isSome = true
      · dsimp only at runs
        rw [if_pos known] at runs
        obtain ⟨removed, last, ran, ends⟩ := bind_eq_ok runs
        obtain ⟨removes, rfl⟩ := look_eq_ok ran
        cases ends
        exact ⟨.removed is removes, rfl⟩
      · dsimp only at runs
        rw [if_neg known] at runs
        obtain ⟨done, last, -, ends⟩ := bind_eq_ok runs
        cases ends

/-- A turn of unstaging returns early to refuse only. -/
theorem refused_of_unstageEach
    {head : Option Tree}
    {spec : Location}
    {index : Index}
    {code : Int}
    (runs : unstageEach git head spec index state =
      (.ok (.error code), next)) : code = refused := by
  rw [unstageEach] at runs
  cases is : head.bind fun tree => treeBlob git tree spec with
  | some blob =>
      rw [is] at runs
      obtain ⟨added, last, -, ends⟩ := bind_eq_ok runs
      cases ends
  | none =>
      rw [is] at runs
      dsimp only at runs
      by_cases known : (git.indexGet index spec).isSome = true
      · rw [if_pos known] at runs
        obtain ⟨removed, last, -, ends⟩ := bind_eq_ok runs
        cases ends
      · rw [if_neg known] at runs
        obtain ⟨done, last, -, ends⟩ := bind_eq_ok runs
        cases ends
        rfl

/-- Unstaging that returns zero brings the index to `HEAD` at every path it
names, and changes nothing else. -/
theorem indexed_of_unstage
    (lawful : git.Lawful)
    (nonempty : ∀ spec ∈ specs, spec ≠ [])
    (runs : unstage git specs state = (.ok 0, next)) :
    Indexed git (committedBlob git (headTree state)) state.index specs
        next.index ∧
      next = { state with index := next.index } := by
  obtain ⟨index, middle, looked, rest⟩ := bind_eq_ok runs
  obtain ⟨same, rfl⟩ := look_eq_ok looked
  cases same
  obtain ⟨head, middle, looked, rest⟩ := bind_eq_ok rest
  obtain ⟨same, rfl⟩ := look_eq_ok looked
  cases same
  obtain ⟨ended, last, looped, ends⟩ := bind_eq_ok rest
  cases ended with
  | error code =>
      obtain ⟨spec, -, reached, between, -, ran⟩ := forEach_returned
        (fun _ _ _ _ _ _ _ _ => trivial) trivial looped
      have failed := refused_of_unstageEach ran
      cases ends
      cases failed
  | ok taken =>
      obtain ⟨rfl, indexed⟩ := indexed_of_forEach lawful
        (separate_committedBlob lawful (headTree middle) nonempty)
        (fun spec _ index next after ran => indexTurn_of_unstageEach ran) looped
      cases ends
      exact ⟨indexed, rfl⟩

end Unstaging

end Index

end Gitexec
end Marsh
