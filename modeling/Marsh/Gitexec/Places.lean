import Marsh.Gitexec.Acceptance
import Marsh.Policy.GitReference

/-!
# The three places of a path

What a path is in `HEAD`, in the index and in the work tree, and what each
action makes of the three.  A builtin on one path at home succeeds, does there
what its action does, and leaves every path apart.
-/

namespace Marsh
namespace Gitexec

open Library Exec Validator
open Operation

/-- What `HEAD`, the index and the work tree have at a path. -/
@[ext]
structure Places (β : Type) where
  head : Option β
  index : Option β
  working : Option β

/-- What an action makes of a path, whose work tree an edit leaves as this. -/
def Places.after
    {β : Type}
    (places : Places β)
    (edited : Option β) : Action -> Places β
  | .edit => { places with working := edited }
  | .stage => { places with index := places.working }
  | .unstage => { places with index := places.head }
  | .commit _ =>
      { places with head := places.working, index := places.working }
  | .checkout | .stash =>
      { places with index := places.head, working := places.head }
  | .delete => { places with index := none, working := none }
  | .clean =>
      { places with
        working := if places.index.isNone then none else places.working }
  | .read | .diff | .history => places

section Refinement

variable {Oid Index Tree : Type}
variable {git : Libgit2 Oid Index Tree}
variable {workdir spec : Location}
variable {state next : GitState Index Tree}

/-- The places of a path in a repository. -/
def placesOf
    (git : Libgit2 Oid Index Tree)
    (workdir : Location)
    (state : GitState Index Tree)
    (spec : Location) : Places (Blob Oid) where
  head := committedBlob git (headTree state) spec
  index := indexBlob git state.index spec
  working := workingBlob git state.files workdir spec

/-- Whether two states differ at one path at most. -/
structure ChangesOnly
    (git : Libgit2 Oid Index Tree)
    (workdir spec : Location)
    (state next : GitState Index Tree) : Prop where
  head : ∀ path, ¬ Nested spec path ->
    committedBlob git (headTree next) path =
      committedBlob git (headTree state) path
  index : ∀ path, ¬ Nested spec path ->
    git.indexGet next.index path = git.indexGet state.index path
  files : ∀ other, other ≠ workdir ++ spec ->
    next.files.find other = state.files.find other
  branch : next.branch = state.branch

/-- A path apart keeps its places. -/
theorem ChangesOnly.placesOf_eq
    (changes : ChangesOnly git workdir spec state next)
    {other : Location}
    (apart : ¬ Nested spec other) :
    placesOf git workdir next other = placesOf git workdir state other := by
  have different : workdir ++ other ≠ workdir ++ spec := by
    intro same
    exact apart (List.append_cancel_left same ▸ nested_self _)
  ext1
  · exact changes.head other apart
  · exact indexBlob_eq_of_get (changes.index other apart)
  · change workingBlob git next.files workdir other = _
    rw [workingBlob, changes.files _ different]
    rfl

/-- A path apart stays at home. -/
theorem ChangesOnly.home
    (changes : ChangesOnly git workdir spec state next)
    {other : Location}
    (apart : ¬ Nested spec other)
    (home : Home state.files workdir other) :
    Home next.files workdir other where
  nonempty := home.nonempty
  inside := by
    rw [changes.files, home.inside]
    intro same
    exact apart (.inl (List.append_cancel_left same ▸ List.dropLast_prefix _))
  regular node found := by
    rw [changes.files] at found
    · exact home.regular node found
    · intro same
      exact apart (List.append_cancel_left same ▸ nested_self _)
  short := home.short

/-- The path itself stays at home when it is a uniform file or nothing. -/
theorem ChangesOnly.home_self
    (changes : ChangesOnly git workdir spec state next)
    (home : Home state.files workdir spec)
    (regular : ∀ node, next.files.find (workdir ++ spec) = some node ->
      ∃ content mode, node = .file content mode ∧ UniformMode mode) :
    Home next.files workdir spec where
  nonempty := home.nonempty
  inside := by
    rw [changes.files, home.inside]
    rw [← dropLast_workdir home.direct]
    exact FileTree.dropLast_ne_self home.direct.nonroot
  regular := regular
  short := home.short

/-- What a builtin that succeeds on one path at home does. -/
structure Refines
    (git : Libgit2 Oid Index Tree)
    (workdir spec : Location)
    (action : Action)
    (state next : GitState Index Tree) : Prop where
  changes : ChangesOnly git workdir spec state next
  places : placesOf git workdir next spec =
    (placesOf git workdir state spec).after none action
  home : Home next.files workdir spec

/-! ## The builtins -/

theorem refines_of_stage
    (lawful : git.Lawful)
    (home : Home state.files workdir spec)
    (runs : stage git workdir [spec] state = (.ok 0, next)) :
    Refines git workdir spec .stage state next := by
  obtain ⟨indexed, only⟩ := indexed_of_stage lawful
    (fun path member => List.mem_singleton.mp member ▸ home.plain) runs
  have files : next.files = state.files := by rw [only]
  have head : headTree next = headTree state := by rw [only]; rfl
  refine ⟨⟨fun path _ => by rw [head], fun path apart => ?_, fun other _ => ?_,
    by rw [only]⟩, ?_, by rw [files]; exact home⟩
  · exact indexed.apart path
      fun spec member => List.mem_singleton.mp member ▸ apart
  · rw [files]
  · ext1
    · exact congrArg (committedBlob git · spec) head
    · exact indexed.here spec (List.mem_singleton_self spec)
    · exact congrArg (workingBlob git · workdir spec) files

theorem refines_of_unstage
    (lawful : git.Lawful)
    (home : Home state.files workdir spec)
    (runs : unstage git [spec] state = (.ok 0, next)) :
    Refines git workdir spec .unstage state next := by
  obtain ⟨indexed, only⟩ := indexed_of_unstage lawful
    (fun path member => List.mem_singleton.mp member ▸ home.nonempty) runs
  have files : next.files = state.files := by rw [only]
  have head : headTree next = headTree state := by rw [only]; rfl
  refine ⟨⟨fun path _ => by rw [head], fun path apart => ?_, fun other _ => ?_,
    by rw [only]⟩, ?_, by rw [files]; exact home⟩
  · exact indexed.apart path
      fun spec member => List.mem_singleton.mp member ▸ apart
  · rw [files]
  · ext1
    · exact congrArg (committedBlob git · spec) head
    · exact indexed.here spec (List.mem_singleton_self spec)
    · exact congrArg (workingBlob git · workdir spec) files

variable [DecidableEq Oid]

theorem refines_of_delete
    (lawful : git.Lawful)
    (home : Home state.files workdir spec)
    (runs : delete git workdir [spec] state = (.ok 0, next)) :
    Refines git workdir spec .delete state next := by
  obtain ⟨-, cleared, dropped, kept⟩ := removed_of_delete lawful
    (fun path member => List.mem_singleton.mp member ▸ home.direct) runs
  have gone := cleared.here spec (List.mem_singleton_self spec)
  have head : headTree next = headTree state := by
    rw [headTree, headTree, kept.head]
  have changes : ChangesOnly git workdir spec state next := by
    refine ⟨fun path _ => by rw [head], fun path apart => ?_,
      fun other apart => ?_, kept.branch⟩
    · refine dropped.there path fun member => ?_
      rw [List.mem_singleton.mp member] at apart
      exact apart (nested_self _)
    · exact cleared.there other
        fun spec member => List.mem_singleton.mp member ▸ apart
  refine ⟨changes, ?_, changes.home_self home fun node found => ?_⟩
  · ext1
    · exact congrArg (committedBlob git · spec) head
    · change indexBlob git next.index spec = none
      rw [indexBlob, dropped.here spec (List.mem_singleton_self spec)]
      rfl
    · exact workingBlob_of_none gone
  · rw [gone] at found
    cases found

omit [DecidableEq Oid] in
theorem refines_of_clean
    (home : Home state.files workdir spec)
    (runs : clean git workdir [spec] state = (.ok 0, next)) :
    Refines git workdir spec .clean state next := by
  obtain ⟨cleared, sameIndex, kept⟩ := cleared_of_clean
    (fun path member => List.mem_singleton.mp member ▸ home.direct) runs
  have head : headTree next = headTree state := by
    rw [headTree, headTree, kept.head]
  have changes : ChangesOnly git workdir spec state next := by
    refine ⟨fun path _ => by rw [head], fun path _ => by rw [sameIndex],
      fun other apart => ?_, kept.branch⟩
    refine cleared.there other fun path member => ?_
    rw [List.mem_singleton.mp (List.mem_filter.mp member).1]
    exact apart
  by_cases known : (git.indexGet state.index spec).isNone = true
  · have gone := cleared.here spec
      (List.mem_filter.mpr ⟨List.mem_singleton_self spec, known⟩)
    refine ⟨changes, ?_, changes.home_self home fun node found => ?_⟩
    · ext1
      · exact congrArg (committedBlob git · spec) head
      · exact congrArg (indexBlob git · spec) sameIndex
      · change workingBlob git next.files workdir spec =
          if (indexBlob git state.index spec).isNone then none else _
        rw [workingBlob_of_none gone, indexBlob, Option.isNone_map, if_pos known]
    · rw [gone] at found
      cases found
  · have same : next.files = state.files := by
      refine FileTree.ext fun other => cleared.there other fun path member => ?_
      obtain ⟨listed, missing⟩ := List.mem_filter.mp member
      rw [List.mem_singleton.mp listed] at missing
      exact absurd missing known
    refine ⟨changes, ?_, by rw [same]; exact home⟩
    ext1
    · exact congrArg (committedBlob git · spec) head
    · exact congrArg (indexBlob git · spec) sameIndex
    · change workingBlob git next.files workdir spec =
        if (indexBlob git state.index spec).isNone then none else _
      rw [same, indexBlob, Option.isNone_map, if_neg known]
      rfl

theorem refines_of_commit
    (lawful : git.Lawful)
    {text : Text}
    {message : Option String}
    {author committer : GitEnvIdentity}
    (home : Home state.files workdir spec)
    (present : workingBlob git state.files workdir spec ≠ none)
    (runs : commit git workdir [spec] (some text) author committer state =
      (.ok 0, next)) :
    Refines git workdir spec (.commit message) state next := by
  obtain ⟨text, -, parent, made, committed⟩ := committed_of_commit lawful
    (fun path member => List.mem_singleton.mp member ▸ home.plain) runs
  have own := List.mem_singleton_self spec
  have before : headTree state = some parent.tree := by
    rw [headTree, committed.before, Option.map_some]
  have after : headTree next = some made.tree := by
    rw [headTree, committed.after, Option.map_some]
  refine ⟨⟨fun path apart => ?_, fun path apart => ?_, fun other _ => ?_,
    committed.branch⟩, ?_, by rw [committed.files]; exact home⟩
  · have same := committed.apart path
      fun spec member => List.mem_singleton.mp member ▸ apart
    rw [before, after]
    change treeBlob git made.tree path = treeBlob git parent.tree path
    rw [treeBlob, treeBlob, same]
  · exact committed.index.apart path
      fun spec member => List.mem_singleton.mp member ▸ apart
  · rw [committed.files]
  · ext1
    · change committedBlob git (headTree next) spec =
        workingBlob git state.files workdir spec
      rw [after]
      obtain ⟨blob, is⟩ := Option.ne_none_iff_exists'.mp present
      have recorded := committed.recorded spec own
      rw [is] at recorded ⊢
      exact recorded
    · exact committed.index.here spec own
    · exact congrArg (workingBlob git · workdir spec) committed.files

omit [DecidableEq Oid] in
/-- A path at home can be taken back to a regular file. -/
theorem restorable_of_home
    {files : FileTree}
    {target : Option (Blob Oid)}
    (home : Home files workdir spec)
    (stored : ∀ blob ∈ target, Stored git blob) :
    Restorable git files workdir spec target where
  toDirect := home.direct
  file blob is := (stored blob is).file
  linkless _ _ _ := home.linkless
  text blob is kind := absurd kind (stored blob is).linkless

omit [DecidableEq Oid] in
/-- Taking a path at home back to `HEAD`. -/
theorem refines_of_restored
    {action : Action}
    (takesBack : ∀ places : Places (Blob Oid), places.after none action =
      { places with index := places.head, working := places.head })
    (home : Home state.files workdir spec)
    {committed : Blob Oid}
    (headed : committedBlob git (headTree state) spec = some committed)
    (stored : Stored git committed)
    (head : next.head = state.head)
    (branch : next.branch = state.branch)
    (indexed : Indexed git (committedBlob git (headTree state)) state.index
      [spec] next.index)
    (restored : Restored git (committedBlob git (headTree state)) state.files
      next.files workdir [spec]) :
    Refines git workdir spec action state next := by
  have own := List.mem_singleton_self spec
  have sameHead : headTree next = headTree state := by
    rw [headTree, headTree, head]
  have changes : ChangesOnly git workdir spec state next := by
    refine ⟨fun path _ => by rw [sameHead], fun path apart => ?_,
      fun other apart => ?_, branch⟩
    · exact indexed.apart path
        fun spec member => List.mem_singleton.mp member ▸ apart
    · -- Every directory on the way was there.
      refine (restored.there other
        fun spec member => List.mem_singleton.mp member ▸ apart).resolve_right ?_
      rintro ⟨missing, -, path, member, above⟩
      rw [List.mem_singleton.mp member] at above
      have there : state.files.find other = some .directory := by
        by_cases whole : other = workdir ++ spec.dropLast
        · rw [whole, home.inside]
        · exact state.files.directory_of_below
            (by rw [home.inside]; exact Option.some_ne_none _) above whole
      rw [missing] at there
      cases there
  refine ⟨changes, ?_, changes.home_self home fun node found => ?_⟩
  · rw [takesBack]
    ext1
    · exact congrArg (committedBlob git · spec) sameHead
    · exact indexed.here spec own
    · exact restored.here spec own
  · have here := restored.here spec own
    rw [headed, workingBlob, found, Option.bind_some] at here
    cases node with
    | file content mode =>
        exact ⟨content, mode, rfl, restored.uniform spec own content mode found⟩
    | symlink target =>
        cases here
        exact absurd rfl stored.linkless
    | directory => cases here
    | other => cases here

omit [DecidableEq Oid] in
theorem refines_of_checkout
    (lawful : git.Lawful)
    {creation : Nat}
    (home : Home state.files workdir spec)
    {committed : Blob Oid}
    (headed : committedBlob git (headTree state) spec = some committed)
    (stored : Stored git committed)
    (runs : checkout git workdir creation [spec] state = (.ok 0, next)) :
    Refines git workdir spec .checkout state next := by
  obtain ⟨-, indexed, restored, only⟩ := restored_of_checkout lawful
    (fun path member => by
      rw [List.mem_singleton.mp member, headed]
      exact restorable_of_home home fun blob is => Option.some.inj is ▸ stored)
    runs
  exact refines_of_restored (fun _ => rfl) home headed stored (by rw [only])
    (by rw [only]) indexed restored

theorem refines_of_stash
    (lawful : git.Lawful)
    {creation : Nat}
    {committer : GitEnvIdentity}
    (home : Home state.files workdir spec)
    {committed : Blob Oid}
    (headed : committedBlob git (headTree state) spec = some committed)
    (stored : Stored git committed)
    (differs : workingBlob git state.files workdir spec ≠ some committed)
    (runs : stash git workdir creation [spec] committer state =
      (.ok 0, next)) :
    Refines git workdir spec .stash state next := by
  obtain ⟨parent, head, -, clean | ⟨-, staged, saved, -, back⟩⟩ :=
    stashed_of_stash lawful
    (fun path member => by
      rw [List.mem_singleton.mp member, headed]
      exact restorable_of_home home fun blob is => Option.some.inj is ▸ stored)
    (by
      intro one member other also apart
      rw [List.mem_singleton.mp member, List.mem_singleton.mp also] at apart
      exact absurd rfl apart)
    runs
  · -- A path that differs from `HEAD` is found to.
    refine absurd ⟨spec, List.mem_singleton_self spec, ?_⟩ clean.1
    have tree : committedBlob git (headTree state) spec =
        treeBlob git parent.tree spec := by
      rw [headTree, head]
      rfl
    rw [headed] at tree
    rw [Dirty, ← tree]
    by_cases same : some committed = indexBlob git state.index spec
    · exact .inr (same ▸ differs)
    · exact .inl same
  · exact refines_of_restored (fun _ => rfl) home headed stored back.head
      back.branch back.index back.files

end Refinement

end Gitexec
end Marsh
