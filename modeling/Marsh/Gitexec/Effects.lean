import Marsh.Gitexec.Places
import Marsh.Gitexec.Refusals

/-!
# What a successful builtin did

What each builtin that exits with zero has made of the paths it was given, and
that it left the paths apart from them, for any list of paths, nested and
repeated ones included.
-/

namespace Marsh
namespace Gitexec

open Library Exec

/-! ## A modified file -/

theorem home_modified : Home modified.files [] [nameA] where
  nonempty := List.cons_ne_nil _ _
  inside := by decide
  regular node found := by
    have there : modified.files.find ([] ++ [nameA]) =
        some (.file [2] 0o644) := by decide
    rw [there] at found
    cases found
    exact ⟨_, _, rfl, by decide⟩
  short := by decide

/-- The file, named twice. -/
def pathsA : List Location := [[nameA], [nameA]]

theorem mem_pathsA {spec : Location} (member : spec ∈ pathsA) :
    spec = [nameA] := by
  rcases List.mem_cons.mp member with here | rest
  · exact here
  · exact List.mem_singleton.mp rest

theorem vacant_nameA : FileTree.bare.Vacant [nameA] := by decide

/-- The same repository, with the file as it is committed. -/
def unmodified : GitState EntryList EntryList :=
  { modified with
    files := FileTree.bare.set [nameA] (.file [1] 0o644) vacant_nameA }

/-- The same repository, with the file not in the index. -/
def untracked : GitState EntryList EntryList :=
  { modified with index := ⟨[], .nil, fun _ member => absurd member (by simp)⟩ }

theorem direct_unmodified : Direct unmodified.files [] [nameA] where
  nonempty := List.cons_ne_nil _ _
  unlinked above before target found := by
    rw [List.prefix_nil.mp before] at found
    cases found

theorem restorable_modified :
    Restorable entryLists modified.files [] [nameA]
      (committedBlob entryLists (headTree modified) [nameA]) where
  toDirect := home_modified.direct
  file blob is := by
    cases is
    exact .inl rfl
  linkless blob _ _ link := by
    have there : modified.files.find ([] ++ [nameA]) =
        some (.file [2] 0o644) := by decide
    rw [there]
    exact fun same => by cases same
  text blob is mode := by
    cases is
    cases mode

/-! ## Runs -/

section Runs

variable {Oid Index Tree : Type} [DecidableEq Oid]
variable {git : Libgit2 Oid Index Tree} {workdir : Location}
variable {creation : Nat} {specs : List Location}
variable {author committer : GitEnvIdentity}
variable {state next : GitState Index Tree}

omit [DecidableEq Oid] in
theorem run_of_zero
    {result : Int × GitState Index Tree}
    (zero : result.1 = 0) : result = (0, result.2) :=
  Prod.ext zero rfl

/-- A run that exits with zero performed its action. -/
theorem perform_of_run
    {action : GitAction}
    (runs : run git workdir creation action specs author committer state =
      (0, next)) :
    perform git workdir creation action specs author committer state =
      (.ok 0, next) := by
  have failing : fatal ≠ 0 := by decide
  unfold run at runs
  dsimp only at runs
  split at runs
  · exact absurd (congrArg Prod.fst runs) failing
  · split_ifs at runs
    · split at runs
      next code last performed =>
        cases runs
        exact performed
      next error last performed =>
        exact absurd (congrArg Prod.fst runs) failing
    · exact absurd (congrArg Prod.fst runs) failing

/-- `git add` that exits with zero has made the index the work tree at each of
its paths, and changed the index nowhere apart from them, and nothing else. -/
theorem staged_of_run
    (lawful : git.Lawful)
    (plain : ∀ spec ∈ specs, Plain state.files workdir spec)
    (runs : run git workdir creation .stage specs author committer state =
      (0, next)) :
    Indexed git (workingBlob git state.files workdir) state.index specs
        next.index ∧
      next = { state with index := next.index } :=
  indexed_of_stage lawful plain (perform_of_run runs)

omit [DecidableEq Oid] in
theorem staged_of_run_modified :
    Indexed entryLists (workingBlob entryLists modified.files []) modified.index
      pathsA
      (run entryLists [] 0o644 .stage pathsA someone someone modified).2.index :=
  (staged_of_run entryLists_lawful
    (fun _ member => mem_pathsA member ▸ home_modified.plain)
    (run_of_zero (by decide +kernel))).1

/-- `git restore --staged` that exits with zero has made the index `HEAD` at
each of its paths, and changed the index nowhere apart from them, and nothing
else. -/
theorem unstaged_of_run
    (lawful : git.Lawful)
    (nonempty : ∀ spec ∈ specs, spec ≠ [])
    (runs : run git workdir creation .unstage specs author committer state =
      (0, next)) :
    Indexed git (committedBlob git (headTree state)) state.index specs
        next.index ∧
      next = { state with index := next.index } :=
  indexed_of_unstage lawful nonempty (perform_of_run runs)

omit [DecidableEq Oid] in
theorem unstaged_of_run_modified :
    Indexed entryLists (committedBlob entryLists (headTree modified))
      modified.index pathsA
      (run entryLists [] 0o644 .unstage pathsA someone someone
        modified).2.index :=
  (unstaged_of_run entryLists_lawful (by decide)
    (run_of_zero (by decide +kernel))).1

/-- `git rm` that exits with zero was given paths that the index has and whose
content in the work tree `HEAD` has: they are gone from both, and nothing else
is. -/
theorem removed_of_run
    (lawful : git.Lawful)
    (direct : ∀ spec ∈ specs, Direct state.files workdir spec)
    (runs : run git workdir creation .delete specs author committer state =
      (0, next)) :
    (∀ spec ∈ specs, indexBlob git state.index spec ≠ none ∧
        ¬ Unsaved git workdir state spec) ∧
      Cleared state.files next.files workdir specs ∧
      Dropped git state.index next.index specs ∧
      state.SameReferences next :=
  removed_of_delete lawful direct (perform_of_run runs)

omit [DecidableEq Oid] in
theorem removed_of_run_unmodified :
    Cleared unmodified.files
      (run entryLists [] 0o644 .delete pathsA someone someone
        unmodified).2.files [] pathsA :=
  (removed_of_run entryLists_lawful
    (fun _ member => mem_pathsA member ▸ direct_unmodified)
    (run_of_zero (by decide +kernel))).2.1

/-- `git clean -f` that exits with zero has removed the paths that the index
does not have from the work tree, and nothing else. -/
theorem cleaned_of_run
    (direct : ∀ spec ∈ specs, Direct state.files workdir spec)
    (runs : run git workdir creation .clean specs author committer state =
      (0, next)) :
    Cleared state.files next.files workdir
        (specs.filter fun spec => (git.indexGet state.index spec).isNone) ∧
      next.index = state.index ∧ state.SameReferences next := by
  have cleans := perform_of_run runs
  exact cleared_of_clean direct cleans

omit [DecidableEq Oid] in
theorem cleaned_of_run_untracked :
    Cleared untracked.files
      (run entryLists [] 0o644 .clean pathsA someone someone untracked).2.files
      [] (pathsA.filter fun spec =>
        (entryLists.indexGet untracked.index spec).isNone) :=
  (cleaned_of_run (fun _ member => mem_pathsA member ▸ home_modified.direct)
    (run_of_zero (by decide +kernel))).1

/-- `git commit` that exits with zero has made one commit on top of `HEAD` that
records what the work tree has at each path, all of them known to git, and what
`HEAD` had everywhere apart from them; the index has become the work tree at
these paths, and the work tree is the same. -/
theorem committed_of_run
    (lawful : git.Lawful)
    {message : Option Text}
    (plain : ∀ spec ∈ specs, Plain state.files workdir spec)
    (runs : run git workdir creation (.commit message) specs author committer
      state = (0, next)) :
    ∃ text ∈ message, ∃ parent made,
      Committed git workdir specs text author committer state next parent
        made :=
  committed_of_commit lawful plain (perform_of_run runs)

omit [DecidableEq Oid] in
theorem committed_of_run_modified :
    ∃ text ∈ some ['t'], ∃ parent made,
      Committed entryLists [] pathsA text someone someone modified
        (run entryLists [] 0o644 (.commit (some ['t'])) pathsA someone someone
          modified).2 parent made :=
  @committed_of_run _ _ _ _ entryLists [] 0o644 pathsA someone someone modified _
    entryLists_lawful _
    (fun _ member => mem_pathsA member ▸ home_modified.plain)
    (run_of_zero (by decide +kernel))

/-- `git checkout HEAD` that exits with zero was given paths that `HEAD` has:
the index and the work tree have become `HEAD` there, and the work tree changed
nowhere else but for directories made on the way. -/
theorem checkedOut_of_run
    (lawful : git.Lawful)
    (can : ∀ spec ∈ specs, Restorable git state.files workdir spec
      (committedBlob git (headTree state) spec))
    (runs : run git workdir creation .checkout specs author committer state =
      (0, next)) :
    (∀ spec ∈ specs, committedBlob git (headTree state) spec ≠ none) ∧
      Indexed git (committedBlob git (headTree state)) state.index specs
        next.index ∧
      Restored git (committedBlob git (headTree state)) state.files next.files
        workdir specs ∧
      next = { state with files := next.files, index := next.index } :=
  restored_of_checkout lawful can (perform_of_run runs)

omit [DecidableEq Oid] in
theorem checkedOut_of_run_modified :
    Restored entryLists (committedBlob entryLists (headTree modified))
      modified.files
      (run entryLists [] 0o644 .checkout pathsA someone someone
        modified).2.files [] pathsA :=
  (checkedOut_of_run entryLists_lawful
    (fun _ member => mem_pathsA member ▸ restorable_modified)
    (run_of_zero (by decide +kernel))).2.2.1

/-- `git stash push` that exits with zero either found the index and the work
tree to be `HEAD` at each path, and did nothing, or has stored both in two
commits and made them `HEAD` there. -/
theorem stashed_of_run
    (lawful : git.Lawful)
    (can : ∀ spec ∈ specs, Restorable git state.files workdir spec
      (committedBlob git (headTree state) spec))
    (clear : Clear (committedBlob git (headTree state)) specs)
    (runs : run git workdir creation .stash specs author committer state =
      (0, next)) :
    ∃ parent, state.head = some parent ∧
      (∀ spec ∈ specs, indexBlob git state.index spec ≠ none) ∧
      ((¬ ∃ spec ∈ specs, Dirty git workdir state parent.tree spec) ∧
          state.Untouched next ∨
        (∃ spec ∈ specs, Dirty git workdir state parent.tree spec) ∧
          ∃ staged saved,
            Stashed git workdir specs committer state parent staged saved ∧
            TakenBack git workdir specs state next saved) :=
  stashed_of_stash lawful can clear (perform_of_run runs)

omit [DecidableEq Oid] in
theorem stashed_of_run_modified :
    ∃ parent, modified.head = some parent ∧
      (∃ spec ∈ pathsA, Dirty entryLists [] modified parent.tree spec) ∧
      ∃ staged saved,
        Stashed entryLists [] pathsA someone modified parent staged saved ∧
        TakenBack entryLists [] pathsA modified
          (run entryLists [] 0o644 .stash pathsA someone someone modified).2
          saved := by
  have runs := @run_of_zero _ _
    (run entryLists [] 0o644 .stash pathsA someone someone modified)
    (by decide +kernel)
  obtain ⟨parent, head, -, kept | made⟩ := stashed_of_run entryLists_lawful
    (fun _ member => mem_pathsA member ▸ restorable_modified)
    (fun spec member other listed apart =>
      absurd ((mem_pathsA listed).trans (mem_pathsA member).symm) apart) runs
  · have differs : workingBlob entryLists modified.files [] [nameA] ≠
        indexBlob entryLists modified.index [nameA] := by
      decide +kernel
    exact absurd ⟨[nameA], List.mem_cons_self, .inr differs⟩ kept.1
  · exact ⟨parent, head, made⟩

end Runs

end Gitexec
end Marsh
