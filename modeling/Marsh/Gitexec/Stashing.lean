import Marsh.Gitexec.Restoring

/-!
# What stashing does

A stash that returns zero and finds a change saves the index and the work tree
at the named paths as two commits, on which `refs/stash` then stands, before the
paths go back to `HEAD`.  One that finds none changes nothing.
-/

namespace Marsh
namespace Gitexec

open Library Exec
open Operation

section Stashing

variable {Oid Index Tree : Type} [DecidableEq Oid]
variable {git : Libgit2 Oid Index Tree}
variable {workdir : Location} {specs : List Location}
variable {state next : GitState Index Tree}

/-! ## What is checked -/

/-- Whether the index or the work tree differs from a tree at a path. -/
def Dirty
    (git : Libgit2 Oid Index Tree)
    (workdir : Location)
    (state : GitState Index Tree)
    (base : Tree)
    (spec : Location) : Prop :=
  treeBlob git base spec ≠ indexBlob git state.index spec ∨
    workingBlob git state.files workdir spec ≠ indexBlob git state.index spec

/-- Whether what is saved of a path is what the index and the work tree have
there. -/
structure Saves
    (git : Libgit2 Oid Index Tree)
    (workdir : Location)
    (state : GitState Index Tree)
    (saved : StashedState Oid) : Prop where
  staged : indexBlob git state.index saved.spec = some saved.staged
  working : workingBlob git state.files workdir saved.spec = saved.working

/-- A path that is checked is known. -/
theorem saved_of_stashCheck
    {base : Tree}
    {spec : Location}
    {found more : List (StashedState Oid) × Bool}
    (direct : Direct state.files workdir spec)
    (runs : stashCheck git workdir state.index base spec found state =
      (.ok (.ok more), next)) :
    ∃ saved, saved.spec = spec ∧ Saves git workdir state saved ∧
      more.1 = found.1 ++ [saved] ∧
      (more.2 = true ↔
        found.2 = true ∨ Dirty git workdir state base spec) ∧
      next = state := by
  rw [stashCheck.eq_def] at runs
  cases known : indexBlob git state.index spec with
  | none =>
      rw [known] at runs
      obtain ⟨printed, last, -, ends⟩ := bind_eq_ok runs
      cases ends
  | some staged =>
      rw [known] at runs
      obtain ⟨working, middle, ran, ends⟩ := bind_eq_ok runs
      obtain ⟨reads, rfl⟩ := look_eq_ok ran
      cases ends
      have is := direct.worktreeBlob_eq_ok reads
      refine ⟨⟨spec, staged, working⟩, rfl, ⟨known, is.symm⟩, rfl, ?_, rfl⟩
      rw [Dirty, known, ← is]
      simp only [Bool.or_eq_true, decide_eq_true_eq, or_assoc]

theorem nonzero_of_stashCheck
    {index : Index}
    {base : Tree}
    {spec : Location}
    {found : List (StashedState Oid) × Bool}
    {code : Int}
    (runs : stashCheck git workdir index base spec found state =
      (.ok (.error code), next)) : code ≠ 0 := by
  rw [stashCheck.eq_def] at runs
  cases known : indexBlob git index spec with
  | none =>
      rw [known] at runs
      obtain ⟨printed, last, -, ends⟩ := bind_eq_ok runs
      cases ends
      decide
  | some staged =>
      rw [known] at runs
      obtain ⟨working, middle, -, ends⟩ := bind_eq_ok runs
      cases ends

/-- What is found by all checks. -/
theorem saved_of_forEach
    {base : Tree}
    {found : List (StashedState Oid) × Bool}
    (direct : ∀ spec ∈ specs, Direct state.files workdir spec)
    (runs : forEach (stashCheck git workdir state.index base) specs ([], false)
      state = (.ok (.ok found), next)) :
    found.1.map StashedState.spec = specs ∧
      (∀ saved ∈ found.1, Saves git workdir state saved) ∧
      (found.2 = true ↔ ∃ spec ∈ specs, Dirty git workdir state base spec) ∧
      next = state := by
  refine @forEach_invariant _ _ _ _ _ _
    (fun done found reached => found.1.map StashedState.spec = done ∧
      (∀ saved ∈ found.1, Saves git workdir state saved) ∧
      (found.2 = true ↔ ∃ spec ∈ done, Dirty git workdir state base spec) ∧
      reached = state) specs ?_ _ _ _ _ ⟨rfl, ?_, by simp, rfl⟩ runs
  · intro done turn later found more reached middle split held ran
    obtain ⟨rfl, saves, dirty, rfl⟩ := held
    have member : turn ∈ specs := by simp [split]
    obtain ⟨saved, rfl, own, same, either, rfl⟩ :=
      saved_of_stashCheck (direct turn member) ran
    refine ⟨by rw [same]; simp, ?_, ?_, rfl⟩
    · intro other listed
      rw [same] at listed
      rcases List.mem_append.mp listed with earlier | last
      · exact saves other earlier
      · rw [List.mem_singleton.mp last]
        exact own
    · rw [either, dirty]
      simp only [List.mem_append, List.mem_singleton, or_and_right, exists_or,
        exists_eq_left]
  · intro saved member
    cases member

/-! ## What is saved, and taken back -/

omit [DecidableEq Oid] in
/-- A turn takes a stashed path back to `HEAD`. -/
theorem restoreTurn_of_stashEach
    (lawful : git.Lawful)
    {creation : Nat}
    {base : Tree}
    {saved : StashedState Oid}
    {index taken : Index}
    (can : Restorable git state.files workdir saved.spec
      (committedBlob git (some base) saved.spec))
    (runs : stashEach git workdir creation base saved index state =
      (.ok (.ok taken), next)) :
    RestoreTurn git (committedBlob git (some base)) workdir saved.spec index
      taken state next := by
  rw [stashEach.eq_def] at runs
  cases is : treeBlob git base saved.spec with
  | some blob =>
      rw [is] at runs
      obtain ⟨done, middle, wrote, rest⟩ := bind_eq_ok runs
      obtain ⟨added, last, ran, ends⟩ := bind_eq_ok rest
      obtain ⟨adds, rfl⟩ := look_eq_ok ran
      cases ends
      exact restoreTurn_of_write lawful is can wrote adds
  | none =>
      rw [is] at runs
      obtain ⟨done, middle, removed, rest⟩ := bind_eq_ok runs
      obtain ⟨dropped, last, ran, ends⟩ := bind_eq_ok rest
      obtain ⟨removes, rfl⟩ := look_eq_ok ran
      cases ends
      have gone := replaced_of_removeFile can.toDirect removed
      refine ⟨.removed is removes, gone.only, ?_, fun content mode found => ?_,
        fun other apart => .inl (gone.there other apart)⟩
      · rw [workingBlob_of_none gone.here]
        exact is.symm
      · rw [gone.here] at found
        cases found

/-- A log that is not empty, or gets its first entry. -/
theorem ite_ne_nil
    {α : Type}
    (log : List α)
    (entry : α)
    [Decidable (log = [])] : (if log = [] then [entry] else log) ≠ [] := by
  split_ifs with empty
  · exact List.cons_ne_nil entry []
  · exact empty

/-- What a stash saved. -/
structure Stashed
    (git : Libgit2 Oid Index Tree)
    (workdir : Location)
    (specs : List Location)
    (committer : GitEnvIdentity)
    (state : GitState Index Tree)
    (parent staged saved : Commit Tree) : Prop where
  stagedParents : staged.parents = [parent]
  savedParents : saved.parents = [parent, staged]
  author : saved.author = committer
  committer : saved.committer = committer
  stagedIs : ∀ spec ∈ specs,
    treeBlob git staged.tree spec = indexBlob git state.index spec
  workingIs : ∀ spec ∈ specs,
    Recorded git saved.tree spec (workingBlob git state.files workdir spec)
  stagedApart : ∀ path, (∀ spec ∈ specs, ¬ Nested spec path) ->
    git.treeGet staged.tree path = git.treeGet parent.tree path
  workingApart : ∀ path, (∀ spec ∈ specs, ¬ Nested spec path) ->
    git.treeGet saved.tree path = git.treeGet parent.tree path

/-- What a stash left of a state. -/
structure TakenBack
    (git : Libgit2 Oid Index Tree)
    (workdir : Location)
    (specs : List Location)
    (state next : GitState Index Tree)
    (saved : Commit Tree) : Prop where
  stash : next.stash = some saved
  logged : next.stashLog ≠ []
  index : Indexed git (committedBlob git (headTree state)) state.index specs
    next.index
  files : Restored git (committedBlob git (headTree state)) state.files
    next.files workdir specs
  head : next.head = state.head
  branch : next.branch = state.branch

omit [DecidableEq Oid] in
/-- What is saved of some paths is one thing for each path. -/
theorem saved_agree
    {saves : List (StashedState Oid)}
    (all : ∀ saved ∈ saves, Saves git workdir state saved) :
    ∀ saved ∈ saves, ∀ other ∈ saves, other.spec = saved.spec ->
      other = saved := by
  intro saved member other listed same
  have one := all saved member
  have two := all other listed
  obtain ⟨spec, staged, working⟩ := saved
  obtain ⟨spec, otherStaged, otherWorking⟩ := other
  dsimp only at same
  subst same
  have stagedSame := Option.some.inj (one.staged.symm.trans two.staged)
  have workingSame := one.working.symm.trans two.working
  dsimp only at stagedSame workingSame
  rw [stagedSame, workingSame]

omit [DecidableEq Oid] in
/-- What the two trees of a stash hold. -/
theorem stashed_of_createUpdated
    (lawful : git.Lawful)
    {states : List (StashedState Oid)}
    {committer : GitEnvIdentity}
    {parent : Commit Tree}
    {stagedTree workingTree : Tree}
    {stagedMessage message : Text}
    (all : ∀ saved ∈ states, Saves git workdir state saved)
    (stagedCreates : git.createUpdated parent.tree
      (states.map fun saved => ⟨saved.spec, some saved.staged⟩) =
        .ok stagedTree)
    (workingCreates : git.createUpdated parent.tree
      (states.map fun saved => ⟨saved.spec, saved.working⟩) =
        .ok workingTree) :
    Stashed git workdir (states.map StashedState.spec) committer state parent
      ⟨stagedTree, [parent], committer, committer, stagedMessage⟩
      ⟨workingTree,
        [parent, ⟨stagedTree, [parent], committer, committer, stagedMessage⟩],
        committer, committer, message⟩ := by
  obtain ⟨stagedIs, stagedApart⟩ := @recorded_of_createUpdated
    _ _ _ git lawful _ StashedState.spec (fun saved => some saved.staged) states
    (fun saved member other listed same => by
      rw [saved_agree all saved member other listed same])
    _ _ stagedCreates
  obtain ⟨workingIs, workingApart⟩ := @recorded_of_createUpdated
    _ _ _ git lawful _ StashedState.spec StashedState.working states
    (fun saved member other listed same => by
      rw [saved_agree all saved member other listed same])
    _ _ workingCreates
  refine ⟨rfl, rfl, rfl, rfl, fun spec member => ?_, fun spec member => ?_,
    fun path apart => stagedApart path fun saved own => ?_,
    fun path apart => workingApart path fun saved own => ?_⟩
  · obtain ⟨saved, own, rfl⟩ := List.mem_map.mp member
    rw [(all saved own).staged]
    exact stagedIs saved own
  · obtain ⟨saved, own, rfl⟩ := List.mem_map.mp member
    rw [(all saved own).working]
    exact workingIs saved own
  · exact apart saved.spec (List.mem_map_of_mem own)
  · exact apart saved.spec (List.mem_map_of_mem own)

/-- A stash that returns zero: every path it names is in the index, and it
either found no change and made none, or saved the paths and took them back. -/
theorem stashed_of_stash
    (lawful : git.Lawful)
    {creation : Nat}
    {committer : GitEnvIdentity}
    (can : ∀ spec ∈ specs, Restorable git state.files workdir spec
      (committedBlob git (headTree state) spec))
    (clear : Clear (committedBlob git (headTree state)) specs)
    (runs : stash git workdir creation specs committer state = (.ok 0, next)) :
    ∃ parent, state.head = some parent ∧
      (∀ spec ∈ specs, indexBlob git state.index spec ≠ none) ∧
      ((¬ ∃ spec ∈ specs, Dirty git workdir state parent.tree spec) ∧
          state.Untouched next ∨
        (∃ spec ∈ specs, Dirty git workdir state parent.tree spec) ∧
          ∃ staged saved,
            Stashed git workdir specs committer state parent staged saved ∧
            TakenBack git workdir specs state next saved) := by
  obtain ⟨head, first, looked, rest⟩ := bind_eq_ok runs
  obtain ⟨same, rfl⟩ := look_eq_ok looked
  cases head with
  | none =>
      obtain ⟨printed, last, -, ends⟩ := bind_eq_ok rest
      cases ends
  | some parent =>
      have headed := Except.ok.inj same
      have headTreeIs : headTree first = some parent.tree := by
        rw [headTree, headed, Option.map_some]
      rw [headTreeIs] at can clear
      refine ⟨parent, headed, ?_⟩
      obtain ⟨index, second, taken, checks⟩ := bind_eq_ok rest
      obtain ⟨known, rfl⟩ := look_eq_ok taken
      cases known
      obtain ⟨ended, third, looped, saves⟩ := bind_eq_ok checks
      cases ended with
      | error code =>
          obtain ⟨spec, -, reached, between, -, ran⟩ := forEach_returned
            (fun _ _ _ _ _ _ _ _ => trivial) trivial looped
          cases saves
          exact absurd rfl (nonzero_of_stashCheck ran)
      | ok found =>
          obtain ⟨states, dirty⟩ := found
          obtain ⟨rfl, all, isDirty, rfl⟩ := saved_of_forEach
            (fun spec member => (can spec member).toDirect) looped
          dsimp only at all isDirty can clear saves ⊢
          refine ⟨fun spec member => ?_, ?_⟩
          · obtain ⟨saved, own, rfl⟩ := List.mem_map.mp member
            rw [(all saved own).staged]
            exact Option.some_ne_none _
          cases dirtyIs : dirty with
          | false =>
              rw [dirtyIs, if_neg Bool.false_ne_true] at saves
              obtain ⟨printed, last, prints, ends⟩ := bind_eq_ok saves
              cases change_eq_ok prints
              cases ends
              refine .inl ⟨fun some => ?_, rfl, rfl, rfl, rfl, rfl, rfl⟩
              rw [isDirty.mpr some] at dirtyIs
              cases dirtyIs
          | true =>
              rw [dirtyIs, if_pos rfl] at saves
              refine .inr ⟨isDirty.mp dirtyIs, ?_⟩
              obtain ⟨branch, fourth, named, staging⟩ := bind_eq_ok saves
              obtain ⟨-, rfl⟩ := look_eq_ok named
              obtain ⟨stagedTree, fifth, created, messages⟩ :=
                bind_eq_ok staging
              obtain ⟨stagedCreates, rfl⟩ := look_eq_ok created
              obtain ⟨stagedMessage, sixth, prettified, working⟩ :=
                bind_eq_ok messages
              obtain ⟨-, rfl⟩ := look_eq_ok prettified
              obtain ⟨workingTree, seventh, made, labels⟩ := bind_eq_ok working
              obtain ⟨workingCreates, rfl⟩ := look_eq_ok made
              obtain ⟨message, eighth, labelled, sets⟩ := bind_eq_ok labels
              obtain ⟨-, rfl⟩ := look_eq_ok labelled
              obtain ⟨done, ninth, changed, restores⟩ := bind_eq_ok sets
              cases change_eq_ok changed
              obtain ⟨ended, tenth, looped, writes⟩ := bind_eq_ok restores
              cases ended with
              | error code =>
                  exact absurd (congrArg Prod.fst looped)
                    (Yields.forEach
                      (continues_stashEach git workdir creation parent.tree) _ _
                      _ code)
              | ok taken =>
                  obtain ⟨only, indexed, restored⟩ := restored_of_forEach lawful
                    (separate_committedBlob lawful (some parent.tree)
                      fun spec member => (can spec member).nonempty)
                    clear
                    (by
                      intro saved member
                      exact can saved.spec (List.mem_map_of_mem member))
                    (fun saved member index next before after able ran =>
                      restoreTurn_of_stashEach lawful able ran) looped
                  obtain ⟨done, eleventh, wrote, prints⟩ := bind_eq_ok writes
                  cases change_eq_ok wrote
                  obtain ⟨done, last, printed, ends⟩ := bind_eq_ok prints
                  cases change_eq_ok printed
                  cases ends
                  refine ⟨_, ⟨workingTree, [parent, ⟨stagedTree, [parent],
                      committer, committer, stagedMessage⟩], committer,
                      committer, message⟩,
                    stashed_of_createUpdated lawful all stagedCreates
                      workingCreates,
                    ?_, ?_, ?_, ?_, ?_, ?_⟩
                  · dsimp only
                    rw [only]
                  · dsimp only
                    rw [only]
                    exact ite_ne_nil _ _
                  · rw [headTreeIs]
                    exact indexed
                  · rw [headTreeIs]
                    exact restored
                  · dsimp only
                    rw [only]
                  · dsimp only
                    rw [only]

end Stashing

end Gitexec
end Marsh
