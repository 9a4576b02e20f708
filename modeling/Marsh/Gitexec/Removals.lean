import Marsh.Gitexec.Refusals
import Marsh.Gitexec.WorkTree

/-!
# What removing and cleaning do

A removal that returns zero takes the named paths out of the work tree and the
index, and loses no content that `HEAD` does not have.  A cleaning removes what
the index does not know.
-/

namespace Marsh
namespace Gitexec

open Library Exec
open Operation

/-! ## What stays -/

/-- Whether the commits and references of two states are the same. -/
structure GitState.SameReferences
    {Index Tree : Type}
    (state next : GitState Index Tree) : Prop where
  head : next.head = state.head
  branch : next.branch = state.branch
  stash : next.stash = state.stash
  stashLog : next.stashLog = state.stashLog

instance {Index Tree : Type} :
    Std.Refl (@GitState.SameReferences Index Tree) where
  refl _ := ⟨rfl, rfl, rfl, rfl⟩

instance {Index Tree : Type} : IsTrans (GitState Index Tree)
    GitState.SameReferences where
  trans _ _ _ first second :=
    ⟨second.head.trans first.head, second.branch.trans first.branch,
      second.stash.trans first.stash, second.stashLog.trans first.stashLog⟩

/-- Whether some entries of a work tree are gone, and no others changed. -/
structure Cleared
    (files next : FileTree)
    (workdir : Location)
    (specs : List Location) : Prop where
  here : ∀ spec ∈ specs, next.find (workdir ++ spec) = none
  there : ∀ other, (∀ spec ∈ specs, other ≠ workdir ++ spec) ->
    next.find other = files.find other

section Cleared

variable {files middle next : FileTree} {workdir : Location}
variable {done : List Location} {spec : Location}

theorem cleared_nil : Cleared files files workdir [] where
  here spec member := by cases member
  there _ _ := rfl

/-- One more entry goes. -/
theorem Cleared.turn
    (cleared : Cleared files middle workdir done)
    (here : next.find (workdir ++ spec) = none)
    (there : ∀ other, other ≠ workdir ++ spec ->
      next.find other = middle.find other) :
    Cleared files next workdir (done ++ [spec]) where
  here path member := by
    by_cases same : path = spec
    · rw [same, here]
    · have earlier : path ∈ done := by simpa [same] using member
      rw [there _ fun equal => same (List.append_cancel_left equal)]
      exact cleared.here path earlier
  there other away := by
    rw [there other (away spec (by simp))]
    exact cleared.there other
      fun path member => away path (List.mem_append_left _ member)

/-- What removing entries leaves direct. -/
theorem Cleared.direct
    (cleared : Cleared files next workdir done)
    (direct : Direct files workdir spec) : Direct next workdir spec where
  nonempty := direct.nonempty
  unlinked above before target found := by
    refine direct.unlinked above before target ?_
    by_cases removed : ∃ path ∈ done, above = workdir ++ path
    · obtain ⟨path, member, rfl⟩ := removed
      rw [cleared.here path member] at found
      cases found
    · simp only [not_exists, not_and] at removed
      rw [cleared.there above removed] at found
      exact found

end Cleared

/-- Whether some entries of an index are gone, and no others changed. -/
structure Dropped
    {Oid Index Tree : Type}
    (git : Libgit2 Oid Index Tree)
    (index next : Index)
    (specs : List Location) : Prop where
  here : ∀ spec ∈ specs, git.indexGet next spec = none
  there : ∀ other ∉ specs, git.indexGet next other = git.indexGet index other

section Removals

variable {Oid Index Tree : Type}
variable {git : Libgit2 Oid Index Tree}
variable {workdir : Location} {specs : List Location}
variable {state next : GitState Index Tree}

theorem dropped_nil {index : Index} : Dropped git index index [] where
  here spec member := by cases member
  there _ _ := rfl

/-- One more entry goes. -/
theorem Dropped.turn
    (lawful : git.Lawful)
    {index middle last : Index}
    {done : List Location}
    {spec : Location}
    (dropped : Dropped git index middle done)
    (removes : git.indexRemovePath middle spec = .ok last) :
    Dropped git index last (done ++ [spec]) where
  here path member := by
    rw [lawful.indexGet_remove removes]
    split_ifs with same
    · rfl
    · exact dropped.here path (by simpa [same] using member)
  there other away := by
    have apart : other ∉ done ∧ other ≠ spec := by simpa using away
    rw [lawful.indexGet_remove removes, if_neg apart.2,
      dropped.there other apart.1]

/-! ## Removing -/

/-- Whether a path has content in the work tree that `HEAD` does not have. -/
def Unsaved
    (git : Libgit2 Oid Index Tree)
    (workdir : Location)
    (state : GitState Index Tree)
    (spec : Location) : Prop :=
  ∃ working, workingBlob git state.files workdir spec = some working ∧
    ((headTree state).bind fun tree => treeBlob git tree spec) ≠ some working

/-- A removal that is not refused sees no changes. -/
theorem eq_false_of_refusal
    {stagedChanges localChanges : Bool}
    (none : refusal stagedChanges localChanges = none) :
    stagedChanges = false ∧ localChanges = false := by
  cases stagedChanges with
  | true => cases localChanges <;> cases none
  | false =>
      cases localChanges with
      | true => cases none
      | false => exact ⟨rfl, rfl⟩

/-- A path that passes the check is known, and saved. -/
theorem saved_of_deleteCheck
    [DecidableEq Oid]
    {index : Index}
    {spec : Location}
    {done : Unit}
    (direct : Direct state.files workdir spec)
    (runs : deleteCheck git workdir index (headTree state) spec () state =
      (.ok (.ok done), next)) :
    indexBlob git index spec ≠ none ∧ ¬ Unsaved git workdir state spec ∧
      next = state := by
  rw [deleteCheck] at runs
  cases known : indexBlob git index spec with
  | none =>
      rw [known] at runs
      obtain ⟨printed, last, -, ends⟩ := bind_eq_ok runs
      cases ends
  | some staged =>
      rw [known] at runs
      dsimp only at runs
      obtain ⟨working, middle, ran, rest⟩ := bind_eq_ok runs
      obtain ⟨reads, rfl⟩ := look_eq_ok ran
      have is := direct.worktreeBlob_eq_ok reads
      cases refuses : working.bind fun working =>
          refusal
            (((headTree middle).bind fun tree => treeBlob git tree spec) ≠
              some staged)
            (working ≠ staged) with
      | some why =>
          rw [refuses] at rest
          obtain ⟨printed, last, -, ends⟩ := bind_eq_ok rest
          cases ends
      | none =>
          rw [refuses] at rest
          cases rest
          refine ⟨Option.some_ne_none staged, ?_, rfl⟩
          rintro ⟨content, same, unsaved⟩
          rw [← is] at same
          rw [same, Option.bind_some] at refuses
          obtain ⟨committed, local_⟩ := eq_false_of_refusal refuses
          rw [decide_eq_false_iff_not, not_not] at committed local_
          exact unsaved (committed.trans (congrArg some local_.symm))

/-- A check that returns early refuses. -/
theorem nonzero_of_deleteCheck
    [DecidableEq Oid]
    {index : Index}
    {head : Option Tree}
    {spec : Location}
    {done : Unit}
    {code : Int}
    (runs : deleteCheck git workdir index head spec done state =
      (.ok (.error code), next)) : code ≠ 0 := by
  rw [deleteCheck] at runs
  cases known : indexBlob git index spec with
  | none =>
      rw [known] at runs
      obtain ⟨printed, last, -, ends⟩ := bind_eq_ok runs
      cases ends
      decide
  | some staged =>
      rw [known] at runs
      dsimp only at runs
      obtain ⟨working, middle, ran, rest⟩ := bind_eq_ok runs
      cases refuses : working.bind fun working =>
          refusal
            ((head.bind fun tree => treeBlob git tree spec) ≠ some staged)
            (working ≠ staged) with
      | some why =>
          rw [refuses] at rest
          obtain ⟨printed, last, -, ends⟩ := bind_eq_ok rest
          cases ends
          decide
      | none =>
          rw [refuses] at rest
          cases rest

/-- A turn of removing takes a path out of the work tree and the index. -/
theorem removed_of_deleteEach
    {index taken : Index}
    {spec : Location}
    (direct : Direct state.files workdir spec)
    (runs : deleteEach git workdir spec index state =
      (.ok (.ok taken), next)) :
    git.indexRemovePath index spec = .ok taken ∧
      state.SameReferences next ∧ next.index = state.index ∧
      next.files.find (workdir ++ spec) = none ∧
      ∀ other, other ≠ workdir ++ spec ->
        next.files.find other = state.files.find other := by
  obtain ⟨done, middle, removed, rest⟩ := bind_eq_ok runs
  have gone := replaced_of_removeFile direct removed
  obtain ⟨left, looked, ran, more⟩ := bind_eq_ok rest
  obtain ⟨removes, rfl⟩ := look_eq_ok ran
  obtain ⟨printed, last, prints, ends⟩ := bind_eq_ok more
  cases change_eq_ok prints
  cases ends
  refine ⟨removes, ⟨?_, ?_, ?_, ?_⟩, ?_, gone.here, gone.there⟩
  all_goals
    dsimp only
    rw [gone.only]

/-- A removal that returns zero: every path it names was known and is gone from
the work tree and the index, no content was lost that `HEAD` does not have, and
nothing else changed. -/
theorem removed_of_delete
    [DecidableEq Oid]
    (lawful : git.Lawful)
    (direct : ∀ spec ∈ specs, Direct state.files workdir spec)
    (runs : delete git workdir specs state = (.ok 0, next)) :
    (∀ spec ∈ specs, indexBlob git state.index spec ≠ none ∧
        ¬ Unsaved git workdir state spec) ∧
      Cleared state.files next.files workdir specs ∧
      Dropped git state.index next.index specs ∧
      state.SameReferences next := by
  obtain ⟨index, middle, looked, rest⟩ := bind_eq_ok runs
  obtain ⟨same, rfl⟩ := look_eq_ok looked
  cases same
  obtain ⟨head, middle, looked, rest⟩ := bind_eq_ok rest
  obtain ⟨same, rfl⟩ := look_eq_ok looked
  cases same
  obtain ⟨ended, checked, looped, rest⟩ := bind_eq_ok rest
  cases ended with
  | error code =>
      obtain ⟨spec, -, reached, between, -, ran⟩ := forEach_returned
        (fun _ _ _ _ _ _ _ _ => trivial) trivial looped
      have failed := nonzero_of_deleteCheck ran
      cases rest
      exact absurd rfl failed
  | ok done =>
      obtain ⟨rfl, passed⟩ := @forEach_invariant _ _ _ _ _ _
        (fun done _ reached => reached = middle ∧
          ∀ spec ∈ done, indexBlob git middle.index spec ≠ none ∧
            ¬ Unsaved git workdir middle spec)
        specs
        (fun done turn later _ _ reached between split held ran => by
          obtain ⟨rfl, passed⟩ := held
          have member : turn ∈ specs := by simp [split]
          obtain ⟨known, saved, rfl⟩ :=
            saved_of_deleteCheck (direct turn member) ran
          refine ⟨rfl, fun spec listed => ?_⟩
          rcases List.mem_append.mp listed with earlier | own
          · exact passed spec earlier
          · rw [List.mem_singleton.mp own]
            exact ⟨known, saved⟩)
        _ _ _ _ ⟨rfl, fun spec member => by cases member⟩ looped
      obtain ⟨ended, last, looped, rest⟩ := bind_eq_ok rest
      cases ended with
      | error code =>
          exact absurd (congrArg Prod.fst looped)
            (Yields.forEach (continues_deleteEach git workdir) _ _ _ code)
      | ok taken =>
          obtain ⟨kept, sameIndex, cleared, dropped⟩ :=
            @forEach_invariant _ _ _ _ _ _
            (fun done index reached => checked.SameReferences reached ∧
              reached.index = checked.index ∧
              Cleared checked.files reached.files workdir done ∧
              Dropped git checked.index index done)
            specs
            (fun done turn later index taken reached between split held ran => by
              obtain ⟨kept, sameIndex, cleared, dropped⟩ := held
              have member : turn ∈ specs := by simp [split]
              obtain ⟨removes, references, unchanged, here, there⟩ :=
                removed_of_deleteEach (cleared.direct (direct turn member)) ran
              exact ⟨IsTrans.trans _ _ _ kept references,
                unchanged.trans sameIndex, cleared.turn here there,
                dropped.turn lawful removes⟩)
            _ _ _ _
            ⟨Std.Refl.refl _, rfl, cleared_nil, dropped_nil⟩ looped
          cases rest
          exact ⟨passed, cleared, dropped, kept.head, kept.branch, kept.stash,
            kept.stashLog⟩

/-! ## Cleaning -/

/-- A turn of cleaning takes an untracked path out of the work tree. -/
theorem cleared_of_cleanEach
    {index : Index}
    {spec : Location}
    {done after : Unit}
    (direct : Direct state.files workdir spec)
    (runs : cleanEach git workdir index spec done state =
      (.ok (.ok after), next)) :
    state.SameReferences next ∧ next.index = state.index ∧
      if git.indexGet index spec = none then
        next.files.find (workdir ++ spec) = none ∧
          ∀ other, other ≠ workdir ++ spec ->
            next.files.find other = state.files.find other
      else next.files = state.files := by
  obtain ⟨here, middle, ran, rest⟩ := bind_eq_ok runs
  obtain ⟨same, rfl⟩ := present_eq_ok ran
  by_cases removes : ((git.indexGet index spec).isNone && here) = true
  · rw [if_pos removes] at rest
    have untracked := Option.isNone_iff_eq_none.mp (Bool.and_eq_true_iff.mp
      removes).1
    obtain ⟨gone, last, removed, more⟩ := bind_eq_ok rest
    have replaced := replaced_of_unlink direct removed
    obtain ⟨printed, between, prints, ends⟩ := bind_eq_ok more
    cases change_eq_ok prints
    cases ends
    rw [if_pos untracked]
    refine ⟨⟨?_, ?_, ?_, ?_⟩, ?_, replaced.here, replaced.there⟩
    all_goals
      dsimp only
      rw [replaced.only]
  · rw [if_neg removes] at rest
    cases rest
    refine ⟨Std.Refl.refl _, rfl, ?_⟩
    by_cases untracked : git.indexGet index spec = none
    · rw [if_pos untracked]
      have absent : ¬ here = true := fun there =>
        removes (Bool.and_eq_true_iff.mpr
          ⟨Option.isNone_iff_eq_none.mpr untracked, there⟩)
      rw [same, direct.isOk_lstat, not_not] at absent
      exact ⟨absent, fun _ _ => rfl⟩
    · rw [if_neg untracked]

/-- A cleaning that returns zero: the named paths the index does not know are
gone from the work tree, and nothing else changed. -/
theorem cleared_of_clean
    (direct : ∀ spec ∈ specs, Direct state.files workdir spec)
    (runs : clean git workdir specs state = (.ok 0, next)) :
    Cleared state.files next.files workdir
        (specs.filter fun spec => (git.indexGet state.index spec).isNone) ∧
      next.index = state.index ∧ state.SameReferences next := by
  obtain ⟨index, middle, looked, rest⟩ := bind_eq_ok runs
  obtain ⟨same, rfl⟩ := look_eq_ok looked
  cases same
  obtain ⟨ended, last, looped, ends⟩ := bind_eq_ok rest
  cases ended with
  | error code =>
      exact absurd (congrArg Prod.fst looped)
        (Yields.forEach (continues_cleanEach git workdir middle.index) _ _ _
          code)
  | ok done =>
      obtain ⟨kept, sameIndex, cleared⟩ := @forEach_invariant _ _ _ _ _ _
        (fun done _ reached => middle.SameReferences reached ∧
          reached.index = middle.index ∧
          Cleared middle.files reached.files workdir
            (done.filter fun spec => (git.indexGet middle.index spec).isNone))
        specs
        (fun done turn later _ _ reached between split held ran => by
          obtain ⟨kept, sameIndex, cleared⟩ := held
          have member : turn ∈ specs := by simp [split]
          obtain ⟨references, unchanged, changes⟩ :=
            cleared_of_cleanEach (cleared.direct (direct turn member)) ran
          refine ⟨IsTrans.trans _ _ _ kept references,
            unchanged.trans sameIndex, ?_⟩
          rw [List.filter_append]
          split_ifs at changes with untracked
          · rw [List.filter_singleton, untracked]
            exact cleared.turn changes.1 changes.2
          · rw [List.filter_singleton, changes,
              Option.isNone_eq_false_iff.mpr
                (Option.isSome_iff_ne_none.mpr untracked)]
            exact (List.append_nil _).symm ▸ cleared)
        _ _ _ _ ⟨Std.Refl.refl _, rfl, cleared_nil⟩ looped
      cases ends
      exact ⟨cleared, sameIndex, kept⟩

end Removals

end Gitexec
end Marsh
