import Marsh.Gitexec.Places
import Marsh.Policy.GitFixes
import Marsh.Trace.Generator

/-!
# Rows and places

A row of the policy says how a path's three places compare, and the generator's
model says which of them hold something.  Every granted operation whose
precondition holds keeps both true of what its action makes of the places.
-/

namespace Marsh
namespace Trace

open Validator Policy Policy.Git Gitexec

variable {β : Type}

/-- How the places of a path compare in a row. -/
def RowHolds (row : Row) (places : Places β) : Prop :=
  match row with
  | .clean => places.index = places.working ∧ places.working = places.head
  | .staged => places.index = places.working ∧ places.working ≠ places.head
  | .unstaged _ => places.index ≠ none ∧ places.working ≠ places.head

/-- Whether the policy's row and the generator's model are true of a path. -/
structure Agrees
    (row : Row)
    (present tracked : Bool)
    (places : Places β) : Prop where
  committed : places.head ≠ none
  present_iff : present = true ↔ places.working ≠ none
  tracked_iff : tracked = true ↔ places.index ≠ none
  row : RowHolds row places

/-- Whether an operation leaves this in the work tree when it edits: a file that
`HEAD` does not have, or nothing. -/
structure Edits
    (operation : GeneratedOperation)
    (edited head : Option β) : Prop where
  fresh : edited ≠ head
  gone : edited = none ↔ operation = .delete

namespace Agrees

variable {row : Row} {present tracked : Bool} {places : Places β}

/-- Presence in the work tree implies trackedness. -/
theorem tracked_of_present
    (agrees : Agrees row present tracked places)
    (here : present = true) : tracked = true := by
  have working := agrees.present_iff.mp here
  have holds := agrees.row
  refine agrees.tracked_iff.mpr ?_
  cases row with
  | clean => exact holds.1 ▸ working
  | staged => exact holds.1 ▸ working
  | unstaged owner => exact holds.1

/-- In a row that is not clean the work tree is not `HEAD`. -/
theorem working_ne_head
    (agrees : Agrees row present tracked places)
    (dirty : row ≠ .clean) : places.working ≠ places.head := by
  have holds := agrees.row
  cases row with
  | clean => exact absurd rfl dirty
  | staged => exact holds.2
  | unstaged owner => exact holds.2

end Agrees

/-! ## What a granted action finds -/

section Granted

variable {row : Row} {principal : Principal}

theorem row_of_stage
    (granted : rowCell .stage (row.view principal) = none) :
    row = .unstaged principal := by
  cases view : row.view principal with
  | unstagedSelf => exact Row.view_eq_unstagedSelf_iff.mp view
  | clean => rw [view] at granted; cases granted
  | staged => rw [view] at granted; cases granted
  | unstagedOther => rw [view] at granted; cases granted

theorem row_of_stash
    (granted : rowCell .stash (row.view principal) = none) :
    row = .unstaged principal := by
  cases view : row.view principal with
  | unstagedSelf => exact Row.view_eq_unstagedSelf_iff.mp view
  | clean => rw [view] at granted; cases granted
  | staged => rw [view] at granted; cases granted
  | unstagedOther => rw [view] at granted; cases granted

theorem row_of_unstage
    (granted : rowCell .unstage (row.view principal) = none) :
    row = .staged := by
  cases view : row.view principal with
  | staged => exact Row.view_eq_staged_iff.mp view
  | clean => rw [view] at granted; cases granted
  | unstagedSelf => rw [view] at granted; cases granted
  | unstagedOther => rw [view] at granted; cases granted

theorem row_of_commit
    {message : Option String}
    (granted : rowCell (.commit message) (row.view principal) = none) :
    row = .staged := by
  cases view : row.view principal with
  | staged => exact Row.view_eq_staged_iff.mp view
  | clean => rw [view] at granted; cases granted
  | unstagedSelf => rw [view] at granted; cases granted
  | unstagedOther => rw [view] at granted; cases granted

theorem row_of_delete
    (granted : rowCell .delete (row.view principal) = none) :
    row = .clean := by
  cases view : row.view principal with
  | clean => exact Row.view_eq_clean_iff.mp view
  | staged => rw [view] at granted; cases granted
  | unstagedSelf => rw [view] at granted; cases granted
  | unstagedOther => rw [view] at granted; cases granted

end Granted

/-! ## One granted operation -/

section Step

variable {row : Row} {principal : Principal}
variable {pool : PoolState} {places : Places β} {edited : Option β}
variable {candidate : Candidate}

/-- An edit that is granted keeps what the index holds. -/
theorem Agrees.index_ne_none_of_edit
    {present tracked : Bool}
    (agrees : Agrees row present tracked places)
    (known : present = true ∨ tracked = true) : places.index ≠ none :=
  agrees.tracked_iff.mp (known.elim agrees.tracked_of_present id)

/-- Cleaning a path removes nothing. -/
theorem Agrees.after_clean
    {present tracked : Bool}
    (agrees : Agrees row present tracked places)
    (edited : Option β) : places.after edited .clean = places := by
  rw [Places.after]
  ext1
  · rfl
  · rfl
  · dsimp only
    split_ifs with untracked
    · by_contra different
      have there := agrees.present_iff.mpr (Ne.symm different)
      exact agrees.tracked_iff.mp (agrees.tracked_of_present there)
        (Option.isNone_iff_eq_none.mp untracked)
    · rfl

/-- A granted operation whose precondition holds keeps the row and the model
true of its path. -/
theorem Agrees.step
    (agrees : Agrees row (pool.present candidate.file)
      (pool.tracked candidate.file) places)
    (allowed : pool.allows candidate.operation candidate.file = true)
    (granted : rowCell (candidate.operation.action candidate.step)
      (row.view principal) = none)
    (edits : candidate.operation.action candidate.step = .edit ->
      Edits candidate.operation edited places.head) :
    Agrees
      (row.next principal (candidate.operation.action candidate.step))
      ((pool.recordGrant candidate).present candidate.file)
      ((pool.recordGrant candidate).tracked candidate.file)
      (places.after edited (candidate.operation.action candidate.step)) := by
  obtain ⟨agent, operation, file, step⟩ := candidate
  have committed := agrees.committed
  have here := agrees.present_iff
  have indexed := agrees.tracked_iff
  dsimp only at *
  cases operation with
  | create =>
      obtain ⟨fresh, gone⟩ := edits rfl
      have some : edited ≠ none := fun same => by cases gone.mp same
      rw [PoolState.allows, Bool.and_eq_true] at allowed
      refine ⟨committed, ?_, indexed, agrees.index_ne_none_of_edit
        (.inr allowed.2), fresh⟩
      simpa [PoolState.recordGrant, Places.after, GeneratedOperation.action]
        using some
  | modify =>
      obtain ⟨fresh, gone⟩ := edits rfl
      have some : edited ≠ none := fun same => by cases gone.mp same
      refine ⟨committed, ?_, indexed, agrees.index_ne_none_of_edit
        (.inl allowed), fresh⟩
      have there : pool.present file = true := allowed
      simpa [PoolState.recordGrant, Places.after, GeneratedOperation.action,
        there] using some
  | delete =>
      obtain ⟨fresh, gone⟩ := edits rfl
      refine ⟨committed, ?_, indexed, agrees.index_ne_none_of_edit
        (.inl allowed), fresh⟩
      simpa [PoolState.recordGrant, Places.after, GeneratedOperation.action]
        using gone.mpr rfl
  | stage =>
      obtain rfl := row_of_stage granted
      refine ⟨committed, here, ?_, rfl, agrees.row.2⟩
      simpa [PoolState.recordGrant, Places.after, GeneratedOperation.action]
        using here
  | unstage =>
      obtain rfl := row_of_unstage granted
      refine ⟨committed, here, ?_, committed, agrees.row.2⟩
      simpa [PoolState.recordGrant, Places.after, GeneratedOperation.action]
        using committed
  | commit =>
      have working := here.mp allowed
      obtain rfl := row_of_commit granted
      refine ⟨working, here, ?_, rfl, rfl⟩
      change pool.tracked file = true ↔ places.working ≠ none
      rw [← agrees.row.1]
      exact indexed
  | checkout =>
      refine ⟨committed, ?_, ?_, rfl, rfl⟩
      · simpa [PoolState.recordGrant, Places.after, GeneratedOperation.action]
          using committed
      · simpa [PoolState.recordGrant, Places.after, GeneratedOperation.action]
          using committed
  | stash =>
      refine ⟨committed, ?_, ?_, rfl, rfl⟩
      · simpa [PoolState.recordGrant, Places.after, GeneratedOperation.action]
          using committed
      · simpa [PoolState.recordGrant, Places.after, GeneratedOperation.action]
          using committed
  | read => exact agrees
  | diff => exact agrees
  | history => exact agrees
  | remove =>
      obtain rfl := row_of_delete granted
      refine ⟨committed, ?_, ?_, rfl, committed.symm⟩
      · simp [PoolState.recordGrant, Places.after, GeneratedOperation.action]
      · simp [PoolState.recordGrant, Places.after, GeneratedOperation.action]
  | clean =>
      have same : places.after edited .clean = places :=
        agrees.after_clean edited
      change Agrees _ _ _ (places.after edited .clean)
      rw [same]
      exact agrees

end Step

end Trace
end Marsh
