import Marsh.Exec.GitShell
import Marsh.Policy.GitProjection

/-!
# Reconciliation

At a restart the replayed history is reduced to the events that decide a row,
and each of them is kept only while the seed's own git state corroborates it.
What is kept never gives a resource an owner it did not have.
-/

namespace Marsh
namespace Shellmux

open Library Validator Exec Policy.Git

/-! ## Corroboration -/

/-- The row a retained claim asserts about its resource. -/
inductive ClaimRow
  | unstaged
  | staged
  deriving DecidableEq, Repr

/-- The row an action leaves its resource in, if that row is not clean. -/
def rowOf : Action -> Option ClaimRow
  | .edit | .unstage => some .unstaged
  | .stage | .delete => some .staged
  | .commit _ | .checkout | .stash => none
  | .read | .diff | .history | .clean => none

/-- A flag of a file's git status. -/
inductive StatusFlag
  | indexNew
  | indexModified
  | indexDeleted
  | indexRenamed
  | indexTypechange
  | wtNew
  | wtModified
  | wtDeleted
  | wtTypechange
  | wtRenamed
  | wtUnreadable
  | ignored
  | conflicted
  deriving DecidableEq, Repr

/-- A file's git status, as the flags it sets. -/
abbrev Status := List StatusFlag

/-- Whether a status sets one of the flags. -/
def Status.intersects (status flags : Status) : Bool :=
  status.any fun flag => flag ∈ flags

/-- Whether a status shows worktree content git has not been told about. -/
def worktreeDirty (status : Status) : Bool :=
  Status.intersects status [.wtNew, .wtModified, .wtDeleted, .wtTypechange,
    .wtRenamed, .wtUnreadable, .conflicted]

/-- Whether a status shows content in the index that HEAD does not have. -/
def staged (status : Status) : Bool :=
  Status.intersects status [.indexNew, .indexModified, .indexDeleted,
    .indexRenamed, .indexTypechange]

/-- Why a status could not be read. -/
inductive StatusError
  | notFound
  | other
  deriving DecidableEq, Repr

/-- What the seed answers while the event at an index is being checked. -/
structure SeedAnswers (Repository : Type) where
  /-- Where the seed is. -/
  seed : Path
  /-- Whether a directory has a `.git` entry. -/
  hasGit : Nat -> Path -> Bool
  openRepository : Nat -> Path -> Option Repository
  statusFile : Nat -> Repository -> Path -> Except StatusError Status

/-- The repositories opened so far, by their roots. -/
abbrev Repositories (Repository : Type) := List (Path × Option Repository)

section Answers

variable {Repository : Type}

/-- The repository at a root, opened if it has not been. -/
def openedAt
    (answers : SeedAnswers Repository)
    (index : Nat)
    (root : Path)
    (repositories : Repositories Repository) :
    Option Repository × Repositories Repository :=
  match repositories.lookup root with
  | some opened => (opened, repositories)
  | none =>
      let opened := answers.openRepository index root
      (opened, (root, opened) :: repositories)

/-- The path of a resource below the root. -/
def resourcePath (resource : Resource) : Path :=
  resource.segments.foldl
    (fun path segment => path.join (Path.ofText segment.toList)) []

/-- Whether a status shows the row a claim asserts. -/
def shows (row : ClaimRow) : Except StatusError Status -> Bool
  | .error .notFound => false
  | .error .other => true
  | .ok status =>
      match row with
      | .unstaged => worktreeDirty status
      | .staged => staged status && !worktreeDirty status

/-- Whether the seed still shows the state an event claims for its resource. -/
def corroborated
    (answers : SeedAnswers Repository)
    (index : Nat)
    (event : Event)
    (repositories : Repositories Repository) :
    Bool × Repositories Repository :=
  match rowOf event.action with
  | none => (false, repositories)
  | some row =>
      let absolute := answers.seed.join (resourcePath event.resource)
      match absolute.parent with
      | none => (false, repositories)
      | some parent =>
          match repoRoot (answers.hasGit index) answers.seed parent with
          | none => (false, repositories)
          | some root =>
              let (repository, repositories) :=
                openedAt answers index root repositories
              match repository, Path.stripPrefix root absolute with
              | none, _ => (true, repositories)
              | some _, none => (true, repositories)
              | some repository, some relative =>
                  (shows row (answers.statusFile index repository relative),
                    repositories)

/-! ## Reconciliation -/

/-- The indices whose events are corroborated, checked in order. -/
def retainedIndices
    (answers : SeedAnswers Repository)
    (history : List Event) :
    List Nat -> Repositories Repository -> List Nat
  | [], _ => []
  | index :: indices, repositories =>
      match history[index]? with
      | none => retainedIndices answers history indices repositories
      | some event =>
          let (kept, repositories) :=
            corroborated answers index event repositories
          if kept then
            index :: retainedIndices answers history indices repositories
          else retainedIndices answers history indices repositories

/-- One walk of the history, keeping each event whose index is next. -/
def keepNext : List (Event × Nat) -> List Nat -> List Event
  | [], _ => []
  | (event, index) :: events, next :: retained =>
      if next = index then event :: keepNext events retained
      else keepNext events (next :: retained)
  | _ :: events, [] => keepNext events []

/-- Drops from a history every event that is not a claim the seed still
corroborates. -/
def reconcile
    (answers : SeedAnswers Repository)
    (history : List Event) : List Event :=
  keepNext history.zipIdx (retainedIndices answers history
    (activeGitCapabilityIndices history) [])

/-! ## What is retained -/

/-- Only an event that leaves a row to protect is corroborated. -/
theorem rowOf_ne_none_of_corroborated
    {answers : SeedAnswers Repository}
    {index : Nat}
    {event : Event}
    {repositories : Repositories Repository}
    (kept : (corroborated answers index event repositories).1 = true) :
    rowOf event.action ≠ none := by
  intro clean
  rw [corroborated, clean] at kept
  exact Bool.false_ne_true kept

theorem retainedIndices_sublist
    (answers : SeedAnswers Repository)
    (history : List Event)
    (indices : List Nat)
    (repositories : Repositories Repository) :
    (retainedIndices answers history indices repositories).Sublist indices := by
  induction indices generalizing repositories with
  | nil => exact List.Sublist.refl []
  | cons index indices hypothesis =>
      rw [retainedIndices]
      split
      · exact (hypothesis repositories).cons index
      · split
        split_ifs
        · exact (hypothesis _).cons_cons index
        · exact (hypothesis _).cons index

/-- A retained index is that of an event that leaves a row to protect. -/
theorem rowOf_ne_none_of_mem_retainedIndices
    {answers : SeedAnswers Repository}
    {history : List Event}
    {indices : List Nat}
    {repositories : Repositories Repository}
    {index : Nat}
    {event : Event}
    (member : index ∈ retainedIndices answers history indices repositories)
    (found : history[index]? = some event) :
    rowOf event.action ≠ none := by
  induction indices generalizing repositories with
  | nil => simp [retainedIndices] at member
  | cons first indices hypothesis =>
      rw [retainedIndices] at member
      split at member
      · exact hypothesis member
      · next other firstFound =>
        cases checked : corroborated answers first other repositories with
        | mk kept opened =>
        rw [checked] at member
        dsimp only at member
        split_ifs at member with holds
        · obtain rfl | later := List.mem_cons.mp member
          · obtain rfl := Option.some.inj (found.symm.trans firstFound)
            exact rowOf_ne_none_of_corroborated (by rw [checked]; exact holds)
          · exact hypothesis later
        · exact hypothesis member

/-! ## The walk -/

@[simp] theorem keepNext_nil (events : List (Event × Nat)) :
    keepNext events [] = [] := by
  induction events with
  | nil => rfl
  | cons event events hypothesis => rw [keepNext, hypothesis]

/-- Everything kept is in the history, in its order. -/
theorem keepNext_sublist
    (events : List (Event × Nat))
    (retained : List Nat) :
    (keepNext events retained).Sublist (events.map Prod.fst) := by
  induction events generalizing retained with
  | nil => exact List.Sublist.refl []
  | cons entry events hypothesis =>
      obtain ⟨event, index⟩ := entry
      cases retained with
      | nil =>
          rw [keepNext_nil]
          exact List.nil_sublist _
      | cons next retained =>
          rw [keepNext, List.map_cons]
          split_ifs
          · exact (hypothesis retained).cons_cons event
          · exact (hypothesis (next :: retained)).cons event

/-- Increasing indices keep the events they name. -/
theorem keepNext_zipIdx
    (history : List Event)
    {start : Nat}
    {retained : List Nat}
    (increasing : retained.Pairwise (· < ·))
    (above : ∀ index ∈ retained, start ≤ index) :
    keepNext (history.zipIdx start) retained =
      retained.filterMap fun index => history[index - start]? := by
  induction history generalizing start retained with
  | nil => simp [keepNext]
  | cons event history hypothesis =>
      -- Past the first event an index names the same event of the rest.
      have shift : ∀ indices : List Nat, (∀ index ∈ indices, start < index) ->
          indices.filterMap (fun index => (event :: history)[index - start]?) =
            indices.filterMap fun index => history[index - (start + 1)]? := by
        intro indices later
        apply List.filterMap_congr
        intro index member
        have positive : index - start = index - (start + 1) + 1 := by
          have := later index member
          omega
        rw [positive, List.getElem?_cons_succ]
      cases retained with
      | nil => simp
      | cons next retained =>
          obtain ⟨nextFirst, restIncreasing⟩ := List.pairwise_cons.mp increasing
          rw [List.zipIdx_cons, keepNext]
          by_cases here : next = start
          · have later : ∀ index ∈ retained, start < index := fun index member =>
              here ▸ nextFirst index member
            rw [if_pos here, hypothesis restIncreasing later,
              List.filterMap_cons, here, Nat.sub_self, shift retained later]
            rfl
          · have later : ∀ index ∈ next :: retained, start < index := by
              intro index member
              have first : start < next := by
                have := above next List.mem_cons_self
                omega
              obtain rfl | member := List.mem_cons.mp member
              · exact first
              · exact first.trans (nextFirst index member)
            rw [if_neg here, hypothesis increasing later, shift _ later]

variable (answers : SeedAnswers Repository) (history : List Event)

/-- The indices reconciliation retains. -/
abbrev reconciledIndices : List Nat :=
  retainedIndices answers history (activeGitCapabilityIndices history) []

theorem pairwise_reconciledIndices :
    (reconciledIndices answers history).Pairwise (· < ·) :=
  (pairwise_activeGitCapabilityIndices history).sublist
    (retainedIndices_sublist answers history _ _)

/-- The result of reconciliation, event by event. -/
theorem reconcile_eq_filterMap :
    reconcile answers history =
      (reconciledIndices answers history).filterMap
        fun index => history[index]? :=
  keepNext_zipIdx history (pairwise_reconciledIndices answers history)
    fun index _ => Nat.zero_le index

theorem sublist_reconcile : (reconcile answers history).Sublist history := by
  have kept := keepNext_sublist history.zipIdx
    (reconciledIndices answers history)
  rwa [List.zipIdx_map_fst] at kept

variable {answers history}

/-- A reconciled event is an active one that leaves a row to protect. -/
theorem active_of_mem_reconciledIndices
    {index : Nat}
    {event : Event}
    (member : index ∈ reconciledIndices answers history)
    (found : history[index]? = some event) :
    index ∈ activeGitCapabilityIndices history ∧
      rowOf event.action ≠ none :=
  ⟨(retainedIndices_sublist answers history _ _).subset member,
    rowOf_ne_none_of_mem_retainedIndices member found⟩

/-- What leaves a row to protect changes the row of its resource. -/
theorem rowChange_of_rowOf
    {event : Event}
    (protects : rowOf event.action ≠ none) :
    (rowChange event.resource event).isSome := by
  rw [rowChange, if_pos rfl]
  cases action : event.action <;> simp_all [rowOf]

theorem action_ne_read_of_rowOf
    {event : Event}
    (protects : rowOf event.action ≠ none) : event.action ≠ .read := by
  intro read
  rw [read] at protects
  exact protects rfl

/-- A reconciled event that changes a resource's row leaves the row the whole
history leaves. -/
theorem rowChange_of_mem_reconcile
    {resource : Resource}
    {event : Event}
    (member : event ∈ reconcile answers history)
    (changes : rowChange resource event ≠ none) :
    rowChange resource event = some (stateOf resource history).row := by
  rw [reconcile_eq_filterMap, List.mem_filterMap] at member
  obtain ⟨index, kept, found⟩ := member
  obtain ⟨active, -⟩ := active_of_mem_reconciledIndices kept found
  obtain ⟨setter, again, sets⟩ := row_claimsFor
    (row_of_active active found changes)
  obtain rfl := Option.some.inj (found.symm.trans again)
  exact sets

/-- A resource keeps its row or becomes clean. -/
theorem row_reconcile (resource : Resource) :
    (stateOf resource (reconcile answers history)).row =
        (stateOf resource history).row ∨
      (stateOf resource (reconcile answers history)).row = .clean := by
  rw [row_stateOf resource (reconcile answers history)]
  by_cases silent : ∀ event ∈ reconcile answers history,
      rowChange resource event = none
  · right
    rw [(lastChange_eq_none_iff _ _).mpr silent]
    rfl
  · left
    obtain ⟨event, member, changes⟩ := by simpa using silent
    rw [lastChange_eq_some_of_unique (rowChange resource)
      ⟨event, member, rowChange_of_mem_reconcile member changes⟩
      fun other otherMember => ?_]
    · rfl
    · exact or_iff_not_imp_left.mpr (rowChange_of_mem_reconcile otherMember)

theorem action_ne_read_of_mem_reconcile
    {event : Event}
    (member : event ∈ reconcile answers history) : event.action ≠ .read := by
  rw [reconcile_eq_filterMap, List.mem_filterMap] at member
  obtain ⟨index, kept, found⟩ := member
  exact action_ne_read_of_rowOf (active_of_mem_reconciledIndices kept found).2

/-- Nobody has read a resource after reconciliation. -/
theorem claim_reconcile (resource : Resource) :
    (stateOf resource (reconcile answers history)).claim = none := by
  rw [claim_stateOf, lastChange_eq_none_iff]
  intro event member
  exact if_neg fun reads => action_ne_read_of_mem_reconcile member reads.2

/-- No resource keeps two events. -/
theorem pairwise_reconcile :
    (reconcile answers history).Pairwise
      fun left right => left.resource ≠ right.resource := by
  rw [reconcile_eq_filterMap, List.pairwise_filterMap]
  refine (pairwise_reconciledIndices answers history).imp_of_mem ?_
  intro left right leftKept rightKept before event found other otherFound same
  obtain ⟨leftActive, protects⟩ := active_of_mem_reconciledIndices leftKept found
  obtain ⟨rightActive, otherProtects⟩ :=
    active_of_mem_reconciledIndices rightKept otherFound
  refine absurd (eq_of_sameClaim leftActive rightActive found otherFound
    ⟨same, .inl ⟨rowChange_of_rowOf protects,
      rowChange_of_rowOf otherProtects⟩⟩) before.ne

end Answers

section Order

variable [LinearOrder TestNode] [LinearOrder Regex] [LinearOrder TransitionNode]

/-- Whatever the seed answers, reconciliation returns events of the history in
its order, one of each resource at most and no reads; a resource's row is the
one the history leaves or clean, so that an owner is the one it had, and the
policy decides every candidate from such a row with no read claim standing. -/
theorem reconcile_grants_nothing
    {Repository : Type}
    (answers : SeedAnswers Repository)
    (history : List Event) :
    (reconcile answers history).Sublist history ∧
      (reconcile answers history).Pairwise
        (fun left right => left.resource ≠ right.resource) ∧
      (∀ event ∈ reconcile answers history, event.action ≠ .read) ∧
      (∀ resource,
        (stateOf resource (reconcile answers history)).row =
            (stateOf resource history).row ∨
          (stateOf resource (reconcile answers history)).row = .clean) ∧
      (∀ resource owner,
        (stateOf resource (reconcile answers history)).row = .unstaged owner ->
          (stateOf resource history).row = .unstaged owner) ∧
      ∀ candidate, ∃ row,
        (row = (stateOf candidate.resource history).row ∨ row = .clean) ∧
          gitDecision (reconcile answers history) candidate =
            some (ResourceState.decide { row := row, claim := none }
              candidate) := by
  refine ⟨sublist_reconcile answers history, pairwise_reconcile,
    fun event => action_ne_read_of_mem_reconcile, row_reconcile, ?_, ?_⟩
  · intro resource owner owned
    obtain same | clean := @row_reconcile _ answers history resource
    · exact same.symm.trans owned
    · rw [clean] at owned
      contradiction
  · intro candidate
    refine ⟨(stateOf candidate.resource (reconcile answers history)).row,
      row_reconcile candidate.resource, ?_⟩
    rw [gitDecision_eq]
    have state : stateOf candidate.resource (reconcile answers history) =
        { row := (stateOf candidate.resource (reconcile answers history)).row,
          claim := none } :=
      ResourceState.ext rfl (claim_reconcile candidate.resource)
    rw [← state]

end Order
end Shellmux
end Marsh
