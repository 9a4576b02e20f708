import Std.Data.HashMap.Lemmas
import Mathlib.Data.List.Nodup
import Mathlib.Data.List.ReduceOption
import Marsh.Policy.GitCorrectness

/-!
# Active capabilities

Of a history's granted events, each resource keeps at most two that are still
active: the last one that defines its row, if it was not settled, and the last
one that claims a read.  Every decision against these alone is the one against
the whole history.
-/

namespace Marsh
namespace Policy
namespace Git

open Library Validator

/-! ## The active capabilities of a history -/

instance : Hashable Resource where
  hash resource := hash resource.segments

/-- The claims of every resource a history touches. -/
def claimTable (history : List Event) : Std.HashMap Resource Claims :=
  history.zipIdx.foldl
    (fun claims (event, index) =>
      claims.insert event.resource
        ((claims.getD event.resource { row := none, read := none }).apply
          event.action index))
    ∅

/-- Indices of the events of a history that are still active. -/
def activeGitCapabilityIndices (history : List Event) : List Nat :=
  let indices := (claimTable history).toList.flatMap fun (_, claims) =>
    [claims.row, claims.read].reduceOption
  indices.mergeSort fun left right => left ≤ right

/-- The events of a history that are still active, in order. -/
def activeEvents (history : List Event) : List Event :=
  (activeGitCapabilityIndices history).filterMap fun index => history[index]?

/-! ## The table of claims -/

theorem claimTable_append_singleton (history : List Event) (event : Event) :
    claimTable (history ++ [event]) =
      (claimTable history).insert event.resource
        (((claimTable history).getD event.resource
          { row := none, read := none }).apply event.action history.length) := by
  rw [claimTable, List.zipIdx_append, List.foldl_append, ← claimTable]
  simp

/-- The table holds the claims of each resource. -/
theorem getD_claimTable (history : List Event) (resource : Resource) :
    (claimTable history).getD resource { row := none, read := none } =
      claimsFor history resource := by
  induction history using List.reverseRecOn generalizing resource with
  | nil => simp [claimTable, claimsFor]
  | append_singleton history event hypothesis =>
      rw [claimTable_append_singleton, Std.HashMap.getD_insert,
        claimsFor_append_singleton, hypothesis, hypothesis]
      by_cases same : event.resource = resource
      · simp [same]
      · simp [same]

theorem mem_toList_claimTable
    {history : List Event}
    {resource : Resource}
    {claims : Claims}
    (member : (resource, claims) ∈ (claimTable history).toList) :
    claims = claimsFor history resource := by
  rw [← getD_claimTable, Std.HashMap.getD_eq_getD_getElem?,
    Std.HashMap.mem_toList_iff_getElem?_eq_some.mp member, Option.getD_some]

/-- A resource with an active event is in the table. -/
theorem claimsFor_mem_toList
    {history : List Event}
    {resource : Resource}
    (active : claimsFor history resource ≠ { row := none, read := none }) :
    (resource, claimsFor history resource) ∈ (claimTable history).toList := by
  rw [← getD_claimTable, Std.HashMap.getD_eq_getD_getElem?] at active ⊢
  rw [Std.HashMap.mem_toList_iff_getElem?_eq_some]
  cases found : (claimTable history)[resource]? with
  | none =>
      rw [found] at active
      exact absurd rfl active
  | some claims => rfl

theorem mem_activeGitCapabilityIndices
    {history : List Event}
    {index : Nat} :
    index ∈ activeGitCapabilityIndices history ↔
      ∃ resource, (claimsFor history resource).row = some index ∨
        (claimsFor history resource).read = some index := by
  rw [activeGitCapabilityIndices, List.mem_mergeSort, List.mem_flatMap]
  constructor
  · rintro ⟨⟨resource, claims⟩, member, active⟩
    refine ⟨resource, ?_⟩
    rw [← mem_toList_claimTable member]
    simpa [List.reduceOption_mem_iff, eq_comm] using active
  · rintro ⟨resource, active⟩
    refine ⟨(resource, claimsFor history resource), claimsFor_mem_toList ?_, ?_⟩
    · intro none
      simp [none] at active
    · simpa [List.reduceOption_mem_iff, eq_comm] using active

/-! ## Active events -/

/-- An active row index points at the event that set the row. -/
theorem row_claimsFor
    {history : List Event}
    {resource : Resource}
    {index : Nat}
    (active : (claimsFor history resource).row = some index) :
    ∃ event, history[index]? = some event ∧
      rowChange resource event = some (stateOf resource history).row :=
  (tracks_claimsFor history resource).defined index active

/-- An active read index points at the read that took the claim. -/
theorem read_claimsFor
    {history : List Event}
    {resource : Resource}
    {index : Nat}
    (active : (claimsFor history resource).read = some index) :
    ∃ event, history[index]? = some event ∧
      claimChange resource event = (stateOf resource history).claim ∧
      (stateOf resource history).claim.isSome := by
  induction history using List.reverseRecOn with
  | nil => simp [claimsFor] at active
  | append_singleton history event hypothesis =>
      rw [claimsFor_append_singleton] at active
      rw [stateOf_append_singleton, claim_advance]
      by_cases reads : event.resource = resource ∧ event.action = .read
      · have last : index = history.length := by
          rw [if_pos reads.1, reads.2] at active
          exact (Option.some.inj active).symm
        refine ⟨event, by simp [last], ?_⟩
        simp [claimChange, reads]
      · have silent : claimChange resource event = none := if_neg reads
        have before : (claimsFor history resource).read = some index := by
          split_ifs at active with same
          · cases action : event.action <;> rw [action] at active <;>
              first | exact active | exact absurd ⟨same, action⟩ reads
          · exact active
        rw [silent, Option.none_or]
        exact exists_getElem?_append event (hypothesis before)

theorem resource_of_rowChange
    {resource : Resource}
    {event : Event}
    (changes : rowChange resource event ≠ none) :
    event.resource = resource ∧ event.action ≠ .read := by
  rw [rowChange] at changes
  split_ifs at changes with same
  · refine ⟨same, fun read => ?_⟩
    rw [read] at changes
    contradiction
  · contradiction

theorem resource_of_claimChange
    {resource : Resource}
    {event : Event}
    (changes : claimChange resource event ≠ none) :
    event.resource = resource ∧ event.action = .read := by
  by_contra other
  exact changes (if_neg other)

/-- An active event that changes a resource's row is the one that set it. -/
theorem row_of_active
    {history : List Event}
    {resource : Resource}
    {index : Nat}
    {event : Event}
    (active : index ∈ activeGitCapabilityIndices history)
    (found : history[index]? = some event)
    (changes : rowChange resource event ≠ none) :
    (claimsFor history resource).row = some index := by
  obtain ⟨same, notRead⟩ := resource_of_rowChange changes
  obtain ⟨other, row | read⟩ := mem_activeGitCapabilityIndices.mp active
  · obtain ⟨setter, setterFound, sets⟩ := row_claimsFor row
    obtain rfl := Option.some.inj (found.symm.trans setterFound)
    obtain ⟨rfl, -⟩ := resource_of_rowChange (by rw [sets]; simp)
    rwa [← same]
  · obtain ⟨reader, readerFound, takes, some⟩ := read_claimsFor read
    obtain rfl := Option.some.inj (found.symm.trans readerFound)
    obtain ⟨-, isRead⟩ := @resource_of_claimChange other event (by
      rw [takes]
      exact Option.isSome_iff_ne_none.mp some)
    exact absurd isRead notRead

/-- An active event that takes a resource's claim is the one that took it. -/
theorem read_of_active
    {history : List Event}
    {resource : Resource}
    {index : Nat}
    {event : Event}
    (active : index ∈ activeGitCapabilityIndices history)
    (found : history[index]? = some event)
    (takes : claimChange resource event ≠ none) :
    (claimsFor history resource).read = some index := by
  obtain ⟨same, isRead⟩ := resource_of_claimChange takes
  obtain ⟨other, row | read⟩ := mem_activeGitCapabilityIndices.mp active
  · obtain ⟨setter, setterFound, sets⟩ := row_claimsFor row
    obtain rfl := Option.some.inj (found.symm.trans setterFound)
    exact absurd isRead (resource_of_rowChange (by rw [sets]; simp)).2
  · obtain ⟨reader, readerFound, claims, some⟩ := read_claimsFor read
    obtain rfl := Option.some.inj (found.symm.trans readerFound)
    obtain ⟨rfl, -⟩ := @resource_of_claimChange other event (by
      rw [claims]
      exact Option.isSome_iff_ne_none.mp some)
    rwa [← same]

theorem mem_activeEvents {history : List Event} {event : Event} :
    event ∈ activeEvents history ↔
      ∃ index ∈ activeGitCapabilityIndices history,
        history[index]? = some event := by
  rw [activeEvents, List.mem_filterMap]

/-- The active events leave every resource as the history does. -/
theorem stateOf_activeEvents
    (history : List Event)
    (resource : Resource) :
    stateOf resource (activeEvents history) = stateOf resource history := by
  have tracks := tracks_claimsFor history resource
  have row : (stateOf resource (activeEvents history)).row =
      (stateOf resource history).row := by
    rw [row_stateOf resource (activeEvents history)]
    cases active : (claimsFor history resource).row with
    | none =>
        rw [tracks.settled active, (lastChange_eq_none_iff _ _).mpr, Option.getD_none]
        intro event member
        obtain ⟨index, indexActive, found⟩ := mem_activeEvents.mp member
        by_contra changes
        rw [row_of_active indexActive found changes] at active
        contradiction
    | some index =>
        obtain ⟨setter, found, sets⟩ := row_claimsFor active
        rw [@lastChange_eq_some_of_unique _ _ _ _ (stateOf resource history).row,
          Option.getD_some]
        · exact ⟨setter, mem_activeEvents.mpr ⟨index,
            mem_activeGitCapabilityIndices.mpr ⟨resource, .inl active⟩, found⟩, sets⟩
        · intro event member
          obtain ⟨other, otherActive, otherFound⟩ := mem_activeEvents.mp member
          refine or_iff_not_imp_left.mpr fun changes => ?_
          have same := row_of_active otherActive otherFound changes
          rw [active] at same
          obtain rfl := Option.some.inj same
          obtain rfl := Option.some.inj (found.symm.trans otherFound)
          exact sets
  have claim : (stateOf resource (activeEvents history)).claim =
      (stateOf resource history).claim := by
    rw [claim_stateOf resource (activeEvents history)]
    cases active : (claimsFor history resource).read with
    | none =>
        rw [tracks.unread active, (lastChange_eq_none_iff _ _).mpr]
        intro event member
        obtain ⟨index, indexActive, found⟩ := mem_activeEvents.mp member
        by_contra takes
        rw [read_of_active indexActive found takes] at active
        contradiction
    | some index =>
        obtain ⟨reader, found, takes, some⟩ := read_claimsFor active
        obtain ⟨principal, claimed⟩ := Option.isSome_iff_exists.mp some
        rw [claimed] at takes ⊢
        refine lastChange_eq_some_of_unique _ ⟨reader, mem_activeEvents.mpr
          ⟨index, mem_activeGitCapabilityIndices.mpr ⟨resource, .inr active⟩,
            found⟩, takes⟩ fun event member => ?_
        obtain ⟨other, otherActive, otherFound⟩ := mem_activeEvents.mp member
        refine or_iff_not_imp_left.mpr fun other_takes => ?_
        have same := read_of_active otherActive otherFound other_takes
        rw [active] at same
        obtain rfl := Option.some.inj same
        obtain rfl := Option.some.inj (found.symm.trans otherFound)
        exact takes
  exact ResourceState.ext row claim

/-! ## Active indices -/

/-- No event is active twice. -/
theorem nodup_activeGitCapabilityIndices (history : List Event) :
    (activeGitCapabilityIndices history).Nodup := by
  have own : ∀ {resource : Resource} {claims : Claims} {index : Nat},
      (resource, claims) ∈ (claimTable history).toList ->
      index ∈ [claims.row, claims.read].reduceOption ->
      ∃ event, history[index]? = some event ∧ event.resource = resource := by
    intro resource claims index member active
    obtain rfl := mem_toList_claimTable member
    have cases : (claimsFor history resource).row = some index ∨
        (claimsFor history resource).read = some index := by
      simpa [List.reduceOption_mem_iff, eq_comm] using active
    rcases cases with row | read
    · obtain ⟨event, found, sets⟩ := row_claimsFor row
      exact ⟨event, found, (resource_of_rowChange (by rw [sets]; simp)).1⟩
    · obtain ⟨event, found, takes, some⟩ := read_claimsFor read
      refine ⟨event, found, (@resource_of_claimChange resource event ?_).1⟩
      rw [takes]
      exact Option.isSome_iff_ne_none.mp some
  rw [activeGitCapabilityIndices, (List.mergeSort_perm _ _).nodup_iff,
    List.nodup_flatMap]
  constructor
  · rintro ⟨resource, claims⟩ member
    obtain rfl := mem_toList_claimTable member
    cases row : (claimsFor history resource).row with
    | none => cases read : (claimsFor history resource).read <;> simp [row, read]
    | some index =>
        cases read : (claimsFor history resource).read with
        | none => simp [row, read]
        | some other =>
            have apart : index ≠ other := by
              rintro rfl
              obtain ⟨event, found, sets⟩ := row_claimsFor row
              obtain ⟨reader, again, takes, some⟩ := read_claimsFor read
              obtain rfl := Option.some.inj (found.symm.trans again)
              exact (resource_of_rowChange (by rw [sets]; simp)).2
                (@resource_of_claimChange resource event (by
                  rw [takes]
                  exact Option.isSome_iff_ne_none.mp some)).2
            simpa [row, read] using apart
  · refine (Std.HashMap.distinct_keys_toList).imp_of_mem ?_
    rintro ⟨left, leftClaims⟩ ⟨right, rightClaims⟩ leftMember rightMember apart
    intro index leftActive rightActive
    obtain ⟨event, found, rfl⟩ := own leftMember leftActive
    obtain ⟨other, again, same⟩ := own rightMember rightActive
    obtain rfl := Option.some.inj (found.symm.trans again)
    simp [same] at apart

/-- The indices are strictly increasing. -/
theorem pairwise_activeGitCapabilityIndices (history : List Event) :
    (activeGitCapabilityIndices history).Pairwise (· < ·) := by
  have sorted : (activeGitCapabilityIndices history).Pairwise (· ≤ ·) := by
    refine (List.pairwise_mergeSort ?_ ?_ _).imp of_decide_eq_true
    · intro left middle right first second
      exact decide_eq_true
        ((of_decide_eq_true first).trans (of_decide_eq_true second))
    · intro left right
      simpa using Nat.le_total left right
  exact (sorted.and (nodup_activeGitCapabilityIndices history)).imp
    fun ⟨le, ne⟩ => Nat.lt_of_le_of_ne le ne

/-- Two events that set the row of one resource, or that read it. -/
def SameClaim (left right : Event) : Prop :=
  left.resource = right.resource ∧
    ((rowChange left.resource left).isSome ∧
        (rowChange right.resource right).isSome ∨
      left.action = .read ∧ right.action = .read)

/-- A resource has one active event that sets its row and one that reads it, at
most. -/
theorem eq_of_sameClaim
    {history : List Event}
    {left right : Nat}
    {event other : Event}
    (leftActive : left ∈ activeGitCapabilityIndices history)
    (rightActive : right ∈ activeGitCapabilityIndices history)
    (leftFound : history[left]? = some event)
    (rightFound : history[right]? = some other)
    (same : SameClaim event other) : left = right := by
  obtain ⟨resource, ⟨sets, otherSets⟩ | ⟨reads, otherReads⟩⟩ := same
  · have first := row_of_active leftActive leftFound
      (Option.isSome_iff_ne_none.mp sets)
    have second := row_of_active rightActive rightFound
      (Option.isSome_iff_ne_none.mp otherSets)
    rw [resource, second] at first
    exact (Option.some.inj first).symm
  · have first := @read_of_active _ event.resource _ _ leftActive leftFound
      (by simp [claimChange, reads])
    have second := @read_of_active _ other.resource _ _ rightActive rightFound
      (by simp [claimChange, otherReads])
    rw [resource, second] at first
    exact (Option.some.inj first).symm

/-! ## Decisions -/

section Order

variable [LinearOrder TestNode] [LinearOrder Regex] [LinearOrder TransitionNode]

/-- Deciding any candidates against the active events of their histories only
gives the decisions, and the texts a denial renders from, of the whole
histories; the active events keep their order, and each resource has one that
sets its row and one that reads it, at most. -/
theorem GitPolicy.decide_activeEvents :
    (∃ policy, GitPolicy.new = some policy ∧
      ∀ requests : List (List Event × Event),
        (policy.decideAll requests).isSome ∧
          policy.decideAll (requests.map fun (history, candidate) =>
            (activeEvents history, candidate)) = policy.decideAll requests) ∧
      ∀ history : List Event,
        (∀ candidate, gitContext (activeEvents history) candidate =
          gitContext history candidate) ∧
        (activeGitCapabilityIndices history).Pairwise (· < ·) ∧
        ∀ left ∈ activeGitCapabilityIndices history,
          ∀ right ∈ activeGitCapabilityIndices history,
            ∀ event other, history[left]? = some event ->
              history[right]? = some other -> SameClaim event other ->
                left = right := by
  constructor
  · obtain ⟨policy, policyEq, implements⟩ := GitPolicy.returns_new
    refine ⟨policy, policyEq, fun requests => ?_⟩
    rw [implements.decideAll_eq, implements.decideAll_eq, List.map_map]
    refine ⟨rfl, congrArg some (List.map_congr_left ?_)⟩
    rintro ⟨history, candidate⟩ -
    simp only [Function.comp_apply, stateOf_activeEvents]
  · intro history
    refine ⟨fun candidate => ?_, pairwise_activeGitCapabilityIndices history, ?_⟩
    · rw [gitContext_eq, gitContext_eq, stateOf_activeEvents]
    · intro left leftActive right rightActive event other leftFound rightFound
      exact eq_of_sameClaim leftActive rightActive leftFound rightFound

end Order

end Git
end Policy
end Marsh
