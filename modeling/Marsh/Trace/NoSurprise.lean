import Marsh.Policy.GitCorrectness
import Marsh.Trace.Oracle

/-!
# Granted histories never surprise

A principal remembers a resource only while it holds the read claim on it, or
holds it unstaged with nobody claiming it.  The policy denies every other
principal the actions that would change the content then.
-/

namespace Marsh
namespace Trace

open Library Validator Policy Policy.Git

/-! ## Views -/

instance : Std.TransCmp viewOrder := by
  unfold viewOrder
  infer_instance

theorem viewOrder_eq_iff {left right : Principal × Resource} :
    viewOrder left right = .eq ↔ left = right := by
  obtain ⟨⟨leftPrincipal⟩, ⟨leftResource⟩⟩ := left
  obtain ⟨⟨rightPrincipal⟩, ⟨rightResource⟩⟩ := right
  simp [viewOrder, compareLex_eq_eq, compareOn]

instance : Std.LawfulEqCmp viewOrder where
  eq_of_compare := viewOrder_eq_iff.mp

namespace Replay

/-- The principal remembers something of the resource. -/
def Remembers
    (replay : Replay)
    (principal : Principal)
    (resource : Resource) : Prop :=
  (principal, resource) ∈ replay.views

/-- Whoever remembers a resource after an event has just read or edited it, or
remembered it before: the event was elsewhere, or another principal's and not a
read, or one of the principal's own that neither teaches nor settles. -/
theorem remembers_step
    {replay : Replay}
    {index : Nat}
    {event : Event}
    {principal : Principal}
    {resource : Resource}
    (remembers : (replay.step index event).Remembers principal resource) :
    (event.principal = principal ∧ event.resource = resource ∧
        (event.action = .read ∨ event.action = .edit)) ∨
      (replay.Remembers principal resource ∧
        (event.resource = resource -> event.action ≠ .read ∧
          (event.principal = principal -> event.action = .unstage ∨
            event.action = .diff ∨ event.action = .history ∨
            event.action = .clean))) := by
  obtain ⟨actor, action, touched⟩ := event
  change (principal, resource) ∈ replay.viewsAfter index _ _ at remembers
  unfold viewsAfter at remembers
  cases action
  case read =>
    rcases Std.TreeMap.mem_insert.mp remembers with learned | kept
    · obtain ⟨rfl, rfl⟩ := Prod.mk.inj (viewOrder_eq_iff.mp learned)
      exact .inl ⟨rfl, rfl, .inl rfl⟩
    · obtain ⟨kept, elsewhere⟩ := Std.TreeMap.mem_filter.mp kept
      rw [Std.TreeMap.getKey_eq, decide_eq_true_eq] at elsewhere
      exact .inr ⟨kept, fun same => absurd same.symm elsewhere⟩
  case edit =>
    rcases Std.TreeMap.mem_insert.mp remembers with learned | kept
    · obtain ⟨rfl, rfl⟩ := Prod.mk.inj (viewOrder_eq_iff.mp learned)
      exact .inl ⟨rfl, rfl, .inr rfl⟩
    · by_cases own : actor = principal ∧ touched = resource
      · exact .inl ⟨own.1, own.2, .inr rfl⟩
      · exact .inr ⟨kept, fun same =>
          ⟨nofun, fun mine => absurd ⟨mine, same⟩ own⟩⟩
  case stage | delete | commit | checkout | stash =>
    obtain ⟨different, kept⟩ := Std.TreeMap.mem_erase.mp remembers
    refine .inr ⟨kept, fun same => ⟨nofun, fun mine => ?_⟩⟩
    exact absurd (viewOrder_eq_iff.mpr (Prod.ext mine same)) different
  case unstage | diff | history | clean =>
    exact .inr ⟨remembers, fun _ => ⟨nofun, fun _ => by simp⟩⟩

/-- Somebody is surprised exactly if another principal holds a view equal to
the content before the event. -/
theorem surprised_eq_none_iff
    {replay : Replay}
    {event : Event}
    {before : FileState} :
    replay.surprised event before = none ↔
      ¬ ∃ principal learnedAt, principal ≠ event.principal ∧
        replay.views[(principal, event.resource)]? =
          some (before.worktree, learnedAt) := by
  rw [surprised, List.find?_eq_none]
  constructor
  · rintro unsurprised ⟨principal, learnedAt, other, view⟩
    have held := Std.TreeMap.mem_toList_iff_getElem?_eq_some.mpr view
    apply unsurprised _ held
    simp [other]
  · rintro unheld ⟨⟨principal, resource⟩, remembered, learnedAt⟩ held holds
    simp only [Bool.and_eq_true, decide_eq_true_eq] at holds
    obtain ⟨⟨rfl, other⟩, rfl⟩ := holds
    have view := Std.TreeMap.mem_toList_iff_getElem?_eq_some.mp held
    exact unheld ⟨principal, learnedAt, other, view⟩

end Replay

/-- The actions that can change content. -/
theorem FileState.action_of_apply_ne
    {state : FileState}
    {action : Action}
    {index : Nat}
    (changed : (state.apply action index).worktree ≠ state.worktree) :
    action = .edit ∨ action = .delete ∨ action = .checkout ∨
      action = .stash := by
  cases action <;> simp [FileState.apply] at changed ⊢

/-! ## Shields -/

/-- The principal holds the read claim, or holds the resource unstaged while
nobody claims it. -/
def Shields (state : ResourceState) (principal : Principal) : Prop :=
  state.claim = some principal ∨
    (state.claim = none ∧ state.row = .unstaged principal)

/-- A granted action meets no forbidden cell. -/
theorem allowed_of_grant
    {state : ResourceState}
    {event : Event}
    (granted : state.decide event = .grant) :
    rowCell event.action (state.row.view event.principal) = none ∧
      (state.ClaimedByOther event.principal ->
        claimCell event.action = none) := by
  rw [ResourceState.decide] at granted
  cases cell : state.forbiddenCell event.principal event.action with
  | some denial => simp [cell] at granted
  | none =>
      rw [ResourceState.forbiddenCell, Option.or_eq_none_iff] at cell
      exact ⟨cell.1, fun claimed => by simpa [claimed] using cell.2⟩

/-- A shield denies every other principal the actions that change content. -/
theorem Shields.not_changes
    {state : ResourceState}
    {principal : Principal}
    {event : Event}
    (shields : Shields state principal)
    (other : principal ≠ event.principal)
    (granted : state.decide event = .grant) :
    ¬ (event.action = .edit ∨ event.action = .delete ∨
      event.action = .checkout ∨ event.action = .stash) := by
  obtain ⟨row, claim⟩ := allowed_of_grant granted
  rcases shields with claimed | ⟨-, unstaged⟩
  · have byOther : state.ClaimedByOther event.principal :=
      ⟨principal, claimed, other⟩
    intro changes
    rcases changes with action | action | action | action <;>
      simp [action, claimCell] at claim <;> exact claim byOther
  · have view : state.row.view event.principal = .unstagedOther := by
      simpa [unstaged] using other
    intro changes
    rcases changes with action | action | action | action <;>
      simp [action, view, rowCell] at row

/-- Reading or editing a resource shields it for the actor. -/
theorem shields_of_learns
    {state : ResourceState}
    {event : Event}
    (granted : state.decide event = .grant)
    (learns : event.action = .read ∨ event.action = .edit) :
    Shields (state.step event.principal event.action) event.principal := by
  rcases learns with action | action
  · exact .inl (by simp [ResourceState.step, action])
  · obtain ⟨-, claim⟩ := allowed_of_grant granted
    have own : ¬ state.ClaimedByOther event.principal := by
      intro claimed
      simpa [action, claimCell] using claim claimed
    cases holder : state.claim with
    | none =>
        exact .inr ⟨by simp [ResourceState.step, action, holder],
          by rw [ResourceState.step, action]; rfl⟩
    | some reader =>
        have same : reader = event.principal := by
          by_contra different
          exact own ⟨reader, holder, different⟩
        exact .inl (by simp [ResourceState.step, action, holder, same])

/-- A shield stays until somebody reads or its holder settles the resource. -/
theorem Shields.step
    {state : ResourceState}
    {principal : Principal}
    {event : Event}
    (shields : Shields state principal)
    (granted : state.decide event = .grant)
    (unread : event.action ≠ .read)
    (unsettled : event.principal = principal -> event.action = .unstage ∨
      event.action = .diff ∨ event.action = .history ∨
      event.action = .clean) :
    Shields (state.step event.principal event.action) principal := by
  have claimKept : (state.step event.principal event.action).claim =
      state.claim := if_neg unread
  rcases shields with claimed | ⟨unclaimed, unstaged⟩
  · exact .inl (claimKept.trans claimed)
  · refine .inr ⟨claimKept.trans unclaimed, ?_⟩
    obtain ⟨row, -⟩ := allowed_of_grant granted
    rw [ResourceState.step, unstaged]
    by_cases own : event.principal = principal
    · have view : state.row.view event.principal = .unstagedSelf := by
        simp [unstaged, own]
      rcases unsettled own with action | action | action | action <;>
        simp [action, view, rowCell, Row.next] at row ⊢
    · have view : state.row.view event.principal = .unstagedOther := by
        simpa [unstaged] using Ne.symm own
      rw [view] at row
      cases action : event.action <;>
        simp [action, rowCell, Row.next] at row unread ⊢

/-! ## Surprises by index -/

/-- The event at an index changes the content of its resource although another
principal holds a view equal to the content just before it. -/
def SurprisesAt (history : List Event) (index : Nat) (event : Event) : Prop :=
  let earlier := replay (history.take index)
  let before := earlier.fileState event.resource
  (before.apply event.action index).worktree ≠ before.worktree ∧
    ∃ principal learnedAt, principal ≠ event.principal ∧
      earlier.views[(principal, event.resource)]? =
        some (before.worktree, learnedAt)

theorem replay_append_singleton
    (history : List Event)
    (event : Event) :
    replay (history ++ [event]) =
      (replay history).step history.length event := by
  rw [replay, List.zipIdx_append, List.foldl_append, ← replay]
  simp

theorem surprisesAt_append_iff
    {history later : List Event}
    {index : Nat}
    {event : Event}
    (bound : index ≤ history.length) :
    SurprisesAt (history ++ later) index event ↔
      SurprisesAt history index event := by
  rw [SurprisesAt, SurprisesAt, List.take_append_of_le_length bound]

/-- One more event is the first surprise exactly if none came before it and it
surprises somebody. -/
theorem noSurpriseViolation_append_singleton
    {history : List Event}
    {event : Event} :
    noSurpriseViolation (history ++ [event]) = none ↔
      noSurpriseViolation history = none ∧
        ¬ SurprisesAt history history.length event := by
  rw [noSurpriseViolation, noSurpriseViolation, replay_append_singleton,
    SurprisesAt, List.take_length]
  cases first : (replay history).first with
  | some surprise => simp [Replay.step, first]
  | none =>
      simp only [Replay.step, first, Option.isNone_none, and_true, true_and,
        not_and, ← Replay.surprised_eq_none_iff]
      split_ifs with changed
      · simp [changed]
      · simp [changed]

/-- The oracle reports nothing exactly if no event of the history surprises
anybody. -/
theorem noSurpriseViolation_eq_none_iff
    {history : List Event} :
    noSurpriseViolation history = none ↔
      ∀ index event, history[index]? = some event ->
        ¬ SurprisesAt history index event := by
  induction history using List.reverseRecOn with
  | nil => exact ⟨fun _ index event found => by simp at found, fun _ => rfl⟩
  | append_singleton history event hypothesis =>
      rw [noSurpriseViolation_append_singleton, hypothesis]
      constructor
      · rintro ⟨unsurprised, last⟩ index found place
        rcases Nat.lt_trichotomy index history.length with
          before | rfl | beyond
        · rw [List.getElem?_append_left before] at place
          rw [surprisesAt_append_iff before.le]
          exact unsurprised index found place
        · rw [List.getElem?_concat_length] at place
          cases place
          rwa [surprisesAt_append_iff le_rfl]
        · have short : (history ++ [event]).length ≤ index := by
            rw [List.length_append, List.length_singleton]
            exact beyond
          rw [List.getElem?_eq_none short] at place
          cases place
      · intro unsurprised
        constructor
        · intro index earlier found
          obtain ⟨bound, -⟩ := List.getElem?_eq_some_iff.mp found
          rw [← @surprisesAt_append_iff _ [event] _ _ bound.le]
          exact unsurprised index earlier
            (by rw [List.getElem?_append_left bound, found])
        · rw [← @surprisesAt_append_iff _ [event] _ _ le_rfl]
          exact unsurprised history.length event (by simp)

/-! ## Runs -/

/-- What a granted history leaves: no surprise yet, and a shield for everybody
who remembers something. -/
structure Calm (history : List Event) : Prop where
  unsurprised : noSurpriseViolation history = none
  shielded : ∀ principal resource,
    (replay history).Remembers principal resource ->
      Shields (stateOf resource history) principal

theorem calm_nil : Calm [] :=
  ⟨rfl, fun _ _ remembers => absurd remembers Std.TreeMap.not_mem_emptyc⟩

/-- A granted change of content falsifies nobody's view. -/
theorem Calm.not_surprisesAt
    {history : List Event}
    {event : Event}
    (calm : Calm history)
    (granted : (stateOf event.resource history).decide event = .grant) :
    ¬ SurprisesAt history history.length event := by
  rintro ⟨changed, principal, learnedAt, other, view⟩
  rw [List.take_length] at view
  have remembers : (replay history).Remembers principal event.resource :=
    Std.TreeMap.mem_iff_isSome_getElem?.mpr (by rw [view]; rfl)
  exact (calm.shielded _ _ remembers).not_changes other granted
    (FileState.action_of_apply_ne changed)

theorem Calm.append
    {history : List Event}
    {event : Event}
    (calm : Calm history)
    (granted : (stateOf event.resource history).decide event = .grant) :
    Calm (history ++ [event]) := by
  constructor
  · exact noSurpriseViolation_append_singleton.mpr
      ⟨calm.unsurprised, calm.not_surprisesAt granted⟩
  · intro principal resource remembers
    rw [replay_append_singleton] at remembers
    rw [stateOf_append_singleton, advance]
    rcases Replay.remembers_step remembers with
      ⟨rfl, rfl, learns⟩ | ⟨remembered, kept⟩
    · rw [if_pos rfl]
      exact shields_of_learns granted learns
    · have shields := calm.shielded principal resource remembered
      split_ifs with same
      · subst same
        obtain ⟨unread, unsettled⟩ := kept rfl
        exact shields.step granted unread unsettled
      · exact shields

section Order

variable [LinearOrder TestNode] [LinearOrder Regex] [LinearOrder TransitionNode]

/-- Every event of the history was granted against its own prefix. -/
def Granted (history : List Event) : Prop :=
  ∀ index event, history[index]? = some event ->
    gitDecision (history.take index) event = some .grant

theorem Granted.of_append_singleton
    {history : List Event}
    {event : Event}
    (granted : Granted (history ++ [event])) :
    Granted history ∧
      (stateOf event.resource history).decide event = .grant := by
  constructor
  · intro index earlier found
    obtain ⟨bound, -⟩ := List.getElem?_eq_some_iff.mp found
    have decided := granted index earlier
      (by rw [List.getElem?_append_left bound, found])
    rwa [List.take_append_of_le_length bound.le] at decided
  · have decided := granted history.length event (by simp)
    rw [List.take_left, gitDecision_eq] at decided
    exact Option.some.inj decided

theorem calm_of_granted
    {history : List Event}
    (granted : Granted history) :
    Calm history := by
  induction history using List.reverseRecOn with
  | nil => exact calm_nil
  | append_singleton history event hypothesis =>
      obtain ⟨earlier, decided⟩ := granted.of_append_singleton
      exact (hypothesis earlier).append decided

/-- No history granted event by event by the git policy surprises anyone: the
oracle reports nothing, and at no index does an event change content that
another principal's view still equals. -/
theorem noSurpriseViolation_eq_none
    {history : List Event}
    (granted : Granted history) :
    noSurpriseViolation history = none ∧
      ∀ index event, history[index]? = some event ->
        ¬ SurprisesAt history index event := by
  have unsurprised := (calm_of_granted granted).unsurprised
  exact ⟨unsurprised, noSurpriseViolation_eq_none_iff.mp unsurprised⟩

/-- The actions that change content in a granted history meet nobody's view, so
only the other events of it are contended. -/
theorem contendedEvents_le_of_granted
    {history : List Event}
    (granted : Granted history) :
    contendedEvents history ≤ history.countP fun event =>
      ¬ (event.action = .edit ∨ event.action = .delete ∨
        event.action = .checkout ∨ event.action = .stash) := by
  induction history using List.reverseRecOn with
  | nil => exact Nat.zero_le _
  | append_singleton history event hypothesis =>
      obtain ⟨earlier, decided⟩ := granted.of_append_singleton
      have calm := calm_of_granted earlier
      rw [contendedEvents, replay_append_singleton, List.countP_append]
      simp only [Replay.step]
      split_ifs with contended
      · obtain ⟨⟨principal, resource⟩, member, holds⟩ :=
          List.any_eq_true.mp contended
        simp only [Bool.and_eq_true, decide_eq_true_eq] at holds
        obtain ⟨rfl, other⟩ := holds
        have remembers : (replay history).Remembers principal event.resource :=
          Std.TreeMap.mem_keys.mp member
        have unchanged :=
          (calm.shielded _ _ remembers).not_changes other decided
        rw [List.countP_singleton, if_pos (decide_eq_true unchanged)]
        exact Nat.succ_le_succ (hypothesis earlier)
      · exact (hypothesis earlier).trans (Nat.le_add_right _ _)

end Order

/-- A handed-over resource: the first reader loses its claim to the second,
who then edits and stages what the first had read. -/
theorem noSurpriseViolation_eq_none_handover :
    let history : List Event :=
      [⟨⟨"alice"⟩, .read, ⟨["a"]⟩⟩, ⟨⟨"bob"⟩, .read, ⟨["a"]⟩⟩,
        ⟨⟨"bob"⟩, .edit, ⟨["a"]⟩⟩, ⟨⟨"bob"⟩, .stage, ⟨["a"]⟩⟩]
    noSurpriseViolation history = none ∧
      ¬ SurprisesAt history 2 ⟨⟨"bob"⟩, .edit, ⟨["a"]⟩⟩ := by
  let _ := someOrder TestNode
  let _ := someOrder Regex
  let _ := someOrder TransitionNode
  intro history
  have granted : Granted history := by
    intro index event found
    rw [gitDecision_eq]
    match index, found with
    | 0, found => cases found; decide
    | 1, found => cases found; decide
    | 2, found => cases found; decide
    | 3, found => cases found; decide
  obtain ⟨unsurprised, calm⟩ := noSurpriseViolation_eq_none granted
  exact ⟨unsurprised, calm 2 _ rfl⟩

end Trace
end Marsh
