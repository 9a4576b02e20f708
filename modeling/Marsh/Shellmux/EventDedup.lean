import Marsh.Policy.GitCorrectness
import Marsh.Validator.Correctness
import Marsh.Shellmux.AuthoritySemantics
import Marsh.Shellmux.ReadValidity

/-!
# Repeated events of one command

A command's events lose their exact repeats before they are checked.  The git
policy is not indifferent to repeats: an event that comes back after another
one moves its resource's row once more.
-/

namespace Marsh
namespace Shellmux

open Library Validator Policy

/-! ## Removing repeats -/

/-- Keeps the events that were not seen before. -/
def retainUnseen (seen : List Event) : List Event -> List Event
  | [] => []
  | event :: events =>
      if seen.contains event then retainUnseen seen events
      else event :: retainUnseen (seen ++ [event]) events

/-- Removes exact duplicate events, keeping the first occurrence. -/
def dedupPreservingOrder (events : List Event) : List Event :=
  retainUnseen [] events

/-- An event is distinct when it is new. -/
theorem eraseDups_append_singleton (events : List Event) (event : Event) :
    (events ++ [event]).eraseDups =
      events.eraseDups ++ if event ∈ events then [] else [event] := by
  rw [List.eraseDups_append]
  by_cases seen : event ∈ events <;>
    simp [List.removeAll, seen, List.eraseDups_cons]

/-- Distinct events that were seen, and those that are kept after them, are the
distinct events of both. -/
theorem append_retainUnseen
    {seen : List Event}
    (distinct : seen.eraseDups = seen)
    (events : List Event) :
    seen ++ retainUnseen seen events = (seen ++ events).eraseDups := by
  induction events generalizing seen with
  | nil => simpa [retainUnseen] using distinct.symm
  | cons event events hypothesis =>
      rw [retainUnseen]
      by_cases member : event ∈ seen
      · rw [if_pos (List.contains_iff_mem.mpr member), hypothesis distinct,
          List.eraseDups_append, List.eraseDups_append]
        simp [List.removeAll, member]
      · have longer : (seen ++ [event]).eraseDups = seen ++ [event] := by
          rw [eraseDups_append_singleton, distinct, if_neg member]
        rw [if_neg (by simpa using member), ← List.singleton_append,
          ← List.append_assoc, hypothesis longer, List.append_assoc,
          List.singleton_append]

/-- What is left are the distinct events, each where it came first. -/
theorem dedupPreservingOrder_eq (events : List Event) :
    dedupPreservingOrder events = events.eraseDups := by
  simpa [dedupPreservingOrder] using @append_retainUnseen [] rfl events

/-! ## Checking with the compiled policy -/

section Order

variable [LinearOrder TestNode] [LinearOrder Regex] [LinearOrder TransitionNode]

/-- Decides a command's event set with one compiled policy, appending what is
granted. -/
def checkEventsWith
    (policy : Git.GitPolicy)
    (history : List Event) :
    List Event -> Option (List CapDenial × List Event)
  | [] => some ([], history)
  | event :: events => do
      match ← policy.decide history event with
      | (.grant, policy) => checkEventsWith policy (history ++ [event]) events
      | (.deny failedPrecondition allowedFixes, policy) =>
          let (denials, history) ← checkEventsWith policy history events
          pure (⟨event, failedPrecondition, allowedFixes⟩ :: denials, history)

/-- Decides a command's event set with a policy built for this call. -/
def gitCheckEvents
    (history events : List Event) : Option (List CapDenial × List Event) := do
  let policy ← Git.GitPolicy.new
  checkEventsWith policy history events

theorem checkEventsWith_eq
    {policy : Git.GitPolicy}
    (implements : policy.Implements)
    (history events : List Event) :
    checkEventsWith policy history events =
      some (checkEvents gitDecide history events) := by
  induction events generalizing policy history with
  | nil => rfl
  | cons event events hypothesis =>
      obtain ⟨⟨decision, next⟩, decideEq, nextImplements, decisionEq⟩ :=
        implements.returns_decide history event
      change decision = gitDecide history event at decisionEq
      rw [checkEventsWith, checkEvents, decideEq, ← decisionEq]
      cases decision with
      | grant => exact hypothesis nextImplements _
      | deny failedPrecondition allowedFixes =>
          change (checkEventsWith next history events).bind _ = _
          rw [hypothesis nextImplements]
          rfl

/-- The check grants and denies as the reference machine decides. -/
theorem gitCheckEvents_eq (history events : List Event) :
    gitCheckEvents history events =
      some (checkEvents gitDecide history events) := by
  obtain ⟨policy, policyEq, implements⟩ := Git.GitPolicy.returns_new
  rw [gitCheckEvents, policyEq]
  exact checkEventsWith_eq implements history events

/-- Checking the distinct events of a command grants exactly when checking all
of them does, and leaves every resource the same row and claim. -/
def DedupPreserves (history events : List Event) : Prop :=
  ((∃ extended, gitCheckEvents history (dedupPreservingOrder events) =
      some ([], extended)) ↔
    ∃ extended, gitCheckEvents history events = some ([], extended)) ∧
    ∀ kept extended,
      gitCheckEvents history (dedupPreservingOrder events) = some ([], kept) ->
      gitCheckEvents history events = some ([], extended) ->
      ∀ resource, Git.stateOf resource kept = Git.stateOf resource extended

end Order

/-! ## Refused events -/

/-- Some event is refused after those before it. -/
def Refused (history events : List Event) : Prop :=
  ∃ before event after, events = before ++ event :: after ∧
    gitDecide (history ++ before) event ≠ .grant

/-- Some event that comes for the first time is refused after the distinct
events before it. -/
def RefusedFirst (history events : List Event) : Prop :=
  ∃ before event after, events = before ++ event :: after ∧ event ∉ before ∧
    gitDecide (history ++ before.eraseDups) event ≠ .grant

/-- The first event is refused, or a later one after it. -/
theorem refused_cons (history : List Event) (event : Event) (events : List Event) :
    Refused history (event :: events) ↔
      gitDecide history event ≠ .grant ∨ Refused (history ++ [event]) events := by
  constructor
  · rintro ⟨before, refused, after, split, refuses⟩
    rcases before with - | ⟨first, before⟩
    · obtain ⟨rfl, rfl⟩ := List.cons.inj split
      exact .inl (by simpa using refuses)
    · obtain ⟨rfl, rfl⟩ := List.cons.inj split
      exact .inr ⟨before, refused, after, rfl, by simpa using refuses⟩
  · rintro (refuses | ⟨before, refused, after, rfl, refuses⟩)
    · exact ⟨[], event, events, rfl, by simpa using refuses⟩
    · exact ⟨event :: before, refused, after, rfl, by simpa using refuses⟩

/-- A check denies nothing when no event is refused. -/
theorem checkEvents_eq_nil_iff (history events : List Event) :
    (checkEvents gitDecide history events).1 = [] ↔ ¬ Refused history events := by
  induction events generalizing history with
  | nil => simp [checkEvents, Refused]
  | cons event events hypothesis =>
      rw [checkEvents, refused_cons]
      cases decided : gitDecide history event with
      | grant => simpa using hypothesis (history ++ [event])
      | deny failedPrecondition allowedFixes => simp

/-- The distinct events are refused where one that comes first is. -/
theorem refused_eraseDups_iff (history events : List Event) :
    Refused history events.eraseDups ↔ RefusedFirst history events := by
  induction events using List.reverseRecOn with
  | nil => simp [Refused, RefusedFirst]
  | append_singleton events event hypothesis =>
      have split : RefusedFirst history (events ++ [event]) ↔
          RefusedFirst history events ∨ event ∉ events ∧
            gitDecide (history ++ events.eraseDups) event ≠ .grant :=
        exists_split_append_singleton
      rw [eraseDups_append_singleton, split, ← hypothesis]
      by_cases seen : event ∈ events
      · simp [seen]
      · rw [if_neg seen]
        simp only [seen, not_false_eq_true, true_and]
        exact exists_split_append_singleton

/-- The check grants when no event is refused, and extends the history by all
of them. -/
theorem gitCheckEvents_eq_granted_iff
    [LinearOrder TestNode] [LinearOrder Regex] [LinearOrder TransitionNode]
    {history events extended : List Event} :
    gitCheckEvents history events = some ([], extended) ↔
      ¬ Refused history events ∧ extended = history ++ events := by
  rw [gitCheckEvents_eq, Option.some.injEq, ← checkEvents_eq_nil_iff]
  constructor
  · intro granted
    exact ⟨by rw [granted], checkEvents_append gitDecide granted⟩
  · rintro ⟨granted, rfl⟩
    have pair : checkEvents gitDecide history events =
        ([], (checkEvents gitDecide history events).2) := by
      rw [← granted]
    rw [pair, checkEvents_append gitDecide pair]

/-! ## Moves of a row -/

/-- The row an action has to find its resource in, where there is only one. -/
def needs (principal : Principal) : Action -> Option Git.Row
  | .stage | .stash => some (.unstaged principal)
  | .unstage | .commit _ => some .staged
  | .delete => some .clean
  | .edit | .checkout | .clean | .read | .diff | .history => none

/-- The last event to move the row of a resource moved it here. -/
def LastMove (resource : Resource) (events : List Event) (row : Git.Row) :
    Prop :=
  ∃ before event after, events = before ++ event :: after ∧
    Git.rowChange resource event = some row ∧
    ∀ later ∈ after, Git.rowChange resource later = none

/-- The last event to move the row of a resource for the first time moved it
here. -/
def NewestMove (resource : Resource) (events : List Event) (row : Git.Row) :
    Prop :=
  ∃ before event after, events = before ++ event :: after ∧ event ∉ before ∧
    Git.rowChange resource event = some row ∧
    ∀ later ∈ after, later ∈ before ∨ later = event ∨
      Git.rowChange resource later = none

/-- An event finds the row it needs: a move left it, or nothing has moved the
row of the history. -/
def Finds
    (move : Resource -> List Event -> Git.Row -> Prop)
    (history before : List Event)
    (event : Event) : Prop :=
  ∀ row ∈ needs event.principal event.action,
    move event.resource before row ∨
      (∀ earlier ∈ before, Git.rowChange event.resource earlier = none) ∧
        (Git.stateOf event.resource history).row = row

/-- Every event comes where the last move left the row it needs. -/
def AllFind (history events : List Event) : Prop :=
  ∀ before event after, events = before ++ event :: after ->
    Finds LastMove history before event

/-- Every newcomer comes where the newest move left the row it needs. -/
def NewcomersFind (history events : List Event) : Prop :=
  ∀ before event after, events = before ++ event :: after -> event ∉ before ->
    Finds NewestMove history before event

/-- No repeat has the last word on a row, unless the newest move had said the
same. -/
def EndsAgree (events : List Event) : Prop :=
  ∀ resource row, LastMove resource events row -> NewestMove resource events row

/-- What other principals did forbids an event: one of them has unstaged its
resource, or has read it and the command has not read it since. -/
def Barred (history events : List Event) : Prop :=
  ∃ before event after, events = before ++ event :: after ∧
    ((Git.stateOf event.resource history).row.view event.principal =
        .unstagedOther ∧ (Git.rowCell event.action .unstagedOther).isSome ∨
      (Git.stateOf event.resource history).ClaimedByOther event.principal ∧
        (Git.claimCell event.action).isSome ∧
        ∀ earlier ∈ before, Git.claimChange event.resource earlier = none)

theorem lastMove_iff
    (resource : Resource)
    (events : List Event)
    (row : Git.Row) :
    LastMove resource events row ↔
      lastChange (Git.rowChange resource) events = some row :=
  (lastChange_eq_some_iff _ _ _).symm

/-- The newest move is the last event, when it is new and a move, or it stays. -/
theorem newestMove_append_singleton
    (resource : Resource)
    (events : List Event)
    (event : Event)
    (row : Git.Row) :
    NewestMove resource (events ++ [event]) row ↔
      event ∉ events ∧ Git.rowChange resource event = some row ∨
        (event ∈ events ∨ Git.rowChange resource event = none) ∧
          NewestMove resource events row := by
  constructor
  · rintro ⟨before, mover, after, split, new, moves, stable⟩
    induction after using List.reverseRecOn with
    | nil =>
        obtain ⟨rfl, same⟩ := List.append_inj' split rfl
        obtain rfl := List.singleton_inj.mp same
        exact .inl ⟨new, moves⟩
    | append_singleton after last _ =>
        rw [← List.cons_append, ← List.append_assoc] at split
        obtain ⟨rfl, same⟩ := List.append_inj' split rfl
        obtain rfl := List.singleton_inj.mp same
        refine .inr ⟨?_, before, mover, after, rfl, new, moves,
          fun later member => stable later (List.mem_append_left _ member)⟩
        obtain member | rfl | still := stable event (by simp)
        · exact .inl (List.mem_append_left _ member)
        · exact .inl (by simp)
        · exact .inr still
  · rintro (⟨new, moves⟩ | ⟨silent, before, mover, after, rfl, new, moves,
      stable⟩)
    · exact ⟨events, event, [], rfl, new, moves, by simp⟩
    · refine ⟨before, mover, after ++ [event], by simp, new, moves, ?_⟩
      intro later member
      obtain member | member := List.mem_append.mp member
      · exact stable later member
      · rw [List.mem_singleton.mp member]
        obtain seen | still := silent
        · obtain seen | seen := List.mem_append.mp seen
          · exact .inl seen
          · obtain rfl | seen := List.mem_cons.mp seen
            · exact .inr (.inl rfl)
            · exact stable event seen
        · exact .inr (.inr still)

/-- The newest move is the last of the distinct events. -/
theorem newestMove_iff
    (resource : Resource)
    (events : List Event)
    (row : Git.Row) :
    NewestMove resource events row ↔
      lastChange (Git.rowChange resource) events.eraseDups = some row := by
  induction events using List.reverseRecOn with
  | nil => simp [NewestMove]
  | append_singleton events event hypothesis =>
      rw [newestMove_append_singleton, hypothesis, eraseDups_append_singleton]
      by_cases seen : event ∈ events
      · simp [seen]
      · rw [if_neg seen, lastChange_append_singleton, Option.or_eq_some_iff]
        simp [seen]

/-- An event finds the row it needs when its resource is in it. -/
theorem finds_iff
    {move : Resource -> List Event -> Git.Row -> Prop}
    {history before kept : List Event}
    {event : Event}
    (left : ∀ row, move event.resource before row ↔
      lastChange (Git.rowChange event.resource) kept = some row)
    (members : ∀ earlier, earlier ∈ kept ↔ earlier ∈ before) :
    Finds move history before event ↔
      ∀ row ∈ needs event.principal event.action,
        (Git.stateOf event.resource (history ++ kept)).row = row := by
  refine forall₂_congr fun row _ => ?_
  rw [left, Git.row_stateOf, Git.row_stateOf, lastChange_append]
  simp only [← members, ← lastChange_eq_none_iff]
  cases lastChange (Git.rowChange event.resource) kept <;> simp

/-! ## Events of one principal -/

section Principal

variable {principal : Principal} {history events : List Event}

/-- Repeats of one principal's events move no claim. -/
theorem claim_eraseDups
    (single : ∀ event ∈ events, event.principal = principal)
    (resource : Resource) :
    (Git.stateOf resource (history ++ events.eraseDups)).claim =
      (Git.stateOf resource (history ++ events)).claim := by
  rw [Git.claim_stateOf, Git.claim_stateOf, lastChange_append,
    lastChange_append]
  congr 1
  refine (@lastChange_congr_mem _ _ _ principal _ _ (fun event member => ?_)
    fun event => List.mem_eraseDups.symm).symm
  rw [Git.claimChange]
  split_ifs
  · exact .inr (by rw [single event member])
  · exact .inl rfl

/-- A resource that another principal has unstaged is one that no event
touched. -/
theorem view_eq_unstagedOther_iff
    (single : ∀ event ∈ events, event.principal = principal)
    (resource : Resource) :
    (Git.stateOf resource (history ++ events)).row.view principal =
        .unstagedOther ↔
      (Git.stateOf resource history).row.view principal = .unstagedOther ∧
        ∀ event ∈ events, Git.rowChange resource event = none := by
  rw [Git.row_stateOf, Git.row_stateOf, lastChange_append]
  by_cases touched : ∃ row, lastChange (Git.rowChange resource) events = some row
  · obtain ⟨row, last⟩ := touched
    obtain ⟨before, event, after, rfl, changes, -⟩ :=
      (lastChange_eq_some_iff _ _ _).mp last
    have own : event.principal = principal := single event (by simp)
    have shown : row.view principal ≠ .unstagedOther := by
      rw [Git.rowChange] at changes
      split_ifs at changes
      cases action : event.action <;> rw [action] at changes <;>
        simp only [Option.some.injEq, reduceCtorEq] at changes <;>
        simp [← changes, Git.Row.view, own]
    rw [last, Option.some_or, Option.getD_some]
    refine iff_of_false shown fun untouched => ?_
    rw [untouched.2 event (by simp)] at changes
    contradiction
  · have silent : lastChange (Git.rowChange resource) events = none :=
      Option.eq_none_iff_forall_not_mem.mpr fun row sets => touched ⟨row, sets⟩
    rw [silent, Option.none_or]
    exact (and_iff_left ((lastChange_eq_none_iff _ _).mp silent)).symm

/-- A claim of another principal is one from before the events, none of which
took it. -/
theorem claimedByOther_iff
    (single : ∀ event ∈ events, event.principal = principal)
    (resource : Resource) :
    (Git.stateOf resource (history ++ events)).ClaimedByOther principal ↔
      (Git.stateOf resource history).ClaimedByOther principal ∧
        ∀ event ∈ events, Git.claimChange resource event = none := by
  simp only [Git.ResourceState.ClaimedByOther, Git.claim_stateOf,
    lastChange_append, ← lastChange_eq_none_iff]
  cases last : lastChange (Git.claimChange resource) events with
  | none => simp
  | some reader =>
      obtain ⟨before, event, after, rfl, takes, -⟩ :=
        (lastChange_eq_some_iff _ _ _).mp last
      have own : event.principal = principal := single event (by simp)
      rw [Git.claimChange] at takes
      split_ifs at takes
      obtain rfl := Option.some.inj takes
      simp [own]

/-- The policy grants outside its forbidden cells. -/
theorem gitDecide_eq_grant_iff (history : List Event) (event : Event) :
    gitDecide history event = .grant ↔
      Git.rowCell event.action ((Git.stateOf event.resource history).row.view
        event.principal) = none ∧
        ((Git.stateOf event.resource history).ClaimedByOther event.principal ->
          Git.claimCell event.action = none) := by
  rw [gitDecide, Git.ResourceState.decide, ← ite_eq_right_iff,
    ← Option.or_eq_none_iff, ← Git.ResourceState.forbiddenCell]
  cases Git.ResourceState.forbiddenCell _ _ _ <;> simp

/-- Where nobody else has unstaged its resource, or it does not mind, an action
is permitted in the row it needs. -/
theorem rowCell_eq_none_iff
    {action : Action}
    {row : Git.Row}
    (unbarred : row.view principal = .unstagedOther ->
      Git.rowCell action .unstagedOther = none) :
    Git.rowCell action (row.view principal) = none ↔
      ∀ needed ∈ needs principal action, row = needed := by
  cases view : row.view principal with
  | clean =>
      rw [Git.Row.view_eq_clean_iff] at view
      cases action <;> simp [view, Git.rowCell, needs]
  | staged =>
      rw [Git.Row.view_eq_staged_iff] at view
      cases action <;> simp [view, Git.rowCell, needs]
  | unstagedSelf =>
      rw [Git.Row.view_eq_unstagedSelf_iff] at view
      cases action <;> simp [view, Git.rowCell, needs]
  | unstagedOther =>
      have free := unbarred view
      cases action <;> simp [Git.rowCell, needs] at free ⊢

/-- What other principals did forbids this event: after the events before it
its resource is still theirs, or they still claim it. -/
def BarredAt (history before : List Event) (event : Event) : Prop :=
  (Git.stateOf event.resource history).row.view event.principal =
      .unstagedOther ∧ (Git.rowCell event.action .unstagedOther).isSome ∧
      (∀ earlier ∈ before, Git.rowChange event.resource earlier = none) ∨
    (Git.stateOf event.resource history).ClaimedByOther event.principal ∧
      (Git.claimCell event.action).isSome ∧
      ∀ earlier ∈ before, Git.claimChange event.resource earlier = none

/-- An event that others forbid is refused, with repeats before it or without. -/
theorem BarredAt.refused
    {before kept : List Event}
    {event : Event}
    (barred : BarredAt history before event)
    (single : ∀ earlier ∈ kept, earlier.principal = event.principal)
    (members : ∀ earlier ∈ kept, earlier ∈ before) :
    gitDecide (history ++ kept) event ≠ .grant := by
  rw [ne_eq, gitDecide_eq_grant_iff, not_and_or]
  obtain ⟨foreign, minds, still⟩ | ⟨claimed, minds, unread⟩ := barred
  · left
    rw [(view_eq_unstagedOther_iff single _).mpr
      ⟨foreign, fun earlier member => still earlier (members earlier member)⟩]
    exact Option.isSome_iff_ne_none.mp minds
  · right
    exact fun free => Option.isSome_iff_ne_none.mp minds
      (free ((claimedByOther_iff single _).mpr ⟨claimed,
        fun earlier member => unread earlier (members earlier member)⟩))

/-- An action that leaves another principal's row alone moves no row. -/
theorem rowChange_eq_none_of_free
    {resource : Resource}
    {event : Event}
    (free : event.resource = resource ->
      Git.rowCell event.action .unstagedOther = none) :
    Git.rowChange resource event = none := by
  rw [Git.rowChange]
  split_ifs with own
  · specialize free own
    cases action : event.action <;> simp [action, Git.rowCell] at free ⊢
  · rfl

/-- When others forbid some event, they forbid a newcomer. -/
theorem exists_barredAt
    (single : ∀ event ∈ events, event.principal = principal)
    (barred : Barred history events) :
    ∃ before event after, events = before ++ event :: after ∧ event ∉ before ∧
      BarredAt history before event := by
  obtain ⟨before, event, after, rfl, ⟨foreign, minds⟩ | ⟨claimed, minds,
    unread⟩⟩ := barred
  · -- The first event on the resource that minds the row is a newcomer.
    let first := (before ++ event :: after).find? fun other =>
      other.resource = event.resource ∧
        (Git.rowCell other.action .unstagedOther).isSome
    obtain ⟨other, found⟩ : ∃ other, first = some other := by
      rw [← Option.isSome_iff_exists, List.find?_isSome]
      exact ⟨event, by simp, by simpa using minds⟩
    obtain ⟨matched, earlier, later, split, others⟩ :=
      List.find?_eq_some_iff_append.mp found
    obtain ⟨same, minds⟩ := of_decide_eq_true matched
    have others : ∀ previous ∈ earlier, previous.resource = event.resource ->
        Git.rowCell previous.action .unstagedOther = none := by
      simpa [← imp_iff_not_or] using others
    have owner : other.principal = event.principal :=
      (single other (split ▸ by simp)).trans (single event (by simp)).symm
    refine ⟨earlier, other, later, split, fun member => ?_, .inl ⟨?_, minds,
      fun previous member => ?_⟩⟩
    · exact Option.isSome_iff_ne_none.mp minds (others other member same)
    · rw [same, owner]
      exact foreign
    · rw [same]
      exact rowChange_eq_none_of_free (others previous member)
  · by_cases seen : event ∈ before
    · obtain ⟨earlier, later, rfl, new⟩ := List.eq_append_cons_of_mem seen
      exact ⟨earlier, event, later ++ event :: after, by simp, new, .inr
        ⟨claimed, minds, fun previous member =>
          unread previous (List.mem_append_left _ member)⟩⟩
    · exact ⟨before, event, after, rfl, seen, .inr ⟨claimed, minds, unread⟩⟩

/-- Where others forbid nothing, an event is granted when it finds the row it
needs. -/
theorem granted_iff_of_not_barred
    (single : ∀ event ∈ events, event.principal = principal)
    (unbarred : ¬ Barred history events)
    {before after kept : List Event}
    {event : Event}
    (split : events = before ++ event :: after)
    (members : ∀ earlier, earlier ∈ kept ↔ earlier ∈ before) :
    gitDecide (history ++ kept) event = .grant ↔
      ∀ row ∈ needs event.principal event.action,
        (Git.stateOf event.resource (history ++ kept)).row = row := by
  have own : ∀ earlier ∈ kept, earlier.principal = event.principal := by
    intro earlier member
    rw [single event (split ▸ by simp), single earlier]
    exact split ▸ List.mem_append_left _ ((members earlier).mp member)
  have unread : (Git.stateOf event.resource (history ++ kept)).ClaimedByOther
      event.principal -> Git.claimCell event.action = none := by
    rw [claimedByOther_iff own]
    rintro ⟨claimed, unread⟩
    by_contra minds
    exact unbarred ⟨before, event, after, split, .inr ⟨claimed,
      Option.isSome_iff_ne_none.mpr minds, fun earlier member =>
        unread earlier ((members earlier).mpr member)⟩⟩
  rw [gitDecide_eq_grant_iff, and_iff_left unread, rowCell_eq_none_iff]
  rw [view_eq_unstagedOther_iff own]
  rintro ⟨foreign, -⟩
  by_contra minds
  exact unbarred ⟨before, event, after, split, .inl ⟨foreign,
    Option.isSome_iff_ne_none.mpr minds⟩⟩

/-- Where others forbid nothing, the check refuses nothing when every event
finds its row. -/
theorem not_refused_iff
    (single : ∀ event ∈ events, event.principal = principal)
    (unbarred : ¬ Barred history events) :
    ¬ Refused history events ↔ AllFind history events := by
  simp only [Refused, not_exists, not_and, ne_eq, not_not]
  refine forall₄_congr fun before event after split => ?_
  rw [granted_iff_of_not_barred single unbarred split fun _ => Iff.rfl]
  exact (finds_iff (fun row => lastMove_iff _ _ _) fun _ => Iff.rfl).symm

/-- Where others forbid nothing, the distinct events are not refused when every
newcomer finds its row. -/
theorem not_refusedFirst_iff
    (single : ∀ event ∈ events, event.principal = principal)
    (unbarred : ¬ Barred history events) :
    ¬ RefusedFirst history events ↔ NewcomersFind history events := by
  simp only [RefusedFirst, not_exists, not_and, ne_eq, not_not]
  refine forall₄_congr fun before event after split =>
    forall_congr' fun _ => ?_
  rw [granted_iff_of_not_barred single unbarred split
    fun _ => List.mem_eraseDups]
  exact (finds_iff (fun row => newestMove_iff _ _ _)
    fun _ => List.mem_eraseDups).symm

/-- The distinct events leave every resource as all of them do when the repeats
have the last word on no row. -/
theorem stateOf_eq_iff
    (single : ∀ event ∈ events, event.principal = principal) :
    (∀ resource, Git.stateOf resource (history ++ events.eraseDups) =
      Git.stateOf resource (history ++ events)) ↔ EndsAgree events := by
  refine forall_congr' fun resource => ?_
  simp only [lastMove_iff, newestMove_iff]
  rw [Git.ResourceState.ext_iff,
    and_iff_left (claim_eraseDups single resource), Git.row_stateOf,
    Git.row_stateOf, lastChange_append, lastChange_append]
  cases last : lastChange (Git.rowChange resource) events with
  | none =>
      have silent := (lastChange_eq_none_iff _ _).mp last
      rw [(lastChange_eq_none_iff _ _).mpr fun event member =>
        silent event (List.mem_eraseDups.mp member)]
      simp
  | some row =>
      obtain ⟨newest, found⟩ : ∃ newest, lastChange (Git.rowChange resource)
          events.eraseDups = some newest := by
        rw [← Option.ne_none_iff_exists', ne_eq, lastChange_eq_none_iff]
        intro silent
        obtain ⟨before, event, after, rfl, moves, -⟩ :=
          (lastChange_eq_some_iff _ _ _).mp last
        rw [silent event (List.mem_eraseDups.mpr (by simp))] at moves
        contradiction
      simp [found, eq_comm]

end Principal

/-! ## When repeats may be removed -/

section Order

variable [LinearOrder TestNode] [LinearOrder Regex] [LinearOrder TransitionNode]

end Order

/-! ## An edit after a stage -/

/-- One event of a sample command. -/
def sampleEvent (action : Action) : Event :=
  ⟨⟨"alice"⟩, action, ⟨["a"]⟩⟩

/-- Nobody has done anything in the empty history. -/
theorem not_barred_nil (events : List Event) : ¬ Barred [] events := by
  rintro ⟨before, event, after, -, ⟨foreign, -⟩ | ⟨⟨reader, claimed, -⟩, -⟩⟩
  · contradiction
  · contradiction

end Shellmux
end Marsh
