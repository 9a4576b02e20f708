import Marsh.Validator.Correctness

/-!
# Checkpoints

A checkpoint is the length of a history.  A rollback restores the history of its
checkpoint, unless the history was shortened past it and has grown again since.
-/

set_option linter.dupNamespace false

namespace Marsh
namespace Validator

open Library

section Order

variable [LinearOrder TestNode] [LinearOrder Regex] [LinearOrder TransitionNode]

/-! ## Decisions -/

/-- The first rule that does not let the candidate pass denies it. -/
theorem checkRules_cons
    {history : List Event}
    {event : Event}
    {rule next : RuntimeRule}
    {accepted : Option Bool}
    (accepts : rule.acceptsHistory history event = some (accepted, next))
    (rules : List RuntimeRule) :
    checkRules history event (rule :: rules) =
      if next.passes accepted then
        (checkRules history event rules).map fun outcome =>
          (outcome.1, next :: outcome.2)
      else some (some (next.mode.denial event), next :: rules) := by
  rw [checkRules, accepts]
  cases accepted with
  | none =>
      cases checkRules history event rules <;> rfl
  | some accepted =>
      cases violated : next.mode.violated accepted with
      | true =>
          change (if next.mode.violated accepted then _ else _) = _
          simp [RuntimeRule.passes, violated]
      | false =>
          change (if next.mode.violated accepted then _ else _) = _
          cases checkRules history event rules <;>
            simp [RuntimeRule.passes, violated]

/-- Rules for the same sources deny the same, whatever their caches hold. -/
theorem exists_checkRules_eq
    {sources : List Rule}
    {rules others : List RuntimeRule}
    (implement : List.Forall₂ Implements sources rules)
    (otherImplement : List.Forall₂ Implements sources others)
    (history : List Event)
    (event : Event) :
    ∃ denial nextRules nextOthers,
      checkRules history event rules = some (denial, nextRules) ∧
      checkRules history event others = some (denial, nextOthers) ∧
      List.Forall₂ Implements sources nextRules ∧
      List.Forall₂ Implements sources nextOthers := by
  induction implement generalizing others with
  | nil =>
      cases otherImplement
      exact ⟨none, [], [], rfl, rfl, .nil, .nil⟩
  | cons implements rest hypothesis =>
      cases otherImplement with
      | cons otherImplements otherRest =>
          obtain ⟨⟨accepted, next⟩, accepts, nextImplements, passes⟩ :=
            implements.returns_acceptsHistory history event
          obtain ⟨⟨otherAccepted, other⟩, otherAccepts, otherNext,
              otherPasses⟩ :=
            otherImplements.returns_acceptsHistory history event
          have same : next.passes accepted = other.passes otherAccepted :=
            Bool.eq_iff_iff.mpr (passes.trans otherPasses.symm)
          rw [checkRules_cons accepts, checkRules_cons otherAccepts, ← same]
          cases next.passes accepted with
          | true =>
              obtain ⟨denial, nextRules, nextOthers, checks, otherChecks,
                  checked, otherChecked⟩ := hypothesis otherRest
              refine ⟨denial, next :: nextRules, other :: nextOthers, ?_, ?_,
                .cons nextImplements checked, .cons otherNext otherChecked⟩
              · rw [checks]
                rfl
              · rw [otherChecks]
                rfl
          | false =>
              have modes : other.mode = next.mode :=
                otherNext.mode.trans nextImplements.mode.symm
              refine ⟨some (next.mode.denial event), _, _, rfl, ?_,
                .cons nextImplements rest, .cons otherNext otherRest⟩
              rw [modes]
              rfl

namespace Validator

/-- The decisions on requests in order. -/
def checkAll {Metadata : Type} (validator : Validator) :
    List (Request Metadata) -> Option (List (Decision Metadata))
  | [] => some []
  | request :: requests => do
      let (decision, next) ← validator.check request
      let decisions ← next.checkAll requests
      pure (decision :: decisions)

/-- Validators for the same sources that hold the same history decide the
same. -/
theorem exists_check_eq
    {sources : List Rule}
    {validator other : Validator}
    (implement : List.Forall₂ Implements sources validator.rules)
    (otherImplement : List.Forall₂ Implements sources other.rules)
    (same : validator.history = other.history)
    {Metadata : Type}
    (request : Request Metadata) :
    ∃ decision next otherNext,
      validator.check request = some (decision, next) ∧
      other.check request = some (decision, otherNext) ∧
      List.Forall₂ Implements sources next.rules ∧
      List.Forall₂ Implements sources otherNext.rules ∧
      next.history = otherNext.history := by
  obtain ⟨denial, rules, others, checks, otherChecks, checked, otherChecked⟩ :=
    exists_checkRules_eq implement otherImplement validator.history
      request.event
  rw [Validator.check, Validator.check, ← same, checks, otherChecks]
  cases denial with
  | none => exact ⟨_, _, _, rfl, rfl, checked, otherChecked, rfl⟩
  | some denial => exact ⟨_, _, _, rfl, rfl, checked, otherChecked, rfl⟩

theorem checkAll_eq
    {sources : List Rule}
    {validator other : Validator}
    (implement : List.Forall₂ Implements sources validator.rules)
    (otherImplement : List.Forall₂ Implements sources other.rules)
    (same : validator.history = other.history)
    {Metadata : Type}
    (requests : List (Request Metadata)) :
    validator.checkAll requests = other.checkAll requests := by
  induction requests generalizing validator other with
  | nil => rfl
  | cons request requests hypothesis =>
      obtain ⟨decision, next, otherNext, checks, otherChecks, checked,
          otherChecked, histories⟩ :=
        exists_check_eq implement otherImplement same request
      rw [checkAll, checkAll, checks, otherChecks]
      change ((next.checkAll requests).bind _) =
        ((otherNext.checkAll requests).bind _)
      rw [hypothesis checked otherChecked histories]

/-- Validators that were compiled and have granted these events, and nothing
else. -/
inductive Fresh (sources : List Rule) : List Event -> Validator -> Prop
  | compiled {builder : ValidatorBuilder}
      (compiles : ValidatorBuilder.new.addRules sources = some (.ok builder)) :
      Fresh sources [] builder.finish
  | granted {Metadata : Type} {events : List Event} {validator next : Validator}
      {request : Request Metadata} {grant : Grant Metadata}
      (fresh : Fresh sources events validator)
      (checks : validator.check request = some (.grant grant, next)) :
      Fresh sources (events ++ [request.event]) next

theorem Fresh.reachable
    {sources : List Rule}
    {events : List Event}
    {validator : Validator}
    (fresh : Fresh sources events validator) :
    Reachable sources validator := by
  induction fresh with
  | compiled compiles => exact .compiled compiles
  | granted _ checks hypothesis => exact .checked hypothesis checks

theorem Fresh.history_eq
    {sources : List Rule}
    {events : List Event}
    {validator : Validator}
    (fresh : Fresh sources events validator) : validator.history = events := by
  induction fresh with
  | compiled compiles => rfl
  | granted fresh checks hypothesis =>
      obtain ⟨-, -, history⟩ :=
        (returns_check fresh.reachable.implement _).of_returned checks
      rw [history, hypothesis]
      rfl

/-- A fresh validator holds every history of a run, and every earlier one. -/
theorem Reachable.exists_fresh
    {sources : List Rule}
    {validator : Validator}
    (reachable : Reachable sources validator)
    {events : List Event}
    (earlier : events <+: validator.history) :
    ∃ fresh, Fresh sources events fresh := by
  induction reachable generalizing events with
  | compiled compiles =>
      rw [List.prefix_nil.mp earlier]
      exact ⟨_, .compiled compiles⟩
  | @checked _ validator next request decision reachable checks hypothesis =>
      obtain ⟨-, -, history⟩ :=
        (returns_check reachable.implement request).of_returned checks
      cases decision with
      | denied denial =>
          rw [show next.history = validator.history from history] at earlier
          exact hypothesis earlier
      | grant grant =>
          rw [show next.history = validator.history ++ [request.event] from
            history, List.prefix_concat_iff] at earlier
          obtain rfl | before := earlier
          · -- A fresh validator for the history so far grants the event too.
            obtain ⟨fresh, granted⟩ := hypothesis (List.prefix_refl _)
            obtain ⟨decision, _, other, same, checksToo, -⟩ :=
              exists_check_eq reachable.implement granted.reachable.implement
                granted.history_eq.symm request
            rw [checks] at same
            cases same
            exact ⟨other, .granted granted checksToo⟩
          · exact hypothesis before
  | rolledBack _ restores hypothesis =>
      unfold Validator.rollback at restores
      split_ifs at restores
      rw [← Option.some.inj restores] at earlier
      exact hypothesis (earlier.trans (List.take_prefix _ _))

end Validator

/-! ## Runs with checkpoints -/

/-- A checkpoint that was taken. -/
structure Taken where
  /-- The cursor. -/
  checkpoint : Checkpoint
  /-- The history when it was taken. -/
  history : List Event
  /-- Whether a rollback has truncated the history past it since. -/
  truncated : Bool

/-- What a rollback to a checkpoint makes of one that was taken. -/
def Taken.pass (checkpoint : Checkpoint) (taken : Taken) : Taken where
  checkpoint := taken.checkpoint
  history := taken.history
  truncated := taken.truncated ||
    checkpoint.position < taken.checkpoint.position

/-- A validator and the checkpoints its callers hold. -/
structure Session where
  /-- The validator. -/
  validator : Validator
  /-- The checkpoints taken so far. -/
  taken : List Taken

namespace Session

/-- Sessions that checks, checkpoints and rollbacks reach.  A rollback that
panics changes nothing. -/
inductive Reachable (sources : List Rule) : Session -> Prop
  | compiled {builder : ValidatorBuilder}
      (compiles : ValidatorBuilder.new.addRules sources = some (.ok builder)) :
      Reachable sources ⟨builder.finish, []⟩
  | checked {Metadata : Type} {session : Session} {next : Validator}
      {request : Request Metadata} {decision : Decision Metadata}
      (reachable : Reachable sources session)
      (checks : session.validator.check request = some (decision, next)) :
      Reachable sources ⟨next, session.taken⟩
  | checkpointed {session : Session}
      (reachable : Reachable sources session) :
      Reachable sources ⟨session.validator,
        ⟨session.validator.checkpoint, session.validator.history, false⟩ ::
          session.taken⟩
  | rolledBack {session : Session} {next : Validator} {taken : Taken}
      (reachable : Reachable sources session)
      (member : taken ∈ session.taken)
      (restores : session.validator.rollback taken.checkpoint = some next) :
      Reachable sources ⟨next, session.taken.map (Taken.pass taken.checkpoint)⟩

theorem Reachable.validator
    {sources : List Rule}
    {session : Session}
    (reachable : Reachable sources session) :
    Validator.Reachable sources session.validator := by
  induction reachable with
  | compiled compiles => exact .compiled compiles
  | checked _ checks hypothesis => exact .checked hypothesis checks
  | checkpointed _ hypothesis => exact hypothesis
  | rolledBack _ _ restores hypothesis => exact .rolledBack hypothesis restores

/-- Whether a checkpoint that was taken still stands for the start of the
history. -/
def Stands (session : Session) (taken : Taken) : Prop :=
  taken.checkpoint.position = taken.history.length ∧
    (taken.truncated = false -> taken.history <+: session.validator.history)

/-- A checkpoint stands for the start of the history until it is truncated
past. -/
theorem Reachable.stands
    {sources : List Rule}
    {session : Session}
    (reachable : Reachable sources session) :
    ∀ taken ∈ session.taken, session.Stands taken := by
  induction reachable with
  | compiled compiles => simp
  | @checked _ session next request decision reachable checks hypothesis =>
      intro taken member
      obtain ⟨position, start⟩ := hypothesis taken member
      obtain ⟨-, -, history⟩ := (Validator.returns_check
        reachable.validator.implement request).of_returned checks
      refine ⟨position, fun kept => (start kept).trans ?_⟩
      dsimp only at history ⊢
      rw [history]
      split_ifs
      · exact List.prefix_append _ _
      · exact List.prefix_refl _
  | checkpointed reachable hypothesis =>
      intro taken member
      obtain rfl | earlier := List.mem_cons.mp member
      · exact ⟨rfl, fun _ => List.prefix_refl _⟩
      · exact hypothesis taken earlier
  | @rolledBack session next taken reachable member restores hypothesis =>
      intro passed passedMember
      obtain ⟨other, otherMember, rfl⟩ := List.mem_map.mp passedMember
      obtain ⟨position, start⟩ := hypothesis other otherMember
      refine ⟨position, fun kept => ?_⟩
      obtain ⟨untouched, short⟩ := Bool.or_eq_false_iff.mp kept
      have within : other.history.length ≤ taken.checkpoint.position := by
        rw [← position]
        exact Nat.le_of_not_lt (of_decide_eq_false short)
      unfold Validator.rollback at restores
      split_ifs at restores
      rw [← Option.some.inj restores]
      exact List.prefix_take_iff.mpr ⟨start untouched, within⟩

/-- What is promised of a rollback: it panics if the history was truncated past
its checkpoint, and otherwise restores the checkpoint's history, after which all
decisions are those of a fresh validator that holds it. -/
def Restores (sources : List Rule) (session : Session) (taken : Taken) : Prop :=
  (taken.truncated = true ->
    session.validator.rollback taken.checkpoint = none) ∧
  ∀ next, session.validator.rollback taken.checkpoint = some next ->
    next.history = taken.history ∧
      (∃ fresh, Validator.Fresh sources taken.history fresh) ∧
      ∀ fresh, Validator.Fresh sources taken.history fresh ->
        ∀ {Metadata : Type} (requests : List (Request Metadata)),
          next.checkAll requests = fresh.checkAll requests

/-- In every run, a rollback to a checkpoint does what is promised if and only
if the history was not truncated past it, or has not grown to its length
again. -/
theorem restores_iff
    {sources : List Rule}
    {session : Session}
    (reachable : Reachable sources session)
    {taken : Taken}
    (member : taken ∈ session.taken) :
    session.Restores sources taken ↔
      (taken.truncated = true ->
        session.validator.history.length < taken.checkpoint.position) := by
  obtain ⟨position, start⟩ := reachable.stands taken member
  constructor
  · rintro ⟨panics, -⟩ truncated
    have panic := panics truncated
    rw [Validator.rollback] at panic
    split_ifs at panic with within
    exact Nat.lt_of_not_le within
  · intro short
    refine ⟨fun truncated => ?_, fun next restores => ?_⟩
    · exact if_neg (Nat.not_le.mpr (short truncated))
    · have after := reachable.validator.rolledBack restores
      unfold Validator.rollback at restores
      split_ifs at restores with within
      have kept : taken.truncated = false := by
        rw [← Bool.not_eq_true]
        exact fun truncated => Nat.not_le.mpr (short truncated) within
      have history : next.history = taken.history := by
        rw [← Option.some.inj restores]
        dsimp only
        rw [position]
        exact (List.prefix_iff_eq_take.mp (start kept)).symm
      refine ⟨history, after.exists_fresh (by rw [history]), ?_⟩
      intro fresh holds Metadata requests
      refine Validator.checkAll_eq after.implement holds.reachable.implement ?_
        requests
      rw [history, holds.history_eq]

end Session

/-! ## A history that grows again -/

/-- The event under which someone edits a resource. -/
def editBy (name : String) : Event := ⟨⟨name⟩, .edit, ⟨["a"]⟩⟩

/-- Two checkpoints, before and after a grant, of a history that was rolled back
to the first one and has another event since. -/
def regrown : Session where
  validator := ⟨[], [editBy "bob"]⟩
  taken := [⟨⟨1⟩, [editBy "alice"], true⟩, ⟨⟨0⟩, [], false⟩]

theorem reachable_regrown : Session.Reachable [] regrown := by
  have compiled : Session.Reachable [] ⟨⟨[], []⟩, []⟩ :=
    @Session.Reachable.compiled _ _ _ [] .new rfl
  have grants : ∀ name, (⟨[], []⟩ : Validator).check
      (⟨editBy name, ()⟩ : Request Unit) =
        some (.grant ⟨editBy name, ()⟩, ⟨[], [editBy name]⟩) :=
    fun _ => rfl
  have edited : Session.Reachable []
      ⟨⟨[], [editBy "alice"]⟩, [⟨⟨0⟩, [], false⟩]⟩ :=
    .checked compiled.checkpointed (grants "alice")
  have back : Session.Reachable [] ⟨⟨[], []⟩, regrown.taken⟩ :=
    edited.checkpointed.rolledBack
      (List.mem_cons_of_mem _ List.mem_cons_self) rfl
  exact .checked back (grants "bob")

end Order

/-- The first checkpoint of the history that has grown again is restored. -/
theorem restores_regrown :
    letI := someOrder TestNode
    letI := someOrder Regex
    letI := someOrder TransitionNode
    regrown.Restores [] ⟨⟨0⟩, [], false⟩ := by
  let _ := someOrder TestNode
  let _ := someOrder Regex
  let _ := someOrder TransitionNode
  refine (Session.restores_iff reachable_regrown (by simp [regrown])).mpr ?_
  intro truncated
  contradiction

/-- A rollback to the second one does not panic and restores another history. -/
theorem not_restores_regrown :
    letI := someOrder TestNode
    letI := someOrder Regex
    letI := someOrder TransitionNode
    Session.Reachable [] regrown ∧
      ⟨⟨1⟩, [editBy "alice"], true⟩ ∈ regrown.taken ∧
      regrown.validator.rollback ⟨1⟩ = some ⟨[], [editBy "bob"]⟩ ∧
      ¬ regrown.Restores [] ⟨⟨1⟩, [editBy "alice"], true⟩ := by
  let _ := someOrder TestNode
  let _ := someOrder Regex
  let _ := someOrder TransitionNode
  refine ⟨reachable_regrown, by simp [regrown], rfl, ?_⟩
  rintro ⟨panics, -⟩
  have panic : some (⟨[], [editBy "bob"]⟩ : Validator) = none := panics rfl
  contradiction

end Validator
end Marsh
