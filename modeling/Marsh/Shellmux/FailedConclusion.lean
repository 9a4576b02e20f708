import Marsh.Shellmux.ReadValidity

/-!
# Conclusions that publish nothing

A conclusion extends the history before its record is durable.  A denial
truncates the history again; a failing log or seed does not.
-/

namespace Marsh
namespace Shellmux

open Library Validator Policy

/-- Whether an outcome reports that the command was recorded. -/
def CmdOutcome.recorded : CmdOutcome -> Bool
  | .committed _ _ _ | .bypassed _ _ => true
  | .deniedCaps _ _ _ | .staleSnapshot _ _ | .execFailed _ | .unsupported _
  | .escaped _ _ _ => false

section Conclusion

variable {Storage : Type}
variable (decide : List Event -> Event -> PolicyDecision)
variable (persistence : Persistence Storage)

/-- The authority is what it was, unless the command was recorded. -/
def AuthorityKept
    (outcome : Except MuxError CmdOutcome)
    (before after : AuthorityState) : Prop :=
  (∃ recorded, outcome = .ok recorded ∧ recorded.recorded = true) ∨
    after.history = before.history ∧
      after.generations = before.generations ∧ after.seq = before.seq

/-- A record of this sequence number, these events and these operations is not
taken: the seed refuses it, or the history log does. -/
def Persistence.Refuses
    (sandbox : Sandbox)
    (cmd : String)
    (seq : Nat)
    (events : List Event)
    (ops : List CommitOp)
    (storage : Storage) : Prop :=
  ∃ failure stored,
    persistence.apply sandbox.uid seq sandbox.principal cmd events ops
        storage = (.error failure, stored) ∨
      ∃ applied,
        persistence.apply sandbox.uid seq sandbox.principal cmd events ops
            storage = (.ok (), applied) ∧
          persistence.append seq sandbox.principal cmd events ops applied =
            (.error failure, stored)

/-- A run that did something passes every check of its conclusion, and its
record is not taken. -/
def RefusedRecord
    (sandbox : Sandbox)
    (cmd : String)
    (completed : Except MuxError Execution)
    (baseSeq : Nat)
    (plan : Plan)
    (state : AuthorityState)
    (storage : Storage) : Prop :=
  ∃ translation, completed = .ok ⟨0, some translation⟩ ∧
    translation.events ≠ [] ∧
    match plan with
    | .transaction =>
        ∃ history ops,
          authorize decide persistence sandbox translation 0 baseSeq state
              storage = .ok (.publish history ops) ∧
            persistence.Refuses sandbox cmd (state.seq + 1) translation.events
              ops storage
    | .bypass =>
        translation.unsupported = none ∧ translation.wroteInRoot = false ∧
          (∀ event ∈ translation.events, event.action = .read) ∧
          (checkEvents decide state.history translation.events).1 = [] ∧
          ∃ failure stored,
            persistence.append state.seq sandbox.principal cmd
              translation.events [] storage = (.error failure, stored)

variable {decide persistence}

/-- Granting events extends the history by at least one. -/
theorem not_authorityKept_of_grown
    {failure : MuxError}
    {state : AuthorityState}
    {events : List Event}
    (acted : events ≠ []) :
    ¬ AuthorityKept (.error failure) state
      { state with history := state.history ++ events } := by
  rintro (⟨recorded, reports, -⟩ | ⟨same, -⟩)
  · simp at reports
  · exact acted (List.append_right_eq_self.mp same)

theorem authorityKept_self
    (outcome : Except MuxError CmdOutcome)
    (state : AuthorityState) : AuthorityKept outcome state state :=
  .inr ⟨rfl, rfl, rfl⟩

/-- A commit whose record is not taken leaves the state it was given, and one
whose record is taken reports a sequence number. -/
theorem recordCommit_cases
    {state next : AuthorityState}
    {sandbox : Sandbox}
    {cmd : String}
    {events : List Event}
    {ops : List CommitOp}
    {storage stored : Storage}
    {outcome : Except MuxError Nat}
    (recorded : recordCommit persistence state sandbox cmd events ops storage =
      (outcome, next, stored)) :
    (persistence.Refuses sandbox cmd (state.seq + 1) events ops storage ∧
        (∃ failure, outcome = .error failure) ∧ next = state) ∨
      ¬ persistence.Refuses sandbox cmd (state.seq + 1) events ops storage ∧
        ∃ seq, outcome = .ok seq := by
  unfold recordCommit at recorded
  dsimp only at recorded
  cases applies : persistence.apply sandbox.uid (state.seq + 1)
      sandbox.principal cmd events ops storage with
  | mk applied storage' =>
      cases applied with
      | error failure =>
          rw [applies] at recorded
          obtain ⟨rfl, rfl, rfl⟩ := by simpa using recorded
          exact .inl ⟨⟨failure, _, .inl applies⟩, ⟨failure, rfl⟩, rfl⟩
      | ok done =>
          rw [applies] at recorded
          cases appends : persistence.append (state.seq + 1) sandbox.principal
              cmd events ops storage' with
          | mk appended storage'' =>
              cases appended with
              | error failure =>
                  simp only [appends] at recorded
                  obtain ⟨rfl, rfl, rfl⟩ := by simpa using recorded
                  exact .inl ⟨⟨failure, _, .inr ⟨_, applies, appends⟩⟩,
                    ⟨failure, rfl⟩, rfl⟩
              | ok done =>
                  simp only [appends] at recorded
                  obtain ⟨rfl, -⟩ := by simpa using recorded
                  refine .inr ⟨?_, _, rfl⟩
                  rintro ⟨failure, stored, refused | ⟨taken, applied, refused⟩⟩
                  · simp [applies] at refused
                  · rw [applies] at applied
                    obtain rfl := (Prod.mk.inj applied).2
                    simp [appends] at refused

theorem authorityKept_transaction
    {sandbox : Sandbox}
    {cmd : String}
    {translation : Translation}
    {exitCode : Int}
    {baseSeq : Nat}
    {state next : AuthorityState}
    {storage stored : Storage}
    {outcome : Except MuxError CmdOutcome}
    (concluded : concludeTransaction decide persistence sandbox cmd translation
      exitCode baseSeq state storage = (outcome, next, stored)) :
    AuthorityKept outcome state next ↔
      ¬ RefusedRecord decide persistence sandbox cmd
        (.ok ⟨exitCode, some translation⟩) baseSeq .transaction state
        storage := by
  unfold concludeTransaction at concluded
  split at concluded
  · rename_i failure unauthorized
    obtain ⟨rfl, rfl, rfl⟩ := by simpa using concluded
    refine iff_of_true (authorityKept_self _ _) ?_
    rintro ⟨_, left, -, history, ops, authorized, -⟩
    obtain ⟨rfl, rfl⟩ := by simpa using left
    simp [unauthorized] at authorized
  · rename_i settled unauthorized
    obtain ⟨rfl, rfl, rfl⟩ := by simpa using concluded
    refine iff_of_true (authorityKept_self _ _) ?_
    rintro ⟨_, left, -, history, ops, authorized, -⟩
    obtain ⟨rfl, rfl⟩ := by simpa using left
    simp [unauthorized] at authorized
  · rename_i history ops authorized
    have publishable := publishable_of_authorize authorized
    obtain rfl := checkEvents_append decide publishable.granted
    obtain rfl := publishable.succeeded
    split at concluded
    · rename_i failure kept storage' recorded
      obtain ⟨rfl, rfl, rfl⟩ := by simpa using concluded
      obtain ⟨refuses, -, rfl⟩ | ⟨-, seq, taken⟩ := recordCommit_cases recorded
      · by_cases acted : translation.events = []
        · rw [acted, List.append_nil]
          exact iff_of_true (authorityKept_self _ _)
            fun ⟨_, left, events, _⟩ => by
              obtain rfl := by simpa using left
              exact events acted
        · exact iff_of_false (not_authorityKept_of_grown acted)
            (not_not_intro
              ⟨translation, rfl, acted, _, ops, authorized, refuses⟩)
      · simp at taken
    · rename_i seq kept storage' recorded
      obtain ⟨rfl, rfl, rfl⟩ := by simpa using concluded
      obtain ⟨-, ⟨failure, refused⟩, -⟩ | ⟨taken, -⟩ :=
        recordCommit_cases recorded
      · simp at refused
      · refine iff_of_true (.inl ⟨_, rfl, rfl⟩) ?_
        rintro ⟨_, left, -, _, _, again, refuses⟩
        obtain rfl := by simpa using left
        rw [authorized] at again
        obtain ⟨-, rfl⟩ := by simpa using again
        exact taken refuses

theorem authorityKept_bypass
    {sandbox : Sandbox}
    {cmd : String}
    {translation : Translation}
    {exitCode : Int}
    {baseSeq : Nat}
    {state next : AuthorityState}
    {storage stored : Storage}
    {outcome : Except MuxError CmdOutcome}
    (concluded : concludeBypass decide persistence sandbox cmd translation
      exitCode state storage = (outcome, next, stored)) :
    AuthorityKept outcome state next ↔
      ¬ RefusedRecord decide persistence sandbox cmd
        (.ok ⟨exitCode, some translation⟩) baseSeq .bypass state storage := by
  unfold concludeBypass at concluded
  dsimp only at concluded
  split_ifs at concluded with escaped failed idle
  · obtain ⟨rfl, rfl, rfl⟩ := by simpa using concluded
    refine iff_of_true (authorityKept_self _ _) ?_
    rintro ⟨_, left, -, supported, unwritten, onlyReads, -⟩
    obtain ⟨rfl, rfl⟩ := by simpa using left
    simp only [supported, unwritten, Option.isSome_none, Bool.false_or,
      List.any_eq_true, decide_eq_true_eq] at escaped
    obtain ⟨event, member, other⟩ := escaped
    exact other (onlyReads event member)
  · obtain ⟨rfl, rfl, rfl⟩ := by simpa using concluded
    refine iff_of_true (authorityKept_self _ _) ?_
    rintro ⟨_, left, -⟩
    exact failed (by simpa using left : exitCode = 0 ∧ _).1
  · obtain ⟨rfl, rfl, rfl⟩ := by simpa using concluded
    refine iff_of_true (authorityKept_self _ _) ?_
    rintro ⟨_, left, acted, -⟩
    obtain ⟨-, rfl⟩ := by simpa using left
    exact acted (List.isEmpty_iff.mp idle)
  · split at concluded
    · rename_i denial denials extended denied
      obtain ⟨rfl, rfl, rfl⟩ := by simpa using concluded
      refine iff_of_true (authorityKept_self _ _) ?_
      rintro ⟨_, left, -, -, -, -, granted, -⟩
      obtain ⟨-, rfl⟩ := by simpa using left
      simp [denied] at granted
    · rename_i history granted
      obtain rfl := checkEvents_append decide granted
      obtain rfl : exitCode = 0 := not_not.mp failed
      simp only [Bool.or_eq_true, not_or, List.any_eq_true, not_exists,
        not_and, decide_eq_true_eq, ne_eq, not_not, Bool.not_eq_true,
        Option.isSome_eq_false_iff, Option.isNone_iff_eq_none] at escaped
      split at concluded
      · rename_i failure storage' refused
        obtain ⟨rfl, rfl, rfl⟩ := by simpa using concluded
        have acted : translation.events ≠ [] := by simpa using idle
        exact iff_of_false (not_authorityKept_of_grown acted) (not_not_intro
          ⟨translation, rfl, acted, escaped.1.1, escaped.1.2, escaped.2,
            by rw [granted], failure, _, refused⟩)
      · rename_i storage' appended
        obtain ⟨rfl, rfl, rfl⟩ := by simpa using concluded
        refine iff_of_true (.inl ⟨_, rfl, rfl⟩) ?_
        rintro ⟨_, left, -, -, -, -, -, failure, _, refused⟩
        obtain rfl := by simpa using left
        simp [appended] at refused

end Conclusion

/-- A conclusion that reports neither a commit nor a bypass leaves the authority
as it was exactly when no granted record was refused. -/
theorem authorityKept_iff_not_refusedRecord
    {Storage : Type}
    (decide : List Event -> Event -> PolicyDecision)
    (persistence : Persistence Storage)
    (sandbox : Sandbox)
    (cmd : String)
    (completed : Except MuxError Execution)
    (baseSeq : Nat)
    (plan : Plan)
    (state : AuthorityState)
    (storage : Storage) :
    AuthorityKept
        (conclude decide persistence sandbox cmd completed baseSeq plan state
          storage).1
        state
        (conclude decide persistence sandbox cmd completed baseSeq plan state
          storage).2.1 ↔
      ¬ RefusedRecord decide persistence sandbox cmd completed baseSeq plan
        state storage := by
  rcases completed with failure | ⟨exitCode, translation⟩
  · refine iff_of_true (authorityKept_self _ _) ?_
    rintro ⟨_, left, -⟩
    simp at left
  · cases translation with
    | none =>
        refine iff_of_true (authorityKept_self _ _) ?_
        rintro ⟨_, left, -⟩
        simp at left
    | some translation =>
        cases plan with
        | transaction => exact authorityKept_transaction rfl
        | bypass => exact authorityKept_bypass rfl

/-- A seed that takes no write. -/
def unwritable : Persistence Unit where
  diffTrees _ _ := .ok [.write ["a"]]
  apply _ _ _ _ _ _ _ := (.error (.io "no space left on device"), ())
  append _ _ _ _ _ _ := (.ok (), ())

/-- A granted edit whose commit the seed refuses stays in the history. -/
theorem not_authorityKept_of_unwritable :
    ∃ state : MuxState Unit, (mux gitDecide unwritable).Reachable state ∧
      writer ∈ state.running ∧
      ¬ AuthorityKept
        (conclude gitDecide unwritable writer.sandbox writer.cmd wroteA
          writer.baseSeq writer.plan state.authority state.storage).1
        state.authority
        (conclude gitDecide unwritable writer.sandbox writer.cmd wroteA
          writer.baseSeq writer.plan state.authority state.storage).2.1 := by
  have start : (mux gitDecide unwritable).Reachable idle :=
    .start ⟨rfl, [], rfl, rfl⟩
  have launched : (mux gitDecide unwritable).Reachable
      { idle with running := [writer] } :=
    .step (.launch writer.sandbox writer.cmd .transaction) start ⟨rfl, rfl⟩
  have concluded : conclude gitDecide unwritable writer.sandbox writer.cmd wroteA
      writer.baseSeq writer.plan .fresh () =
        (.error (.io "no space left on device"),
          { AuthorityState.fresh with
            history := [] ++ [⟨⟨"alice"⟩, .edit, ⟨["a"]⟩⟩] }, ()) := by
    change concludeTransaction gitDecide unwritable writer.sandbox writer.cmd
      ⟨[⟨⟨"alice"⟩, .edit, ⟨["a"]⟩⟩], none, [], true⟩ 0 0 .fresh () = _
    rw [concludeTransaction, authorize_wroteA rfl]
    rfl
  refine ⟨_, launched, by simp, ?_⟩
  simp only [idle, concluded]
  exact not_authorityKept_of_grown (by simp)

end Shellmux
end Marsh
