import Marsh.Policy.GitReference
import Marsh.Shellmux.Interleaving

/-!
# Validity of recorded reads

A transaction's reads are checked against the generations before they are
recorded; a bypass's reads are not.  A recorded read is therefore of current
content, unless a commit landed under a bypass that read the path.
-/

namespace Marsh
namespace Shellmux

open Library Validator Policy

section System

variable {Storage : Type}
variable {decide : List Event -> Event -> PolicyDecision}
variable {persistence : Persistence Storage}

/-- No path whose read the conclusion appended was written after the version
its reader saw. -/
def ReadsValid (command : Command) (before after : AuthorityState) : Prop :=
  ∀ event ∈ after.history.drop before.history.length, event.action = .read ->
    ∀ merged ∈ before.generations[event.resource.display]?,
      merged ≤ command.baseSeq

/-- The run of a bypass left reads that its conclusion appends: it succeeded,
did nothing but read, and each of its reads is granted after those before. -/
def Appends
    (decide : List Event -> Event -> PolicyDecision)
    (history : List Event)
    (completed : Except MuxError Execution) : Prop :=
  ∃ translation : Translation, completed = .ok ⟨0, some translation⟩ ∧
    translation.unsupported = none ∧ translation.wroteInRoot = false ∧
    translation.events ≠ [] ∧
    (∀ event ∈ translation.events, event.action = .read) ∧
    ∀ before event after, translation.events = before ++ event :: after ->
      decide (history ++ before) event = .grant

/-- A bypass that appends its reads does so while nothing has been written
since its launch, so that its reader tree is still what the seed is. -/
def MuxState.Undisturbed
    (decide : List Event -> Event -> PolicyDecision)
    (state : MuxState Storage) : MuxStep -> Prop
  | .conclude command completed =>
      command.plan = .bypass ->
        Appends decide state.authority.history completed -> command.landed = []
  | _ => True

/-- A transaction records only reads of current content. -/
theorem readsValid_of_transaction
    {command : Command}
    {completed : Except MuxError Execution}
    {state next : AuthorityState}
    {storage stored : Storage}
    {outcome : Except MuxError CmdOutcome}
    (concludes : Concludes decide persistence command.sandbox command.cmd
      completed command.baseSeq command.plan state storage outcome next stored)
    (transaction : command.plan = .transaction) :
    ReadsValid command state next := by
  have valid : ∀ translation ops, Publishable decide persistence
      command.sandbox translation 0 command.baseSeq state storage
      (state.history ++ translation.events) ops ->
      ∀ event ∈ (state.history ++ translation.events).drop state.history.length,
        ∀ merged ∈ state.generations[event.resource.display]?,
          merged ≤ command.baseSeq := by
    intro translation ops publishable event appended
    rw [List.drop_left] at appended
    exact publishable.fresh _ (.inr (.inl ⟨event, appended, rfl⟩))
  cases concludes with
  | unchanged => simp [ReadsValid]
  | reads translation logged stored bypass =>
      rw [transaction] at bypass
      cases bypass
  | failed translation ops failure stored _ _ publishable =>
      exact fun event appended _ => valid translation ops publishable event
        appended
  | recorded translation ops applied stored _ _ publishable =>
      exact fun event appended _ => valid translation ops publishable event
        appended

/-- What a check granted, it granted one by one. -/
theorem granted_of_checkEvents
    {history extended events : List Event}
    (granted : checkEvents decide history events = ([], extended))
    {before after : List Event}
    {event : Event}
    (split : events = before ++ event :: after) :
    decide (history ++ before) event = .grant := by
  subst split
  induction before generalizing history with
  | nil =>
      rw [List.nil_append, checkEvents] at granted
      rw [List.append_nil]
      cases decided : decide history event with
      | grant => rfl
      | deny failedPrecondition allowedFixes =>
          rw [decided, Prod.mk.injEq] at granted
          exact absurd granted.1 (List.cons_ne_nil _ _)
  | cons first before hypothesis =>
      rw [List.cons_append, checkEvents] at granted
      cases decided : decide history first with
      | grant =>
          rw [decided] at granted
          rw [List.append_cons]
          exact hypothesis granted
      | deny failedPrecondition allowedFixes =>
          rw [decided, Prod.mk.injEq] at granted
          exact absurd granted.1 (List.cons_ne_nil _ _)

/-- A bypass changes the history only when its run left reads to append. -/
theorem appends_of_concludeBypass
    {sandbox : Sandbox}
    {cmd : String}
    {translation : Translation}
    {exitCode : Int}
    {state next : AuthorityState}
    {storage stored : Storage}
    {outcome : Except MuxError CmdOutcome}
    (concluded : concludeBypass decide persistence sandbox cmd translation
      exitCode state storage = (outcome, next, stored)) :
    next = state ∨
      Appends decide state.history (.ok ⟨exitCode, some translation⟩) := by
  unfold concludeBypass at concluded
  dsimp only at concluded
  split_ifs at concluded with escaped failed idle
  · exact .inl (Prod.mk.inj (Prod.mk.inj concluded).2).1.symm
  · exact .inl (Prod.mk.inj (Prod.mk.inj concluded).2).1.symm
  · exact .inl (Prod.mk.inj (Prod.mk.inj concluded).2).1.symm
  · split at concluded
    · exact .inl (Prod.mk.inj (Prod.mk.inj concluded).2).1.symm
    · rename_i history granted
      simp only [Bool.or_eq_true, not_or, Option.isSome_iff_ne_none, not_not,
        List.any_eq_true, not_exists, not_and, decide_eq_true_eq, ne_eq,
        Bool.not_eq_true] at escaped
      obtain rfl : exitCode = 0 := not_not.mp failed
      exact .inr ⟨translation, rfl, escaped.1.1, escaped.1.2,
        fun none => idle (List.isEmpty_iff.mpr none), escaped.2,
        fun _ _ _ => granted_of_checkEvents granted⟩

/-- A conclusion that appends nothing appends no stale read. -/
theorem ReadsValid.unchanged (command : Command) (state : AuthorityState) :
    ReadsValid command state state := by
  simp [ReadsValid]

/-- A bypass records only reads of current content when nothing was written
while it ran. -/
theorem readsValid_of_undisturbed_bypass
    {command : Command}
    {completed : Except MuxError Execution}
    {state : MuxState Storage}
    {next : AuthorityState}
    {stored : Storage}
    {outcome : Except MuxError CmdOutcome}
    (concluded : conclude decide persistence command.sandbox command.cmd
      completed command.baseSeq command.plan state.authority state.storage =
        (outcome, next, stored))
    (versioned : state.Versioned)
    (running : command ∈ state.running)
    (bypass : command.plan = .bypass)
    (undisturbed : state.Undisturbed decide (.conclude command completed)) :
    ReadsValid command state.authority next := by
  have changes : next = state.authority ∨
      Appends decide state.authority.history completed := by
    obtain failure | ⟨exitCode, none | translation⟩ := completed
    · exact .inl (Prod.mk.inj (Prod.mk.inj concluded).2).1.symm
    · exact .inl (Prod.mk.inj (Prod.mk.inj concluded).2).1.symm
    · rw [bypass] at concluded
      exact appends_of_concludeBypass concluded
  obtain rfl | appends := changes
  · exact .unchanged command state.authority
  · intro event _ _ merged mergedEq
    by_contra newer
    have written := (versioned.newer command running _).mp
      ⟨merged, mergedEq, Nat.lt_of_not_le newer⟩
    rw [undisturbed bypass appends] at written
    contradiction

/-- As soon as something is written under a running bypass, reading it is
recorded although its content is not what was read. -/
theorem not_readsValid_of_landed
    {state : MuxState Storage}
    (reachable : (mux decide persistence).Reachable state)
    {command : Command}
    (running : command ∈ state.running)
    (bypass : command.plan = .bypass)
    {resource : Resource}
    (written : resource.display ∈ command.landed.map CommitOp.path)
    (granted : decide state.authority.history
      ⟨⟨command.sandbox.principal⟩, .read, resource⟩ = .grant) :
    ∃ (completed : Except MuxError Execution) (next : MuxState Storage),
      (mux decide persistence).step state (.conclude command completed) next ∧
        ¬ ReadsValid command state.authority next.authority := by
  let event : Event := ⟨⟨command.sandbox.principal⟩, .read, resource⟩
  let completed : Except MuxError Execution :=
    .ok ⟨0, some ⟨[event], none, [], false⟩⟩
  let claimed : AuthorityState :=
    { state.authority with history := state.authority.history ++ [event] }
  obtain ⟨before, after, split⟩ := List.append_of_mem running
  have concluded : ∃ outcome stored, conclude decide persistence
      command.sandbox command.cmd completed command.baseSeq command.plan
      state.authority state.storage = (outcome, claimed, stored) := by
    rw [bypass]
    change ∃ outcome stored, concludeBypass decide persistence command.sandbox
      command.cmd ⟨[event], none, [], false⟩ 0 state.authority state.storage =
        (outcome, claimed, stored)
    simp only [concludeBypass, checkEvents, granted, event]
    cases persistence.append state.authority.seq command.sandbox.principal
        command.cmd [event] [] state.storage with
    | mk logged stored => cases logged <;> exact ⟨_, _, rfl⟩
  obtain ⟨outcome, stored, concluded⟩ := concluded
  refine ⟨completed,
    ⟨claimed, stored, (before ++ after).map fun other => other.land <|
      recordedOps persistence command completed state.storage state.authority
        claimed⟩,
    ⟨running, outcome, concluded, before, after, split, rfl⟩, fun valid => ?_⟩
  obtain ⟨merged, mergedEq, newer⟩ :=
    ((versioned_of_reachable reachable).newer command running _).mpr written
  exact absurd (valid event (by simp [claimed]) rfl merged mergedEq)
    (Nat.not_le_of_lt newer)

/-- In every run whose appending bypasses are undisturbed, every conclusion
records only reads of content that nobody had written since the reader's
version; and a bypass under which a readable path was written has a conclusion
that does not. -/
theorem readsValid_of_undisturbed
    {state : MuxState Storage}
    (reachable : ((mux decide persistence).restrict
      (MuxState.Undisturbed decide)).Reachable state) :
    (∀ (command : Command) (completed : Except MuxError Execution)
      (next : MuxState Storage),
      ((mux decide persistence).restrict (MuxState.Undisturbed decide)).step
        state (.conclude command completed) next ->
      ReadsValid command state.authority next.authority) ∧
    ∀ command ∈ state.running, command.plan = .bypass -> ∀ resource : Resource,
      resource.display ∈ command.landed.map CommitOp.path ->
      decide state.authority.history
        ⟨⟨command.sandbox.principal⟩, .read, resource⟩ = .grant ->
      ∃ (completed : Except MuxError Execution) (next : MuxState Storage),
        (mux decide persistence).step state (.conclude command completed) next ∧
          ¬ ReadsValid command state.authority next.authority := by
  refine ⟨?_, fun command running bypass resource => not_readsValid_of_landed
    reachable.of_restrict running bypass⟩
  rintro command completed next
    ⟨⟨running, outcome, concluded, -⟩, undisturbed⟩
  cases plan : command.plan with
  | transaction =>
      exact readsValid_of_transaction (concludes_of_conclude concluded) plan
  | bypass =>
      exact readsValid_of_undisturbed_bypass concluded
        (versioned_of_reachable reachable.of_restrict) running plan undisturbed

end System

/-! ## A disturbed bypass -/

/-- Decisions of the git policy. -/
def gitDecide (history : List Event) (candidate : Event) : PolicyDecision :=
  (Git.stateOf candidate.resource history).decide candidate

/-- Storage on which every transaction writes `a` and nothing fails. -/
def writesA : Persistence Unit where
  diffTrees _ _ := .ok [.write ["a"]]
  apply _ _ _ _ _ _ _ := (.ok (), ())
  append _ _ _ _ _ _ := (.ok (), ())

/-- Nothing has run yet. -/
def idle : MuxState Unit where
  authority := .fresh
  storage := ()
  running := []

/-- A writer and a bypassing reader of `a`, both launched at version 0. -/
def writer : Command where
  sandbox := ⟨"alice", "u1"⟩
  cmd := "printf x > a"
  plan := .transaction
  baseSeq := 0
  landed := []

def reader : Command where
  sandbox := ⟨"bob", "u2"⟩
  cmd := "cat a"
  plan := .bypass
  baseSeq := 0
  landed := []

/-- What the writer's run left. -/
def wroteA : Except MuxError Execution :=
  .ok ⟨0, some ⟨[⟨⟨"alice"⟩, .edit, ⟨["a"]⟩⟩], none, [], true⟩⟩

/-- What the reader's run left. -/
def readA : Except MuxError Execution :=
  .ok ⟨0, some ⟨[⟨⟨"bob"⟩, .read, ⟨["a"]⟩⟩], none, [], false⟩⟩

/-- The authority after the writer's commit. -/
def wrote : AuthorityState :=
  AuthorityState.fresh.record [⟨⟨"alice"⟩, .edit, ⟨["a"]⟩⟩] [.write ["a"]]

/-- The writer's commit may be published on any storage whose diff is `a`. -/
theorem authorize_wroteA
    {Storage : Type}
    {persistence : Persistence Storage}
    {storage : Storage}
    (diffed : persistence.diffTrees writer.sandbox.uid storage =
      .ok [.write ["a"]]) :
    authorize gitDecide persistence writer.sandbox
        ⟨[⟨⟨"alice"⟩, .edit, ⟨["a"]⟩⟩], none, [], true⟩ 0 0 .fresh storage =
      .ok (.publish [⟨⟨"alice"⟩, .edit, ⟨["a"]⟩⟩] [.write ["a"]]) := by
  have fresh : stalePaths AuthorityState.fresh.generations 0 [.write ["a"]]
      [⟨⟨"alice"⟩, .edit, ⟨["a"]⟩⟩] [] = [] :=
    stalePaths_eq_nil_iff.mpr (by simp [AuthorityState.fresh])
  simp only [authorize, writeSet, diffed, if_true, fresh]
  rfl

/-- The writer commits on any storage whose diff is `a` and that takes the
commit. -/
theorem conclude_wroteA
    {Storage : Type}
    {persistence : Persistence Storage}
    {storage applied stored : Storage}
    (diffed : persistence.diffTrees writer.sandbox.uid storage =
      .ok [.write ["a"]])
    (applies : persistence.apply writer.sandbox.uid
      (AuthorityState.fresh.seq + 1) writer.sandbox.principal writer.cmd
      [⟨⟨"alice"⟩, .edit, ⟨["a"]⟩⟩] [.write ["a"]] storage = (.ok (), applied))
    (appends : persistence.append (AuthorityState.fresh.seq + 1)
      writer.sandbox.principal writer.cmd [⟨⟨"alice"⟩, .edit, ⟨["a"]⟩⟩]
      [.write ["a"]] applied = (.ok (), stored)) :
    conclude gitDecide persistence writer.sandbox writer.cmd wroteA
        writer.baseSeq writer.plan .fresh storage =
      (.ok (.committed 1 0 [⟨⟨"alice"⟩, .edit, ⟨["a"]⟩⟩]), wrote, stored) := by
  change concludeTransaction gitDecide persistence writer.sandbox writer.cmd
    ⟨[⟨⟨"alice"⟩, .edit, ⟨["a"]⟩⟩], none, [], true⟩ 0 0 .fresh storage = _
  rw [concludeTransaction, authorize_wroteA diffed]
  dsimp only
  rw [recordCommit]
  dsimp only
  rw [applies]
  dsimp only
  rw [appends]
  rfl

theorem conclude_writer :
    conclude gitDecide writesA writer.sandbox writer.cmd wroteA writer.baseSeq
        writer.plan .fresh () =
      (.ok (.committed 1 0 [⟨⟨"alice"⟩, .edit, ⟨["a"]⟩⟩]), wrote, ()) :=
  conclude_wroteA rfl rfl rfl

/-- The writer and the reader are running, and the writer concludes. -/
theorem reachable_disturbed :
    ((mux gitDecide writesA).restrict
      (MuxState.Undisturbed gitDecide)).Reachable
      ⟨wrote, (), [reader.land [.write ["a"]]]⟩ := by
  have start : ((mux gitDecide writesA).restrict
      (MuxState.Undisturbed gitDecide)).Reachable idle :=
    .start ⟨rfl, [], rfl, rfl⟩
  have first : ((mux gitDecide writesA).restrict
      (MuxState.Undisturbed gitDecide)).Reachable
      { idle with running := [writer] } := by
    exact .step (.launch writer.sandbox writer.cmd .transaction) start
      ⟨⟨rfl, rfl⟩, trivial⟩
  have second : ((mux gitDecide writesA).restrict
      (MuxState.Undisturbed gitDecide)).Reachable
      { idle with running := [writer, reader] } := by
    exact .step (.launch reader.sandbox reader.cmd .bypass) first
      ⟨⟨rfl, rfl⟩, trivial⟩
  exact .step (.conclude writer wroteA) second
    ⟨⟨by simp, _, conclude_writer, [], [reader], rfl, rfl⟩, nofun⟩

/-- A bypassed read is recorded although a commit wrote the path after the
version its reader saw. -/
theorem not_readsValid_of_bypass :
    ∃ (state next : MuxState Unit) (command : Command)
      (completed : Except MuxError Execution),
      (mux gitDecide writesA).Reachable state ∧
        (mux gitDecide writesA).step state (.conclude command completed) next ∧
        ¬ ReadsValid command state.authority next.authority := by
  let claimed : AuthorityState :=
    { wrote with history := wrote.history ++ [⟨⟨"bob"⟩, .read, ⟨["a"]⟩⟩] }
  refine ⟨_, ⟨claimed, (), []⟩, reader.land [.write ["a"]], readA,
    reachable_disturbed.of_restrict,
    ⟨by simp, .ok (.bypassed 0 [⟨⟨"bob"⟩, .read, ⟨["a"]⟩⟩]), rfl, [], [], rfl,
      rfl⟩, ?_⟩
  intro valid
  have stale := valid ⟨⟨"bob"⟩, .read, ⟨["a"]⟩⟩ (by simp [claimed]) rfl 1 rfl
  exact absurd stale (by decide)

/-- A bypassing reader of `a` that is launched at version 1. -/
def laterReader : Command where
  sandbox := ⟨"carol", "u3"⟩
  cmd := "cat a"
  plan := .bypass
  baseSeq := 1
  landed := []

/-- The reader that the commit disturbed fails, and one that was launched after
the commit records a valid read of what it wrote. -/
theorem readsValid_of_undisturbed_laterReader :
    ReadsValid laterReader wrote { wrote with
      history := wrote.history ++ [⟨⟨"carol"⟩, .read, ⟨["a"]⟩⟩] } := by
  have launched : ((mux gitDecide writesA).restrict
      (MuxState.Undisturbed gitDecide)).Reachable
      ⟨wrote, (), [reader.land [.write ["a"]], laterReader]⟩ := by
    exact .step (.launch laterReader.sandbox laterReader.cmd .bypass)
      reachable_disturbed ⟨⟨rfl, rfl⟩, trivial⟩
  have failed : ((mux gitDecide writesA).restrict
      (MuxState.Undisturbed gitDecide)).Reachable
      ⟨wrote, (), [laterReader]⟩ := by
    refine .step (.conclude (reader.land [.write ["a"]]) (.ok ⟨1, some
      ⟨[⟨⟨"bob"⟩, .read, ⟨["a"]⟩⟩], none, [], false⟩⟩)) launched
      ⟨⟨by simp, .ok (.execFailed 1), rfl, [], [laterReader], rfl, rfl⟩, ?_⟩
    rintro - ⟨translation, left, -⟩
    cases left
  refine (readsValid_of_undisturbed failed).1 laterReader (.ok ⟨0, some
    ⟨[⟨⟨"carol"⟩, .read, ⟨["a"]⟩⟩], none, [], false⟩⟩) ⟨_, (), []⟩
    ⟨⟨by simp, .ok (.bypassed 0 [⟨⟨"carol"⟩, .read, ⟨["a"]⟩⟩]), rfl, [], [],
      rfl, rfl⟩, fun _ _ => rfl⟩

end Shellmux
end Marsh
