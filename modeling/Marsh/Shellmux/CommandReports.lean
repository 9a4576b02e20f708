import Marsh.Shellmux.CommandAccounts

/-!
# Reports of commands

Between taking an ended command off its row and submitting its conclusion
`reap_command` holds no lock, and the row looks idle.  A command that starts
there shares the row's callback with its predecessor, and a stop takes the row
away from it.
-/

namespace Marsh
namespace Shellmux

open Library

/-! ## What a run must not do -/

/-- A command is published in its own row, with nothing unconcluded in it and
without being reported as a failed launch; no row is removed that has something
unconcluded; and a failed launch finds no callback. -/
def DeliveryState.KeepsCommands
    (state : DeliveryState) : DeliveryStep -> Prop
  | .job (.publish id origin started killed) _ _ =>
      ∀ job, state.row id = some job ->
        ¬ state.Busy job ∧ job.sandbox = started.sandbox ∧
          ¬ ((job.retired && !killed) = true ∧ origin ∈ state.owned)
  | .job step _ _ =>
      ∀ job ∈ state.jobs.table.rows, state.jobs.Removes step job ->
        ¬ state.Busy job
  | .refuseSize sandbox =>
      ∀ job ∈ state.jobs.table.rows, job.id = sandbox.id -> ¬ state.Busy job
  | .deliverFailure id _ =>
      ∀ job, state.row id = some job -> state.dones job.sandbox.uid = none
  | _ => True

theorem DeliveryState.opened_of_step
    {state next : DeliveryState}
    {step : DeliveryStep}
    (steps : state.Steps step next)
    (session : next.phase = .session)
    (opened : state.jobs.queue.closed = false) :
    next.jobs.queue.closed = false := by
  cases step with
  | job step done exitCode =>
      obtain ⟨jobs, steps, -, rfl⟩ := steps
      cases step with
      | closeSandbox sandbox =>
          obtain rfl := steps
          exact opened
      | cancel | killAll | releaseAll => cases session
      | _ => exact JobState.queue_open_of_step opened steps trivial
  | abort =>
      obtain ⟨-, rfl⟩ := steps
      cases session
  | join =>
      obtain ⟨-, -, -, -, -, rfl⟩ := steps
      cases session
  | refuseSize | announceOpened | deliverFailure | announceFinished | read
  | announceClosed | onFinish =>
      simp only [Steps] at steps
      grind

namespace CompletionState

variable {state next : CompletionState} {step : DeliveryStep}

/-! ## Runs -/

/-- A section whose kind the ledger does not record leaves it. -/
theorem ledgerAfter_of_section
    {step : JobStep}
    {done : Option Nat}
    {exitCode : Int}
    (unpublishing : ∀ id origin started killed,
      step ≠ .publish id origin started killed)
    (unreaping : ∀ id pid, step ≠ .reap id pid)
    (unconcluding : ∀ retained, step ≠ .conclude retained) :
    state.ledgerAfter (.job step done exitCode) = state.ledger := by
  cases step with
  | publish => exact absurd rfl (unpublishing _ _ _ _)
  | reap => exact absurd rfl (unreaping _ _)
  | conclude => exact absurd rfl (unconcluding _)
  | _ => rfl

theorem reaped_of_other
    {id : String}
    {pid : Nat}
    (other : ∀ job started, state.session.row id = some job ->
      job.running = some started -> started.pid ≠ pid) :
    state.reaped id pid = state.ledger := by
  rw [reaped]
  cases found : state.session.row id with
  | none => rfl
  | some job =>
      dsimp only
      cases running : job.running with
      | none => rfl
      | some started => exact if_neg (other job started found running)

namespace Accounted

/-- A section keeps the accounts. -/
theorem of_section
    (accounted : state.Accounted)
    {step : JobStep}
    {done : Option Nat}
    {exitCode : Int}
    {jobs : JobState}
    (steps : state.session.jobs.Steps step jobs)
    (ready : state.session.Ready done step)
    (keeps : state.session.KeepsCommands (.job step done exitCode))
    (session : next.session = state.session.after step done exitCode jobs)
    (ledger : next.ledger = state.ledgerAfter (.job step done exitCode))
    (formed : next.session.jobs.WellFormed)
    (opened : next.session.jobs.queue.closed = false)
    (once : next.session.CalledOnce) : next.Accounted := by
  obtain ⟨unconcluded, other, unconcluding⟩ |
    ⟨id, pid, job, started, rfl, found, running, ends, unconcluded⟩ |
    ⟨retained, conclusion, rfl, concluding, unconcluded⟩ :=
      JobState.unconcluded_of_step accounted.opened steps
  · by_cases publishes : ∃ id origin started killed,
        step = .publish id origin started killed
    · obtain ⟨id, origin, started, killed, rfl⟩ := publishes
      cases found : state.session.row id with
      | none =>
          refine accounted.of_quiet formed opened once ?_ ?_
          · rw [session]
            exact DeliveryState.quiet_of_publish steps ready unconcluded found
          · rw [ledger]
            simp only [ledgerAfter, published, found]
      | some job =>
          obtain ⟨idle, own, reported⟩ := keeps job found
          exact accounted.of_publish steps ready found idle own reported
            unconcluded session ledger formed opened once
    · by_cases reaps : ∃ id pid, step = .reap id pid
      · obtain ⟨id, pid, rfl⟩ := reaps
        refine accounted.of_quiet formed opened once ?_ ?_
        · rw [session]
          exact DeliveryState.quiet_of_reap steps ready unconcluded
            fun job started => other id pid job started rfl
        · rw [ledger]
          exact reaped_of_other fun job started => other id pid job started rfl
      · have unpublishing : ∀ id origin started killed,
            step ≠ .publish id origin started killed :=
          fun id origin started killed same =>
            publishes ⟨id, origin, started, killed, same⟩
        have unreaping : ∀ id pid, step ≠ .reap id pid :=
          fun id pid same => reaps ⟨id, pid, same⟩
        refine accounted.of_quiet formed opened once ?_ ?_
        · rw [session]
          refine DeliveryState.quiet_of_section accounted.formed steps ready
            unconcluded unpublishing unreaping unconcluding ?_
          cases step with
          | publish => exact absurd rfl (unpublishing _ _ _ _)
          | _ => exact keeps
        · rw [ledger]
          exact ledgerAfter_of_section unpublishing unreaping unconcluding
  · refine accounted.of_reap steps found running ends unconcluded session ?_
      formed opened once
    rw [ledger]
    have row : state.session.row id = some job := found
    simp only [ledgerAfter, reaped, row, running, if_pos ends]
  · refine accounted.of_conclude steps concluding unconcluded session ?_ formed
      opened once
    rw [ledger]
    simp only [ledgerAfter, concluding]

/-- Every step of a run that keeps its commands keeps the accounts. -/
theorem of_step
    (accounted : state.Accounted)
    (steps : state.Steps step next)
    (keeps : state.session.KeepsCommands step) : next.Accounted := by
  obtain ⟨steps, phase, ledger⟩ := steps
  have formed := DeliveryState.formed_of_step accounted.formed steps
  have opened := DeliveryState.opened_of_step steps phase accounted.opened
  have once := accounted.once.of_step steps
  have quiet : state.session.Quiet next.session ->
      state.ledgerAfter step = state.ledger -> next.Accounted :=
    fun quiet same =>
      accounted.of_quiet formed opened once quiet (ledger.trans same)
  cases step with
  | job step done exitCode =>
      obtain ⟨jobs, steps, ready, session⟩ := steps
      exact accounted.of_section steps ready keeps session ledger formed opened
        once
  | refuseSize sandbox =>
      exact quiet (DeliveryState.quiet_of_refuseSize steps keeps) rfl
  | deliverFailure id origin =>
      exact quiet (DeliveryState.quiet_of_deliverFailure steps keeps) rfl
  | announceOpened sandbox =>
      refine quiet ?_ rfl
      obtain ⟨rest, under, session⟩ := steps
      rw [session, ← Multiset.singleton_add]
      exact DeliveryState.quiet_of_delivery under rfl
        (by simp [Delivery.done, Delivery.concludes, Delivery.source]) rfl
  | announceFinished source origin shell exitCode done =>
      cases source with
      | conclusion => exact accounted.of_announce steps ledger formed opened once
      | launch =>
          exact accounted.of_announceFailure steps ledger formed opened once
  | read shell terminal instrumentation stream result =>
      refine quiet ?_ rfl
      obtain ⟨rest, under, -, session⟩ := steps
      rw [session, ← Multiset.singleton_add]
      refine DeliveryState.quiet_of_delivery under rfl ?_ ?_
      · cases stream <;>
          simp [Delivery.done, Delivery.concludes, Delivery.source]
      · cases stream <;> cases result <;> rfl
  | announceClosed shell =>
      refine quiet ?_ rfl
      obtain ⟨rest, under, -, session⟩ := steps
      rw [session, ← zero_add rest]
      exact DeliveryState.quiet_of_delivery under rfl
        (fun _ member => absurd member (Multiset.notMem_zero _)) rfl
  | onFinish id done =>
      obtain ⟨-, fresh, job, found, running, -, session⟩ := steps
      refine accounted.of_onFinish fresh found running session ?_ once
      rw [ledger]
      simp only [ledgerAfter, found]
  | join =>
      obtain ⟨-, -, -, -, -, session⟩ := steps
      rw [session] at phase
      cases phase
  | abort =>
      obtain ⟨-, session⟩ := steps
      rw [session] at phase
      cases phase

theorem empty : Accounted ⟨.empty, .empty⟩ where
  formed := .empty
  opened := rfl
  once := .empty
  sound := .empty
  recorded := ⟨fun _ _ attached => absurd attached (by simp [Ledger.empty]),
    rfl, rfl⟩
  delivering :=
    ⟨fun concludes => by
      obtain ⟨_, member, -⟩ := concludes
      exact absurd member (Multiset.notMem_zero _), Nat.zero_le _,
      fun _ _ _ _ => Multiset.notMem_zero _⟩
  distinct := Multiset.nodup_zero
  holds _ _ has := absurd has.1 (Nat.not_lt_zero _)
  runs _ member := absurd member List.not_mem_nil
  ends _ member := absurd member (Multiset.notMem_zero _)
  announces _ member := absurd member (Multiset.notMem_zero _)
  dones _ _ holds := by cases holds

/-- What is accounted for is reported, or in progress. -/
theorem commandsReported
    (accounted : state.Accounted) : state.CommandsReported where
  once := accounted.once.called_nodup
  calls := accounted.recorded.called
  codes call member := by
    obtain ⟨command, finished, attached, code⟩ :=
      accounted.sound.codes call member
    exact ⟨command, finished.1, attached, code⟩
  told := accounted.recorded.told
  single := accounted.sound.single
  shells command shell member := by
    obtain ⟨finished, own⟩ := accounted.sound.shells command shell member
    exact ⟨finished.1, own⟩
  launched := accounted.sound.launched
  progress command below := by
    have holds := accounted.holds command _ ⟨below, rfl⟩
    cases stage : state.ledger.stage command with
    | running uid =>
        rw [stage] at holds
        obtain ⟨job, member, ⟨same, busy⟩, -⟩ := holds
        exact .inr (.running member busy (stage.trans (by rw [same])))
    | reaped conclusion =>
        rw [stage] at holds
        exact .inr (.reaped (JobState.mem_unconcluded.mp holds.1) stage)
    | announcing =>
        rw [stage] at holds
        obtain ⟨_, _, _, member, -⟩ := holds
        exact .inr (.announcing member rfl stage)
    | finished =>
        rw [stage] at holds
        exact .inl holds

end Accounted

/-- In every run that publishes each command in its own row with nothing
unconcluded in it, removes no row with something unconcluded, and whose failed
launches find no callback, every callback is called at most once and with its
own command's exit code, and every command is announced once or in progress. -/
theorem commandsReported_of_keepsCommands
    (reachable : (completionMachine.restrict fun state step =>
      state.session.KeepsCommands step).Reachable state) :
    state.CommandsReported := by
  refine Accounted.commandsReported (reachable.invariant Accounted
    (fun state initial => ?_) fun _ _ _ _ accounted steps =>
      accounted.of_step steps.1 steps.2)
  rw [show state = ⟨.empty, .empty⟩ from initial]
  exact .empty

/-! ## The gap before a conclusion is submitted -/

/-- Runs that keep their commands. -/
abbrev keepingMachine : TransitionSystem CompletionState DeliveryStep :=
  completionMachine.restrict fun state step => state.session.KeepsCommands step

/-- The sample command was taken off its row, its conclusion not submitted. -/
def gapState : CompletionState where
  session :=
    { DeliveryState.launchingState with
      jobs := .sample sampleJob {"u1"} {.submitting ⟨"alice", sampleStarted⟩}
      dones := Function.update (fun _ => none) "u1" (some 1)
      owned := []
      registered := [1] }
  ledger := (Ledger.empty.publish "u1" sampleSandbox (some 1)).reap "u1"
    ⟨"alice", sampleStarted⟩

theorem reachable_gapState : keepingMachine.Reachable gapState := by
  have spawned : keepingMachine.Reachable
      ⟨{ DeliveryState.empty with
        jobs := .sample (.reserve "alice" "u1" false (some "printf x > a")) ∅
          {.building "alice" sampleSandbox (some "printf x > a")} }, .empty⟩ :=
    .step (.job (.spawn "alice" "u1" false (some "printf x > a")) none 0)
      (.start rfl)
      ⟨⟨⟨_, ⟨1, ⟨rfl, rfl⟩, List.not_mem_nil, rfl⟩, rfl, rfl⟩, rfl, rfl⟩,
        fun _ _ gone => gone.elim⟩
  have built : keepingMachine.Reachable
      ⟨{ DeliveryState.launchingState with
        deliveries := {.opening sampleSandbox}
        told := [] }, .empty⟩ :=
    .step (.job (.build "alice" sampleSandbox (some "printf x > a")) none 0)
      spawned
      ⟨⟨⟨_, ⟨0, rfl, rfl, rfl⟩, trivial, rfl⟩, rfl, rfl⟩,
        fun _ _ gone => gone.elim⟩
  have announced : keepingMachine.Reachable
      ⟨DeliveryState.launchingState, .empty⟩ :=
    .step (.announceOpened sampleSandbox) built
      ⟨⟨⟨0, rfl, rfl⟩, rfl, rfl⟩, trivial⟩
  have prepared : keepingMachine.Reachable
      ⟨{ DeliveryState.launchingState with
        jobs := .sample sampleJob.start ∅
          {.launching "alice" "printf x > a" sampleSandbox sampleSandbox
            true} }, .empty⟩ :=
    .step (.job (.prepare "alice" "printf x > a" sampleSandbox true) none 0)
      announced
      ⟨⟨⟨_, ⟨0, rfl, rfl⟩, by
        simp [DeliveryState.Ready, DeliveryState.launchingState], rfl⟩, rfl,
        rfl⟩, fun _ _ gone => gone.elim⟩
  have launched : keepingMachine.Reachable
      ⟨{ DeliveryState.launchingState with
        jobs := .sample sampleJob.start {"u1"}
          {.publishing "alice" sampleSandbox sampleStarted}
        unkilled := {7} }, .empty⟩ :=
    .step (.job (.launch "alice" "printf x > a" sampleSandbox sampleSandbox true
      7 .transaction) none 0) prepared
      ⟨⟨⟨_, ⟨0, rfl, rfl⟩, ⟨Finset.notMem_empty 7, by
        simp [JobState.sample, Task.holdsPid]⟩, rfl⟩, rfl, rfl⟩,
        fun _ _ gone => gone.elim⟩
  have published : keepingMachine.Reachable
      ⟨{ DeliveryState.runningState with
        dones := Function.update (fun _ => none) "u1" (some 1)
        registered := [1] },
        Ledger.empty.publish "u1" sampleSandbox (some 1)⟩ := by
    refine .step (.job (.publish "alice" sampleSandbox sampleStarted true)
      (some 1) 0) launched ⟨⟨⟨_, ⟨0, rfl, rfl⟩, ?_, rfl⟩, rfl, rfl⟩, ?_⟩
    · exact fun given _ => List.not_mem_nil
    · intro job found
      obtain rfl := Option.some.inj found
      refine ⟨?_, rfl, by decide⟩
      simp [DeliveryState.Busy, JobState.Unconcluded, JobState.sample,
        JobState.empty, Job.start, sampleJob]
  exact .step (.job (.reap "alice" 7) none 0) published
    ⟨⟨⟨_, ⟨0, rfl, .inl ⟨_, sampleStarted, rfl, rfl, rfl, rfl⟩⟩, trivial, rfl⟩,
      rfl, rfl⟩, fun _ _ gone => gone.elim⟩

/-- A command that is concluded before the next one starts calls its own
callback. -/
theorem commandsReported_of_keepsCommands_sample :
    ∃ state : CompletionState, state.ledger.calls = [(1, 3)] ∧
      state.CommandsReported := by
  have submitted : keepingMachine.Reachable ⟨_, _⟩ :=
    .step (.job (.submit ⟨"alice", sampleStarted⟩) none 0) reachable_gapState
      ⟨⟨⟨_, ⟨0, rfl, rfl⟩, trivial, rfl⟩, rfl, rfl⟩, fun _ _ gone => gone.elim⟩
  have taken : keepingMachine.Reachable ⟨_, _⟩ :=
    .step (.job .take none 0) submitted
      ⟨⟨⟨_, ⟨⟨"alice", sampleStarted⟩, [], rfl, rfl, rfl⟩, trivial, rfl⟩, rfl,
        rfl⟩, fun _ _ gone => gone.elim⟩
  have concluded : keepingMachine.Reachable ⟨_, _⟩ :=
    .step (.job (.conclude false) none 3) taken
      ⟨⟨⟨_, ⟨⟨"alice", sampleStarted⟩, rfl, rfl⟩, trivial, rfl⟩, rfl, rfl⟩,
        fun _ _ gone => gone.elim⟩
  have announced : keepingMachine.Reachable ⟨_, _⟩ :=
    .step (.announceFinished .conclusion sampleSandbox sampleSandbox 3 (some 1))
      concluded
      ⟨⟨⟨{.pumping sampleSandbox true true}, by
        unfold DeliveryState.Under; decide, rfl⟩, rfl, rfl⟩, trivial⟩
  exact ⟨_, rfl, commandsReported_of_keepsCommands announced⟩

/-- A command that starts before its predecessor's conclusion is submitted has its
callback called with the exit code of the predecessor, whose own callback is
dropped. -/
theorem not_commandsReported_gap :
    ∃ state : CompletionState, completionMachine.Reachable state ∧
      ¬ state.CommandsReported := by
  let rest : Multiset Task := {.submitting ⟨"alice", sampleStarted⟩}
  let second : StartedCmd := ⟨8, sampleSandbox, "printf y > b", false⟩
  have reserved : completionMachine.Reachable ⟨_, _⟩ :=
    .step (.job (.startIn "alice" "printf y > b") none 0)
      reachable_gapState.of_restrict
      ⟨⟨_, ⟨_, rfl, rfl, rfl, rfl, rfl⟩, rfl, rfl⟩, rfl, rfl⟩
  have waited : completionMachine.Reachable ⟨_, _⟩ :=
    .step (.job (.waited "alice" "printf y > b" sampleSandbox) none 0) reserved
      ⟨⟨_, ⟨.inr rfl, rest, rfl, rfl⟩, trivial, rfl⟩, rfl, rfl⟩
  have prepared : completionMachine.Reachable ⟨_, _⟩ :=
    .step (.job (.prepare "alice" "printf y > b" sampleSandbox false) none 0)
      waited ⟨⟨_, ⟨rest, rfl, rfl⟩, by simp [DeliveryState.Ready], rfl⟩, rfl,
        rfl⟩
  have launched : completionMachine.Reachable ⟨_, _⟩ :=
    .step (.job (.launch "alice" "printf y > b" sampleSandbox sampleSandbox
      false 8 .transaction) none 0) prepared
      ⟨⟨_, ⟨rest, rfl, rfl⟩, ⟨by decide, by decide⟩, rfl⟩, rfl, rfl⟩
  have published : completionMachine.Reachable ⟨_, _⟩ :=
    .step (.job (.publish "alice" sampleSandbox second true) (some 2) 0)
      launched ⟨⟨_, ⟨rest, rfl, rfl⟩, by
        simp [DeliveryState.Ready, gapState], rfl⟩, rfl,
        rfl⟩
  have submitted : completionMachine.Reachable ⟨_, _⟩ :=
    .step (.job (.submit ⟨"alice", sampleStarted⟩) none 0) published
      ⟨⟨_, ⟨{.watching "alice" 8}, by
        unfold JobState.Pending; decide, rfl⟩, trivial, rfl⟩, rfl, rfl⟩
  have taken : completionMachine.Reachable ⟨_, _⟩ :=
    .step (.job .take none 0) submitted
      ⟨⟨_, ⟨⟨"alice", sampleStarted⟩, [], rfl, rfl, rfl⟩, trivial, rfl⟩, rfl,
        rfl⟩
  have concluded : completionMachine.Reachable ⟨_, _⟩ :=
    .step (.job (.conclude false) none 3) taken
      ⟨⟨_, ⟨⟨"alice", sampleStarted⟩, rfl, rfl⟩, trivial, rfl⟩, rfl, rfl⟩
  have announced : completionMachine.Reachable ⟨_, _⟩ :=
    .step (.announceFinished .conclusion sampleSandbox sampleSandbox 3 (some 2))
      concluded ⟨⟨{.pumping sampleSandbox true true}, by
        unfold DeliveryState.Under; decide, rfl⟩, rfl, rfl⟩
  refine ⟨_, announced, fun reported => ?_⟩
  obtain ⟨command, -, attached, code⟩ := reported.codes (2, 3) (by decide)
  have own : command = 1 := (Option.some.inj attached).symm
  rw [own] at code
  exact absurd code (by decide)

end CompletionState

end Shellmux
end Marsh
