import Marsh.Shellmux.JobSteps
import Marsh.Shellmux.ReadValidity

/-!
# Forced stops

A forced stop kills the running command and flags its transaction, which is
then concluded without evidence.  A command that is not in its row when the
stop is accepted must get the flag another way.
-/

namespace Marsh
namespace Shellmux

open Library Validator Policy

/-! ## The session -/

/-- The job machine with the authority and the storage its conclusions use. -/
structure Session (Storage : Type) where
  /-- The jobs. -/
  jobs : JobState
  /-- The authority. -/
  authority : AuthorityState
  /-- The storage. -/
  storage : Storage

/-- One section, with what the run of the command it concludes left. -/
structure SessionStep where
  /-- The section. -/
  job : JobStep
  /-- Whether the processes of a killed command were proven gone. -/
  terminated : Except MuxError Unit
  /-- What the run left. -/
  completed : Except MuxError Execution
  /-- Seed version the command's tree copied. -/
  baseSeq : Nat
  /-- How it was run. -/
  plan : Plan

/-- The steps of a session.  Only a conclusion changes the authority; between
conclusions commands change the storage at will. -/
def Session.Steps
    {Storage : Type}
    (decide : List Event -> Event -> PolicyDecision)
    (persistence : Persistence Storage)
    (session : Session Storage)
    (step : SessionStep)
    (next : Session Storage) : Prop :=
  session.jobs.Steps step.job next.jobs ∧
    match step.job with
    | .conclude retained =>
        ∃ conclusion outcome,
          session.jobs.concluder = .concluding conclusion ∧
            concludeCmd decide persistence conclusion.started.sandbox
                conclusion.started.cmd conclusion.started.forceStopped
                step.terminated step.completed step.baseSeq step.plan
                session.authority session.storage =
              (outcome, next.authority, next.storage) ∧
            retained = match outcome with
              | .error (.jobTermination _) => true
              | _ => false
    | _ => next.authority = session.authority

/-- Sessions as a transition system. -/
def sessions
    {Storage : Type}
    (decide : List Event -> Event -> PolicyDecision)
    (persistence : Persistence Storage) :
    TransitionSystem (Session Storage) SessionStep where
  initial session := session.jobs = .empty
  step := Session.Steps decide persistence

/-! ## Started commands -/

/-- A conclusion of a reaped command, not run yet. -/
def JobState.Unconcluded (state : JobState) (conclusion : Conclusion) : Prop :=
  Task.submitting conclusion ∈ state.tasks ∨
    conclusion ∈ state.queue.pending ∨
    state.concluder = .concluding conclusion

/-- Every command of a forcibly stopped job that was published and is not
concluded is flagged. -/
structure JobState.Flagged (state : JobState) : Prop where
  running : ∀ job ∈ state.table.rows, ∀ started, job.running = some started ->
    started.sandbox ∈ state.forced -> started.forceStopped = true
  reaped : ∀ conclusion, state.Unconcluded conclusion ->
    conclusion.started.sandbox ∈ state.forced ->
    conclusion.started.forceStopped = true

/-- A forced stop is accepted with no command of the job between its reap and
its conclusion, and a launch into a forcibly stopped job still finds the job
marked and can kill the command it started. -/
def JobState.FlagsForced (state : JobState) : JobStep -> Prop
  | .stop id true =>
      ∀ job, state.table.find id = some job ->
        ∀ conclusion, state.Unconcluded conclusion ->
          conclusion.started.sandbox = job.sandbox ->
          conclusion.started.forceStopped = true
  | .publish id _ started killed =>
      started.sandbox ∈ state.forced ->
        ∀ job, state.table.find id = some job ->
          job.retired = true ∧ killed = true
  | _ => True

section Step

variable {state next : JobState} {step : JobStep}

theorem forced_takeClosable (state : JobState) (id : String) :
    (state.takeClosable id).forced = state.forced := by
  obtain ⟨-, same⟩ | ⟨sandbox, -, same⟩ := state.takeClosable_cases id <;>
    rw [same]

/-- Only a forced stop forces a job, the one its name finds. -/
theorem forced_of_step (steps : state.Steps step next) :
    next.forced = state.forced ∨
      ∃ id job, step = .stop id true ∧ state.table.find id = some job ∧
        next.forced = job.sandbox :: state.forced := by
  cases step with
  | stop id force =>
      obtain ⟨job, found, -, changed⟩ := steps
      have forced : next.forced =
          (state.acceptStop id force job.sandbox).forced := by
        split_ifs at changed <;> rw [changed]
        exact forced_takeClosable _ _
      cases force
      · exact .inl forced
      · exact .inr ⟨id, job, rfl, found, forced⟩
  | reportFailure id origin =>
      obtain ⟨rest, -, rfl⟩ := steps
      exact .inl (forced_takeClosable _ _)
  | checkClose =>
      obtain ⟨id, retained, -, ⟨-, rfl⟩ | ⟨sandbox, -, -, ⟨-, rfl⟩ | ⟨-, rfl⟩⟩⟩ :=
        JobState.checkClose_cases steps <;>
        exact .inl rfl
  | spawn | refuseSpawn | build | failBuild | refuseSize | startIn | waited
  | prepare | launch | failLaunch | publish | reap | submit | take | conclude
  | finish | reclaimConcluded | keep | reclaim | closeSandbox | cancel | killAll
  | releaseAll =>
      simp only [JobState.Steps, JobState.closeSandbox] at steps
      grind

/-- A conclusion to be run was so before, or its command was just taken off its
row. -/
theorem unconcluded_of_step
    (steps : state.Steps step next)
    {conclusion : Conclusion}
    (unconcluded : next.Unconcluded conclusion) :
    state.Unconcluded conclusion ∨
      ∃ job ∈ state.table.rows, job.running = some conclusion.started := by
  rcases unconcluded with submitting | queued | concluding
  · rcases JobState.tasks_of_step steps submitting with old | new
    · exact .inl (.inl old)
    · cases step with
      | reap id pid =>
          obtain ⟨-, job, started, found, running, same⟩ := new
          obtain rfl := Task.submitting.inj same
          exact .inr ⟨job, JobTable.mem_of_find found, running⟩
      | spawn | build | startIn | waited | prepare | launch | failLaunch
      | publish | reportFailure | stop => simp [JobState.Starts] at new
      | refuseSpawn | failBuild | refuseSize | submit | take | conclude | finish
      | checkClose | reclaimConcluded | keep | reclaim | closeSandbox | cancel
      | killAll | releaseAll => exact new.elim
  · refine .inl ?_
    cases step with
    | submit submitted =>
        obtain ⟨rest, pending, rfl⟩ := steps
        dsimp only [ConclusionQueue.submit] at queued
        split_ifs at queued
        · exact .inr (.inl queued)
        · rcases List.mem_append.mp queued with old | new
          · exact .inr (.inl old)
          · obtain rfl := List.mem_singleton.mp new
            exact .inl pending.self
    | take =>
        obtain ⟨taken, rest, -, pending, rfl⟩ := steps
        exact .inr (.inl (pending ▸ List.mem_cons_of_mem _ queued))
    | stop id force =>
        obtain ⟨job, -, -, changed⟩ := steps
        split_ifs at changed
        · rw [changed, JobState.queue_takeClosable] at queued
          exact .inr (.inl queued)
        · rw [changed] at queued
          exact .inr (.inl queued)
    | reportFailure id origin =>
        obtain ⟨rest, -, rfl⟩ := steps
        rw [JobState.queue_takeClosable] at queued
        exact .inr (.inl queued)
    | checkClose =>
        obtain ⟨id, retained, -,
          ⟨-, rfl⟩ | ⟨sandbox, -, -, ⟨-, rfl⟩ | ⟨-, rfl⟩⟩⟩ :=
          JobState.checkClose_cases steps <;>
          exact .inr (.inl queued)
    | spawn | refuseSpawn | build | failBuild | refuseSize | startIn | waited
    | prepare | launch | failLaunch | publish | reap | conclude | finish
    | reclaimConcluded | keep | reclaim | closeSandbox | cancel | killAll
    | releaseAll =>
        simp only [JobState.Steps, JobState.closeSandbox, ConclusionQueue.finish,
          ConclusionQueue.cancel] at steps
        exact .inr (.inl (by grind))
  · refine .inl ?_
    cases step with
    | take =>
        obtain ⟨taken, rest, -, pending, rfl⟩ := steps
        obtain rfl := ConcludeTask.concluding.inj concluding
        exact .inr (.inl (pending ▸ List.mem_cons_self))
    | stop id force =>
        obtain ⟨job, -, -, changed⟩ := steps
        split_ifs at changed
        · rw [changed, JobState.concluder_takeClosable] at concluding
          exact .inr (.inr concluding)
        · rw [changed] at concluding
          exact .inr (.inr concluding)
    | reportFailure id origin =>
        obtain ⟨rest, -, rfl⟩ := steps
        rw [JobState.concluder_takeClosable] at concluding
        exact .inr (.inr concluding)
    | checkClose =>
        obtain ⟨id, retained, -,
          ⟨-, rfl⟩ | ⟨sandbox, -, -, ⟨-, rfl⟩ | ⟨-, rfl⟩⟩⟩ :=
          JobState.checkClose_cases steps <;>
          simp at concluding
    | spawn | refuseSpawn | build | failBuild | refuseSize | startIn | waited
    | prepare | launch | failLaunch | publish | reap | submit | conclude
    | finish | reclaimConcluded | keep | reclaim | closeSandbox | cancel
    | killAll | releaseAll =>
        simp only [JobState.Steps, JobState.closeSandbox] at steps
        exact .inr (.inr (by grind))

/-- A section that keeps the flags of forced jobs keeps every command of a
forced job flagged. -/
theorem flagged_of_step
    (formed : state.WellFormed)
    (flagged : state.Flagged)
    (steps : state.Steps step next)
    (flags : state.FlagsForced step) : next.Flagged := by
  -- The name of a running command is the one of its row.
  have runningName : ∀ job ∈ state.table.rows, ∀ started,
      job.running = some started -> started.sandbox.id = job.id := by
    intro job member started running
    exact (formed.commanded (job.id, started.sandbox)
      (JobState.mem_commands_of_row ⟨job, member, by
        rw [Job.command, running]
        rfl⟩)).1
  constructor
  · intro job member started running isForced
    obtain ⟨row, rowMember, named, continues, stopped⟩ | idle |
      ⟨id, origin, published, killed, row, rowMember, rfl, named, rfl⟩ :=
      JobState.row_of_step steps member
    · obtain ⟨before, was, same, kept⟩ := continues started running
      obtain forced | ⟨id, target, rfl, found, forced⟩ := forced_of_step steps
      · rw [forced, ← same] at isForced
        exact kept (flagged.running row rowMember before was isForced)
      · rw [forced, ← same] at isForced
        rcases List.mem_cons.mp isForced with now | already
        · -- The stop's own job: the row is the one it kills.
          have id_eq : row.id = id := by
            rw [← runningName row rowMember before was, now,
              formed.labelled target (JobTable.mem_of_find found),
              JobTable.find_some_id found]
          rw [stopped id rfl id_eq] at running
          obtain ⟨_, -, rfl⟩ := Option.map_eq_some_iff.mp running
          rfl
        · exact kept (flagged.running row rowMember before was already)
    · rw [idle] at running
      contradiction
    · obtain forced | ⟨_, _, stops, -⟩ := forced_of_step steps
      · have sandbox : started.sandbox = published.sandbox := by
          unfold Job.publish at running
          split_ifs at running <;> obtain rfl := Option.some.inj running <;> rfl
        rw [forced, sandbox] at isForced
        have found := formed.find_of_mem rowMember
        rw [named] at found
        obtain ⟨retired, rfl⟩ := flags isForced row found
        rw [Job.publish, retired] at running
        obtain rfl := Option.some.inj running
        rfl
      · simp at stops
  · intro conclusion unconcluded isForced
    obtain forced | ⟨id, target, rfl, found, forced⟩ := forced_of_step steps
    · rw [forced] at isForced
      obtain old | ⟨job, member, running⟩ :=
        unconcluded_of_step steps unconcluded
      · exact flagged.reaped conclusion old isForced
      · exact flagged.running job member _ running isForced
    · rw [forced] at isForced
      have old : state.Unconcluded conclusion := by
        rcases unconcluded with submitting | queued | concluding
        · rcases JobState.tasks_of_step steps submitting with old | new
          · exact .inl old
          · simp [JobState.Starts] at new
        all_goals
          obtain ⟨job, -, -, changed⟩ := steps
          split_ifs at changed <;> subst changed
        · rw [JobState.queue_takeClosable] at queued
          exact .inr (.inl queued)
        · exact .inr (.inl queued)
        · rw [JobState.concluder_takeClosable] at concluding
          exact .inr (.inr concluding)
        · exact .inr (.inr concluding)
      rcases List.mem_cons.mp isForced with now | already
      · exact flags target found conclusion old now
      · exact flagged.reaped conclusion old already

end Step

/-! ## Conclusions of forced jobs -/

section Session

variable {Storage : Type}
variable {decide : List Event -> Event -> PolicyDecision}
variable {persistence : Persistence Storage}

/-- A conclusion of a flagged command publishes nothing. -/
theorem concludeCmd_of_forceStopped
    (sandbox : Sandbox)
    (cmd : String)
    (terminated : Except MuxError Unit)
    (completed : Except MuxError Execution)
    (baseSeq : Nat)
    (plan : Plan)
    (state : AuthorityState)
    (storage : Storage) :
    (concludeCmd decide persistence sandbox cmd true terminated completed
      baseSeq plan state storage).2 = (state, storage) := by
  cases terminated <;> rfl

/-- A conclusion publishes nothing of a job a forced stop was accepted for. -/
def Session.ForcedSilent
    (session : Session Storage)
    (step : SessionStep)
    (next : Session Storage) : Prop :=
  ∀ retained conclusion, step.job = .conclude retained ->
    session.jobs.concluder = .concluding conclusion ->
    conclusion.started.sandbox ∈ session.jobs.forced ->
    next.authority = session.authority ∧ next.storage = session.storage

/-- In every run whose sections keep the flags of forced jobs, nothing of a job
is published once a forced stop of it was accepted. -/
theorem forcedSilent_of_flagsForced
    {session next : Session Storage}
    {step : SessionStep}
    (reachable : ((sessions decide persistence).restrict
      fun session step => session.jobs.FlagsForced step.job).Reachable session)
    (steps : (sessions decide persistence).step session step next) :
    session.ForcedSilent step next := by
  have invariant : session.jobs.WellFormed ∧ session.jobs.Flagged := by
    refine reachable.invariant
      (fun session => session.jobs.WellFormed ∧ session.jobs.Flagged) ?_ ?_
    · rintro session initial
      rw [show session.jobs = .empty from initial]
      refine ⟨.empty, fun job member => ?_, fun conclusion unconcluded => ?_⟩
      · simp [JobState.empty] at member
      · simp [JobState.Unconcluded, JobState.empty] at unconcluded
    · rintro session step next - ⟨formed, flagged⟩ ⟨⟨steps, -⟩, flags⟩
      exact ⟨formed.step steps, flagged_of_step formed flagged steps flags⟩
  rintro retained conclusion concludes concluding isForced
  have flag := invariant.2.reaped conclusion (.inr (.inr concluding)) isForced
  obtain ⟨-, published⟩ := steps
  rw [concludes] at published
  obtain ⟨taken, outcome, same, result, -⟩ := published
  rw [concluding] at same
  obtain rfl := ConcludeTask.concluding.inj same
  rw [flag] at result
  have silent := @concludeCmd_of_forceStopped _ decide persistence
    conclusion.started.sandbox conclusion.started.cmd step.terminated
    step.completed step.baseSeq step.plan session.authority session.storage
  rw [result] at silent
  exact ⟨(Prod.mk.inj silent).1, (Prod.mk.inj silent).2⟩

end Session

/-- A run of the job machine without a conclusion is one of a session. -/
theorem reachable_of_jobs
    {Storage : Type}
    {decide : List Event -> Event -> PolicyDecision}
    {persistence : Persistence Storage}
    {allowed : JobState -> JobStep -> Prop}
    {jobs : JobState}
    (reachable : (jobMachine.restrict fun state step =>
      step.Unconcluding ∧ allowed state step).Reachable jobs)
    (authority : AuthorityState)
    (storage : Storage) :
    ((sessions decide persistence).restrict fun session step =>
      allowed session.jobs step.job).Reachable
        ⟨jobs, authority, storage⟩ := by
  induction reachable with
  | start initial => exact .start initial
  | step label _ steps hypothesis =>
      refine .step ⟨label, .ok (), .ok ⟨0, none⟩, 0, .bypass⟩ hypothesis
        ⟨⟨steps.1, ?_⟩, steps.2.2⟩
      cases label with
      | conclude retained => exact absurd rfl (steps.2.1 retained)
      | _ => rfl

/-! ## A forced stop before and after the reap -/

/-- The sample job with its conclusion under way, forcibly stopped. -/
def forcedState (started : StartedCmd) : JobState :=
  { JobState.sample { sampleJob with close := some .force } {"u1"} 0 with
    queue :=
      { pending := []
        active := Function.update (fun _ => 0) "alice" 1
        closed := false }
    concluder := .concluding ⟨"alice", started⟩
    forced := [sampleSandbox] }

/-- The sample command is reaped and submitted, and then forcibly stopped. -/
theorem reachable_forced :
    (jobMachine.restrict fun _ step =>
      step.Unconcluding ∧ True).Reachable (forcedState sampleStarted) := by
  let system := jobMachine.restrict fun _ step => step.Unconcluding ∧ True
  let queue : ConclusionQueue :=
    { pending := [⟨"alice", sampleStarted⟩]
      active := Function.update (fun _ => 0) "alice" 1
      closed := false }
  have running : system.Reachable
      (.sample { sampleJob with running := some sampleStarted } {"u1"}
        {.watching "alice" 7}) :=
    reachable_running (by simp [sampleRun, JobStep.Unconcluding])
  have reaped : system.Reachable
      (.sample sampleJob {"u1"} {.submitting ⟨"alice", sampleStarted⟩}) :=
    .step (.reap "alice" 7) running
      ⟨⟨0, rfl, .inl ⟨_, sampleStarted, rfl, rfl, rfl, rfl⟩⟩,
        by simp [JobStep.Unconcluding]⟩
  have submitted : system.Reachable
      { JobState.sample sampleJob {"u1"} 0 with queue := queue } :=
    .step (.submit ⟨"alice", sampleStarted⟩) reaped
      ⟨⟨0, rfl, rfl⟩, by simp [JobStep.Unconcluding]⟩
  have stopped : system.Reachable
      { JobState.sample { sampleJob with close := some .force } {"u1"} 0 with
        queue := queue
        forced := [sampleSandbox] } :=
    .step (.stop "alice" true) submitted
      ⟨⟨sampleJob, rfl, rfl, rfl⟩, by simp [JobStep.Unconcluding]⟩
  exact .step .take stopped
    ⟨⟨⟨"alice", sampleStarted⟩, [], rfl, rfl, rfl⟩,
      by simp [JobStep.Unconcluding]⟩

/-- A forced stop that is accepted while the command's conclusion is queued does
not keep it from being published. -/
theorem not_forcedSilent_of_queued :
    ∃ (session next : Session Unit) (step : SessionStep),
      (sessions gitDecide writesA).Reachable session ∧
        (sessions gitDecide writesA).step session step next ∧
        ¬ session.ForcedSilent step next := by
  refine ⟨⟨forcedState sampleStarted, .fresh, ()⟩,
    ⟨{ forcedState sampleStarted with
        concluder := .reporting "alice" false }, wrote, ()⟩,
    ⟨.conclude false, .ok (), wroteA, 0, .transaction⟩,
    (reachable_of_jobs reachable_forced _ _).of_restrict,
    ⟨⟨_, rfl, rfl⟩, ⟨"alice", sampleStarted⟩, _, rfl, conclude_writer, rfl⟩, ?_⟩
  intro silent
  have same := (silent false ⟨"alice", sampleStarted⟩ rfl rfl
    List.mem_cons_self).1
  exact absurd (congrArg AuthorityState.seq same) (by decide)

/-- The sample command, killed. -/
def killedStarted : StartedCmd :=
  { sampleStarted with forceStopped := true }

/-- The sample command is forcibly stopped while it runs. -/
theorem reachable_killed :
    (jobMachine.restrict fun state step => step.Unconcluding ∧
      state.FlagsForced step).Reachable (forcedState killedStarted) := by
  let system := jobMachine.restrict fun state step =>
    step.Unconcluding ∧ state.FlagsForced step
  let row : Job := { sampleJob with close := some .force }
  have running : system.Reachable
      (.sample { sampleJob with running := some sampleStarted } {"u1"}
        {.watching "alice" 7}) :=
    reachable_running (by
      simp [sampleRun, JobStep.Unconcluding, JobState.FlagsForced,
        JobState.sample, JobState.empty])
  have stopped : system.Reachable
      { JobState.sample { row with running := some killedStarted } {"u1"}
          {.watching "alice" 7} with
        forced := [sampleSandbox] } := by
    refine .step (.stop "alice" true) running
      ⟨⟨{ sampleJob with running := some sampleStarted }, rfl, rfl, rfl⟩,
        by simp [JobStep.Unconcluding], ?_⟩
    intro job found conclusion unconcluded
    simp [JobState.Unconcluded, JobState.sample, JobState.empty] at unconcluded
  have reaped : system.Reachable
      { JobState.sample row {"u1"} {.submitting ⟨"alice", killedStarted⟩} with
        forced := [sampleSandbox] } :=
    .step (.reap "alice" 7) stopped
      ⟨⟨0, rfl, .inl ⟨_, killedStarted, rfl, rfl, rfl, rfl⟩⟩,
        by simp [JobStep.Unconcluding], trivial⟩
  have submitted : system.Reachable
      { JobState.sample row {"u1"} 0 with
        queue :=
          { pending := [⟨"alice", killedStarted⟩]
            active := Function.update (fun _ => 0) "alice" 1
            closed := false }
        forced := [sampleSandbox] } :=
    .step (.submit ⟨"alice", killedStarted⟩) reaped
      ⟨⟨0, rfl, rfl⟩, by simp [JobStep.Unconcluding], trivial⟩
  exact .step .take submitted
    ⟨⟨⟨"alice", killedStarted⟩, [], rfl, rfl, rfl⟩,
      by simp [JobStep.Unconcluding], trivial⟩

/-- A command that is killed while it runs publishes nothing, whatever its run
left. -/
theorem forcedSilent_of_flagsForced_killed :
    Session.ForcedSilent ⟨forcedState killedStarted, .fresh, ()⟩
      ⟨.conclude false, .ok (), wroteA, 0, .transaction⟩
      ⟨{ forcedState killedStarted with
          concluder := .reporting "alice" false }, .fresh, ()⟩ :=
  @forcedSilent_of_flagsForced Unit gitDecide writesA _ _ _
    (reachable_of_jobs reachable_killed _ _)
    ⟨⟨_, rfl, rfl⟩, ⟨"alice", killedStarted⟩, _, rfl, rfl, rfl⟩

end Shellmux
end Marsh
