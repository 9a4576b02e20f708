import Marsh.Library.TransitionSystem
import Marsh.Shellmux.JobTable

/-!
# The job machine

Every operation is the sequence of its lock-delimited sections; any number of
operations interleave section by section.  A section is a step, and the rest of
its operation is a task.
-/

namespace Marsh
namespace Shellmux

open Library

/-- One lock-delimited section. -/
inductive JobStep
  /-- `spawn` reserves a name, for a command when one is given. -/
  | spawn (id uid : String) (anonymous : Bool) (cmd : Option String)
  /-- `spawn` is refused its sandbox after it has drawn a name. -/
  | refuseSpawn (id : String) (anonymous : Bool)
  /-- `build_resources` publishes what it built. -/
  | build (id : String) (sandbox : Sandbox) (cmd : Option String)
  /-- `spawn` releases the name of a failed construction. -/
  | failBuild (id : String) (sandbox : Sandbox) (cmd : Option String)
  /-- `spawn` releases the name of a construction that could not resize the
  terminal it had published, and does not launch its command.  That a
  construction has returned is not part of the state, so one that was published
  may be refused at any later time. -/
  | refuseSize (id : String) (sandbox : Sandbox) (cmd : Option String)
  /-- `start_in` reserves its job. -/
  | startIn (id cmd : String)
  /-- `start_in` has waited for the job to owe no conclusion. -/
  | waited (id cmd : String) (origin : Sandbox)
  /-- A launch reads its row. -/
  | prepare (id cmd : String) (origin : Sandbox) (owned : Bool)
  /-- A launch takes its snapshot, unless it runs in a reader tree, and forks
  the tracer. -/
  | launch (id cmd : String) (origin sandbox : Sandbox) (owned : Bool)
      (pid : Nat) (plan : Plan)
  /-- A launch fails; `tree` tells what it left on disk if it had begun to
  retake the snapshot, and `cleared` whether it clears the reservation, as every
  failure but a lost blocking task does. -/
  | failLaunch (id cmd : String) (origin sandbox : Sandbox)
      (owned : Bool) (tree : Option Bool) (cleared : Bool)
  /-- A launch publishes its command; `killed` tells whether a deferred force
  could be carried out. -/
  | publish (id : String) (origin : Sandbox) (started : StartedCmd)
      (killed : Bool)
  /-- `report_launch_failure` closes the job. -/
  | reportFailure (id : String) (origin : Sandbox)
  /-- `reap_command` takes the ended command off its row. -/
  | reap (id : String) (pid : Nat)
  /-- `reap_command` submits it. -/
  | submit (conclusion : Conclusion)
  /-- The conclusion task takes the next conclusion. -/
  | take
  /-- It concludes the transaction. -/
  | conclude (retained : Bool)
  /-- It marks the conclusion reported. -/
  | finish
  /-- It checks whether the job is to close. -/
  | checkClose
  /-- It reclaims the storage of the job it closed. -/
  | reclaimConcluded
  /-- `keep` cancels an automatic closure. -/
  | keep (id : String)
  /-- `stop`, gracefully or by force. -/
  | stop (id : String) (force : Bool)
  /-- A caller reclaims the storage of the job it closed. -/
  | reclaim (sandbox : Sandbox)
  /-- `close_sandbox` called by hand. -/
  | closeSandbox (sandbox : Sandbox)
  /-- `shutdown` closes the merges queue. -/
  | cancel
  /-- `shutdown` kills what is running in the jobs it can. -/
  | killAll (killable : String -> Bool)
  /-- `shutdown` releases every job's terminal, pipe and shell. -/
  | releaseAll

/-! ## What a section does to a row -/

/-- The row a spawn reserves. -/
def Job.reserve
    (id uid : String)
    (anonymous : Bool)
    (cmd : Option String) : Job where
  id := id
  sandbox := ⟨id, uid⟩
  built := false
  running := none
  starting := cmd.isSome
  close := if anonymous && cmd.isSome then some .automatic else none

/-- Publishes what a spawn built. -/
def Job.build (job : Job) : Job :=
  { job with built := true }

/-- Reserves a row for a launch. -/
def Job.start (job : Job) : Job :=
  { job with starting := true }

/-- Clears a reservation. -/
def Job.clear (job : Job) : Job :=
  { job with starting := false }

/-- Publishes a started command in its row, carrying out a deferred force. -/
def Job.publish (started : StartedCmd) (killed : Bool) (job : Job) : Job :=
  if job.retired && killed then
    { job with
      starting := false
      running := some { started with forceStopped := true } }
  else if job.retired then
    -- Alive and unkillable, so it must not stay invisible.
    { job with
      starting := false
      close := some .graceful
      running := some started }
  else { job with starting := false, running := some started }

/-- Takes the ended command off the row. -/
def Job.reap (job : Job) : Job :=
  { job with running := none }

/-- Marks a row to be closed once it is idle. -/
def Job.drain (job : Job) : Job :=
  { job with close := some .graceful }

/-- Kills the running command. -/
def Job.kill (job : Job) : Job :=
  { job with
    running := job.running.map fun started =>
      { started with forceStopped := true } }

/-- Records an accepted stop in a row. -/
def Job.stop (force : Bool) (job : Job) : Job :=
  if force then { job.kill with close := some .force } else job.drain

/-- Keeps a job that would close by itself. -/
def Job.keep (job : Job) : Job :=
  if job.close = some .automatic then { job with close := none } else job

/-- Releases a row's terminal, pipe and shell. -/
def Job.release (job : Job) : Job :=
  { job with built := false }

/-! ## The sections -/

/-- The task that reports a failed launch, for a launch that a spawn owns. -/
def failureTask (id : String) (origin : Sandbox) (owned : Bool) :
    Multiset Task :=
  if owned then {.failing id origin} else 0

/-- The launch a spawn owns, for a spawn that was given a command. -/
def launchTask (id : String) (origin : Sandbox) (cmd : Option String) :
    Multiset Task :=
  match cmd with
  | some cmd => {.preparing id cmd origin true}
  | none => 0

namespace JobState

/-- An operation is in progress, and these are the others. -/
def Pending (state : JobState) (task : Task) (rest : Multiset Task) : Prop :=
  state.tasks = task ::ₘ rest

/-- Removes a job that can be closed, for the caller to reclaim. -/
def takeClosable (state : JobState) (id : String) : JobState :=
  match state.table.takeClosable id with
  | none => state
  | some (sandbox, table) =>
      { state with
        table := table
        tasks := .reclaiming sandbox ::ₘ state.tasks }

/-- Records an accepted stop. -/
def acceptStop
    (state : JobState)
    (id : String)
    (force : Bool)
    (sandbox : Sandbox) : JobState :=
  { state with
    table := state.table.update id (Job.stop force)
    forced := if force then sandbox :: state.forced else state.forced }

/-- Removes a job's row, if it still has one, and its snapshot. -/
def closeSandbox (state : JobState) (sandbox : Sandbox) : JobState :=
  { state with
    table := state.table.forget sandbox.uid
    trees := state.trees.erase sandbox.uid }

/-- The steps of the job machine. -/
def Steps (state : JobState) (step : JobStep) (next : JobState) : Prop :=
  match step with
  | .spawn id uid anonymous cmd =>
      ∃ counter, state.table.Names id anonymous counter ∧
        uid ∉ state.issued ∧
        next =
          { state with
            table :=
              { rows := state.table.rows ++ [Job.reserve id uid anonymous cmd]
                counter := counter }
            tasks := .building id ⟨id, uid⟩ cmd ::ₘ state.tasks
            issued := uid :: state.issued }
  | .refuseSpawn id anonymous =>
      ∃ counter, state.table.Names id anonymous counter ∧
        next = { state with table := { state.table with counter := counter } }
  | .build id sandbox cmd =>
      ∃ rest, state.Pending (.building id sandbox cmd) rest ∧
        (state.table.find id).isSome ∧
        next =
          { state with
            table := state.table.update id Job.build
            tasks := launchTask id sandbox cmd + rest }
  | .failBuild id sandbox cmd =>
      ∃ rest, state.Pending (.building id sandbox cmd) rest ∧
        next =
          { state with
            table := state.table.remove fun job => job.id = id
            tasks := rest }
  | .refuseSize id sandbox cmd =>
      ∃ rest, state.tasks = launchTask id sandbox cmd + rest ∧
        sandbox.uid ∈ state.issued ∧
        (∀ given, Task.building id sandbox given ∉ rest) ∧
        next =
          { state with
            table := state.table.remove fun job => job.id = id
            tasks := rest }
  | .startIn id cmd =>
      ∃ job, state.table.find id = some job ∧
        job.close.any JobCloseMode.explicit = false ∧
        job.running = none ∧ job.starting = false ∧
        next =
          { state with
            table := state.table.update id Job.start
            tasks := .waiting id cmd job.sandbox ::ₘ state.tasks }
  | .waited id cmd origin =>
      (state.queue.closed = true ∨ state.queue.idle id = true) ∧
        ∃ rest, state.Pending (.waiting id cmd origin) rest ∧
          next = { state with tasks := .preparing id cmd origin false ::ₘ rest }
  | .prepare id cmd origin owned =>
      ∃ rest, state.Pending (.preparing id cmd origin owned) rest ∧
        next =
          { state with
            tasks :=
              match (state.table.find id).filter Job.built with
              | some job => .launching id cmd origin job.sandbox owned ::ₘ rest
              | none => failureTask id origin owned + rest }
  | .launch id cmd origin sandbox owned pid plan =>
      ∃ rest, state.Pending (.launching id cmd origin sandbox owned) rest ∧
        next =
          { state with
            tasks := .publishing id origin
              { pid, sandbox, cmd, forceStopped := false } ::ₘ rest
            trees := match plan with
              | .transaction => insert sandbox.uid state.trees
              | .bypass => state.trees }
  | .failLaunch id cmd origin sandbox owned tree cleared =>
      ∃ rest, state.Pending (.launching id cmd origin sandbox owned) rest ∧
        next =
          { state with
            table := if cleared then state.table.update id Job.clear
              else state.table
            tasks := failureTask id origin owned + rest
            trees := match tree with
              | none => state.trees
              | some true => insert sandbox.uid state.trees
              | some false => state.trees.erase sandbox.uid }
  | .publish id origin started killed =>
      ∃ rest, state.Pending (.publishing id origin started) rest ∧
        next =
          { state with
            table := state.table.update id (Job.publish started killed)
            tasks := .watching id started.pid ::ₘ rest }
  | .reportFailure id origin =>
      ∃ rest, state.Pending (.failing id origin) rest ∧
        next =
          { state with
            table := state.table.update id Job.drain
            tasks := rest }.takeClosable id
  | .reap id pid =>
      ∃ rest, state.Pending (.watching id pid) rest ∧
        ((∃ job started, state.table.find id = some job ∧
            job.running = some started ∧ started.pid = pid ∧
            next =
              { state with
                table := state.table.update id Job.reap
                tasks := .submitting ⟨id, started⟩ ::ₘ rest }) ∨
          ((∀ job, state.table.find id = some job ->
              ∀ started, job.running = some started -> started.pid ≠ pid) ∧
            next = { state with tasks := rest }))
  | .submit conclusion =>
      ∃ rest, state.Pending (.submitting conclusion) rest ∧
        next = { state with
          queue := state.queue.submit conclusion
          tasks := rest }
  | .take =>
      ∃ conclusion rest, state.concluder = .taking ∧
        state.queue.pending = conclusion :: rest ∧
        next = { state with
          queue := { state.queue with pending := rest }
          concluder := .concluding conclusion }
  | .conclude retained =>
      ∃ conclusion, state.concluder = .concluding conclusion ∧
        next = { state with concluder := .reporting conclusion.id retained }
  | .finish =>
      ∃ id retained, state.concluder = .reporting id retained ∧
        next = { state with
          queue := state.queue.finish id
          concluder := .closing id retained }
  | .checkClose =>
      ∃ id retained, state.concluder = .closing id retained ∧
        next =
          if state.queue.idle id then
            match state.table.takeClosable id with
            | none => { state with concluder := .taking }
            | some (sandbox, table) =>
                if retained then
                  { state with
                    table := table
                    concluder := .taking
                    retained := sandbox.uid :: state.retained }
                else
                  { state with
                    table := table
                    concluder := .reclaiming sandbox }
          else { state with concluder := .taking }
  | .reclaimConcluded =>
      ∃ sandbox, state.concluder = .reclaiming sandbox ∧
        next = { state with concluder := .taking }.closeSandbox sandbox
  | .keep id =>
      next = { state with table := state.table.update id Job.keep }
  | .stop id force =>
      ∃ job, state.table.find id = some job ∧ job.retired = false ∧
        next =
          if state.queue.idle id then
            (state.acceptStop id force job.sandbox).takeClosable id
          else state.acceptStop id force job.sandbox
  | .reclaim sandbox =>
      ∃ rest, state.Pending (.reclaiming sandbox) rest ∧
        next = { state with tasks := rest }.closeSandbox sandbox
  | .closeSandbox sandbox => next = state.closeSandbox sandbox
  | .cancel => next = { state with queue := state.queue.cancel }
  | .killAll killable =>
      next = { state with
        table := state.table.change fun job =>
          if killable job.id then job.kill else job }
  | .releaseAll =>
      next = { state with table := state.table.change Job.release }

end JobState

/-- The machine before any operation. -/
def JobState.empty : JobState where
  table := { rows := [], counter := 1 }
  queue := { pending := [], active := fun _ => 0, closed := false }
  concluder := .taking
  tasks := 0
  trees := ∅
  issued := []
  forced := []
  retained := []

/-- The job machine as a transition system. -/
def jobMachine : TransitionSystem JobState JobStep where
  initial state := state = .empty
  step := JobState.Steps

end Shellmux
end Marsh
