import Marsh.Shellmux.Shutdown

/-!
# A ledger of commands

Every command that is published in a row gets the next number.  The ledger says
how far each is and records which command a callback was attached to, the exit
code each ended with, and which command each completion was announced for.  No
section of the mux reads it.
-/

namespace Marsh
namespace Shellmux

open Library

/-! ## The ledger -/

/-- How far a published command is. -/
inductive Stage
  /-- It runs in the row of a uid. -/
  | running (uid : String)
  /-- It was reaped, and is to be concluded. -/
  | reaped (conclusion : Conclusion)
  /-- It was concluded, and its completion is to be announced. -/
  | announcing
  /-- Its completion was announced. -/
  | finished
  deriving DecidableEq, Repr

/-- The commands published so far. -/
structure Ledger where
  /-- How many there are; they are numbered from zero. -/
  count : Nat
  /-- The sandbox each runs in. -/
  shells : Nat -> Sandbox
  /-- How far each is. -/
  stage : Nat -> Stage
  /-- The exit code of each that was concluded. -/
  codes : Nat -> Option Int
  /-- The command a callback was attached to. -/
  attached : Nat -> Option Nat
  /-- The completions announced, with the command each is of; that of a launch
  that failed is of none. -/
  announced : List (Option Nat × Sandbox)
  /-- The callbacks called, with the exit code given. -/
  calls : List (Nat × Int)
  /-- The commands that are reported as launches that failed. -/
  misreported : List Nat

namespace Ledger

/-- No command has been published. -/
def empty : Ledger where
  count := 0
  shells _ := ⟨"", ""⟩
  stage _ := .finished
  codes _ := none
  attached _ := none
  announced := []
  calls := []
  misreported := []

variable (ledger : Ledger)

/-- A command at a stage. -/
def commandAt (stage : Stage) : Option Nat :=
  (List.range ledger.count).find? fun command => ledger.stage command = stage

/-- Moves a command to a stage. -/
def move (command : Nat) (stage : Stage) : Ledger :=
  { ledger with stage := Function.update ledger.stage command stage }

/-- Attaches a callback to a command. -/
def attach (done command : Option Nat) : Ledger :=
  match done with
  | some done =>
      { ledger with attached := Function.update ledger.attached done command }
  | none => ledger

/-- A command is published in the row of a uid. -/
def publish (uid : String) (shell : Sandbox) (done : Option Nat) : Ledger :=
  ({ ledger with
      count := ledger.count + 1
      shells := Function.update ledger.shells ledger.count shell
      stage := Function.update ledger.stage ledger.count
        (.running uid) } : Ledger).attach done (some ledger.count)

/-- The command of a row is reaped. -/
def reap (uid : String) (conclusion : Conclusion) : Ledger :=
  match ledger.commandAt (.running uid) with
  | some command => ledger.move command (.reaped conclusion)
  | none => ledger

/-- A command is concluded; its completion is to be announced if its row is
found. -/
def conclude (conclusion : Conclusion) (exitCode : Int) (found : Bool) : Ledger :=
  match ledger.commandAt (.reaped conclusion) with
  | some command =>
      { ledger.move command
          (if found then .announcing else .reaped conclusion) with
        codes := Function.update ledger.codes command (some exitCode) }
  | none => ledger

/-- The callback a completion calls, with its exit code. -/
def call (exitCode : Int) (done : Option Nat) : Ledger :=
  { ledger with
    calls := done.toList.map (fun done => (done, exitCode)) ++ ledger.calls }

/-- A completion is announced. -/
def announce (shell : Sandbox) (exitCode : Int) (done : Option Nat) : Ledger :=
  match ledger.commandAt .announcing with
  | some command =>
      ({ ledger.move command .finished with
          announced :=
            ledger.announced ++ [(some command, shell)] } : Ledger).call
        exitCode done
  | none =>
      ({ ledger with
          announced := ledger.announced ++ [(none, shell)] } : Ledger).call
        exitCode done

/-- A launch that failed is announced. -/
def announceFailure
    (shell : Sandbox)
    (exitCode : Int)
    (done : Option Nat) : Ledger :=
  ({ ledger with
      announced := ledger.announced ++ [(none, shell)] } : Ledger).call
    exitCode done

/-- The command published last is reported as a launch that failed. -/
def misreport : Ledger :=
  { ledger with misreported := (ledger.count - 1) :: ledger.misreported }

end Ledger

/-! ## The machine with its ledger -/

/-- The job machine with its deliveries and the ledger of its commands. -/
structure CompletionState where
  session : DeliveryState
  ledger : Ledger

namespace CompletionState

variable (state : CompletionState)

/-- The ledger after a launch publishes its command. -/
def published
    (id : String)
    (origin : Sandbox)
    (started : StartedCmd)
    (killed : Bool)
    (done : Option Nat) : Ledger :=
  match state.session.row id with
  | some job =>
      let unkillable := job.retired && !killed
      -- A caller told its start failed is not called back.
      let ledger := state.ledger.publish job.sandbox.uid started.sandbox
        (if unkillable then none else done)
      if unkillable ∧ origin ∈ state.session.owned then ledger.misreport
      else ledger
  | none => state.ledger

/-- The ledger after a watcher reaps its command. -/
def reaped (id : String) (pid : Nat) : Ledger :=
  match state.session.row id with
  | some job =>
      match job.running with
      | some started =>
          if started.pid = pid then
            state.ledger.reap job.sandbox.uid ⟨id, started⟩
          else state.ledger
      | none => state.ledger
  | none => state.ledger

/-- The ledger after a step. -/
def ledgerAfter : DeliveryStep -> Ledger
  | .job (.publish id origin started killed) done _ =>
      state.published id origin started killed done
  | .job (.reap id pid) _ _ => state.reaped id pid
  | .job (.conclude _) _ exitCode =>
      match state.session.jobs.concluder with
      | .concluding conclusion =>
          state.ledger.conclude conclusion exitCode
            (state.session.row conclusion.id).isSome
      | _ => state.ledger
  | .announceFinished .conclusion _ shell exitCode done =>
      state.ledger.announce shell exitCode done
  | .announceFinished .launch _ shell exitCode done =>
      state.ledger.announceFailure shell exitCode done
  | .onFinish id done =>
      match state.session.row id with
      | some job =>
          state.ledger.attach (some done)
            (state.ledger.commandAt (.running job.sandbox.uid))
      | none => state.ledger
  | _ => state.ledger

/-- The steps before the shutdown. -/
def Steps
    (state : CompletionState)
    (step : DeliveryStep)
    (next : CompletionState) : Prop :=
  state.session.Steps step next.session ∧
    next.session.phase = .session ∧
    next.ledger = state.ledgerAfter step

end CompletionState

/-- The job machine with the ledger of its commands, before the shutdown. -/
def completionMachine : TransitionSystem CompletionState DeliveryStep where
  initial state := state = ⟨.empty, .empty⟩
  step := CompletionState.Steps

/-! ## What should hold -/

/-- The sandbox a completion is announced for. -/
def FrontendEvent.finishedShell : FrontendEvent -> Option Sandbox
  | .finished shell _ => some shell
  | .opened _ | .terminal _ _ | .instrumentation _ _ | .closed _
  | .ioError _ => none

namespace CompletionState

/-- A command is still to end, to be concluded, or to be announced. -/
inductive InProgress (state : CompletionState) (command : Nat) : Prop
  | running {job : Job} (member : job ∈ state.session.jobs.table.rows)
      (busy : job.running.isSome)
      (stage : state.ledger.stage command = .running job.sandbox.uid)
  | reaped {conclusion : Conclusion}
      (unconcluded : state.session.jobs.Unconcluded conclusion)
      (stage : state.ledger.stage command = .reaped conclusion)
  | announcing {delivery : Delivery}
      (member : delivery ∈ state.session.deliveries)
      (source : delivery.source = some .conclusion)
      (stage : state.ledger.stage command = .announcing)

/-- Every callback is called at most once, with the exit code of the command it
was attached to, and every published command is announced once as finished, for
its own sandbox, or is in progress. -/
structure CommandsReported (state : CompletionState) : Prop where
  /-- A callback is called at most once. -/
  once : state.session.called.Nodup
  /-- The calls are those the ledger has. -/
  calls : state.ledger.calls.map Prod.fst = state.session.called
  /-- A callback is given the exit code of its command. -/
  codes : ∀ call ∈ state.ledger.calls, ∃ command < state.ledger.count,
    state.ledger.attached call.1 = some command ∧
      state.ledger.codes command = some call.2
  /-- The completions told are those the ledger has. -/
  told : state.session.told.filterMap FrontendEvent.finishedShell =
    state.ledger.announced.map Prod.snd
  /-- A command is announced at most once. -/
  single : (state.ledger.announced.filterMap Prod.fst).Nodup
  /-- A command is announced for its own sandbox. -/
  shells : ∀ command shell, (some command, shell) ∈ state.ledger.announced ->
    command < state.ledger.count ∧ state.ledger.shells command = shell
  /-- No command is reported as a launch that failed. -/
  launched : state.ledger.misreported = []
  /-- No command is lost. -/
  progress : ∀ command < state.ledger.count,
    some command ∈ state.ledger.announced.map Prod.fst ∨
      state.InProgress command

end CompletionState

end Shellmux
end Marsh
