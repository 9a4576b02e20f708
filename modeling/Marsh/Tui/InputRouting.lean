import Marsh.Library.TransitionSystem
import Mathlib.Data.List.Basic
import Mathlib.Logic.Function.Basic

/-!
# Input of the jobs

What is typed for a job goes to its terminal through a writer, or waits in a queue
while a command of the job starts.  Which of the two is decided by the table as
last read and by the submissions that have not been answered.  One worker opens
the jobs and starts the commands; it answers with messages that are handled later.
Commands are numbered as they are submitted.
-/

namespace Marsh
namespace Tui

open Library

/-! ## Bytes -/

/-- What is known of a byte that was typed. -/
structure Keystroke where
  /-- How many bytes were typed for the job before it. -/
  position : Nat
  /-- The command that was starting or running then, or else the last one. -/
  command : Nat
  deriving DecidableEq, Repr

/-- A byte for a terminal: one that was typed, or one of an emulator's reply. -/
structure InputByte where
  byte : UInt8
  typed : Option Keystroke
  deriving DecidableEq, Repr

/-- The bytes among some that were typed. -/
def typedAmong (bytes : List InputByte) : List InputByte :=
  bytes.filter fun byte => byte.typed.isSome

/-- Bytes that are typed for a command after some others. -/
def stamp (command : Nat) : Nat -> List UInt8 -> List InputByte
  | _, [] => []
  | position, byte :: bytes =>
      ⟨byte, some ⟨position, command⟩⟩ :: stamp command (position + 1) bytes

/-- The bytes of a reply. -/
def replyBytes (bytes : List UInt8) : List InputByte :=
  bytes.map fun byte => ⟨byte, none⟩

/-! ## Writers -/

/-- `INPUT_QUEUE_LIMIT` -/
def inputQueueLimit : Nat := 1024 * 1024

/-- One job's input writer and its task. -/
structure InputWriter where
  /-- Packets the task has not received. -/
  channel : List (List InputByte)
  /-- Their length, with that of packets sent after the task returned. -/
  queued : Nat
  /-- What the task has received and not yet written. -/
  writing : List InputByte
  /-- Whether the task has returned. -/
  returned : Bool
  deriving DecidableEq, Repr

namespace InputWriter

/-- `InputWriter::start` -/
def start : InputWriter := ⟨[], 0, [], false⟩

/-- `InputWriter::send` -/
def send (writer : InputWriter) (bytes : List InputByte) : InputWriter :=
  if inputQueueLimit < writer.queued + bytes.length then writer
  else
    { writer with
      queued := writer.queued + bytes.length
      channel := if writer.returned then [] else writer.channel ++ [bytes] }

/-- The bytes that are still to be written. -/
def waiting (writer : InputWriter) : List InputByte :=
  writer.writing ++ writer.channel.flatten

/-- The task receives a packet. -/
def receive
    (writer : InputWriter)
    (packet : List InputByte)
    (rest : List (List InputByte)) : InputWriter :=
  { writer with
    channel := rest
    queued := writer.queued - packet.length
    writing := packet }

/-- The task returns, and its channel is closed. -/
def leave (writer : InputWriter) : InputWriter :=
  { writer with
    channel := []
    writing := []
    returned := true }

end InputWriter

/-! ## Jobs -/

/-- A job's row in the mux. -/
structure MuxJob where
  /-- Whether it has its resources. -/
  opened : Bool
  /-- The command that is being launched. -/
  starting : Option Nat
  /-- The command that is running. -/
  running : Option Nat
  /-- Whether a stop has been accepted. -/
  closing : Bool
  /-- Whether the stop was forced, so that the job is no longer shown. -/
  retired : Bool
  deriving DecidableEq, Repr

/-- A job as the table shows it. -/
structure JobView where
  starting : Bool
  running : Bool
  deriving DecidableEq, Repr

namespace MuxJob

/-- `job_view` -/
def view (job : MuxJob) : Option JobView :=
  if job.retired then none
  else some ⟨job.starting.isSome || !job.opened, job.running.isSome⟩

/-- The command that is running or starting. -/
def command (job : MuxJob) : Option Nat := job.running.or job.starting

end MuxJob

/-- All there is of one job's input. -/
structure JobInput where
  /-- Its row in the mux. -/
  row : Option MuxJob
  /-- Whether the frontend holds a handle of it. -/
  handle : Bool
  /-- The job in the table as last read. -/
  view : Option JobView
  /-- Whether a submission for it has not been answered. -/
  isPending : Bool
  /-- Input held while a command of the job starts. -/
  queuedInput : List InputByte
  /-- Its writer. -/
  writer : Option InputWriter
  /-- What its terminal holds for the command to read. -/
  terminal : List InputByte
  /-- What was typed for it. -/
  typed : List InputByte
  /-- What its commands have read, with the command that did. -/
  read : List (InputByte × Nat)
  /-- The last command that was started in it. -/
  last : Nat
  deriving DecidableEq, Repr

namespace JobInput

/-- A job that has never been opened. -/
def unopened : JobInput := ⟨none, false, none, false, [], none, [], [], [], 0⟩

/-- The bytes that reached its terminal. -/
def delivered (job : JobInput) : List InputByte :=
  job.read.map Prod.fst ++ job.terminal

/-- The bytes that are still to reach it. -/
def waiting (job : JobInput) : List InputByte :=
  (job.writer.elim [] InputWriter.waiting) ++ job.queuedInput

/-- The bytes that no command has read. -/
def unread (job : JobInput) : List InputByte := job.terminal ++ job.waiting

/-- The command that is running or starting in it. -/
def command (job : JobInput) : Option Nat := job.row.bind MuxJob.command

/-- The view of its row. -/
def observed (job : JobInput) : Option JobView := job.row.bind MuxJob.view

/-- Hands bytes to its writer. -/
def send (job : JobInput) (bytes : List InputByte) : JobInput :=
  { job with writer := job.writer.map fun writer => writer.send bytes }

/-- `send_to_child`, for the selected job. -/
def sendToChild (job : JobInput) (bytes : List InputByte) : JobInput :=
  match job.view with
  | none => job
  | some view =>
      if job.isPending || view.starting then
        if inputQueueLimit < job.queuedInput.length + bytes.length then job
        else { job with queuedInput := job.queuedInput ++ bytes }
      else if view.running then job.send bytes
      else job

/-- `sync_writers`: a job that is shown and has its handle gets a writer, and one
that is not shown loses it. -/
def syncWriter (job : JobInput) : JobInput :=
  { job with
    writer :=
      if job.view.isSome then
        if job.writer.isNone ∧ job.handle then
          some InputWriter.start
        else job.writer
      else none }

/-- What a refresh forgets of a job that is not shown. -/
def retain (job : JobInput) : JobInput :=
  if job.view.isSome then job
  else { job with queuedInput := [], isPending := false }

/-- `refresh` -/
def refresh (job : JobInput) (replies : List UInt8) : JobInput :=
  let synced := { job with view := job.observed }.syncWriter
  (if replies = [] then synced else synced.send (replyBytes replies)).retain

/-- What a `Started` message does. -/
def onStarted (job : JobInput) (launched : Bool) : JobInput :=
  let answered := { job with isPending := false, queuedInput := [] }
  if launched ∧ job.queuedInput ≠ [] then answered.send job.queuedInput
  else answered

/-- A change of its row. -/
def changeRow (job : JobInput) (change : MuxJob -> MuxJob) : JobInput :=
  { job with row := job.row.map change }

end JobInput

/-! ## The session -/

/-- A request to the worker.  Those that touch no input are left out. -/
inductive Request
  /-- Open a job, and start a command in it. -/
  | spawn (command : Option Nat) (select : Bool)
  /-- Start a command in a job. -/
  | start (uid command : Nat)
  deriving DecidableEq, Repr

/-- What the worker is at. -/
inductive Worker
  /-- Taking the next request. -/
  | ready
  /-- Opening a job, whose row is reserved. -/
  | opening (uid : Nat) (command : Option Nat) (select : Bool)
  /-- Announcing a job that is open. -/
  | announcing (uid : Nat) (command : Option Nat) (select : Bool)
  /-- Calling `start_in`. -/
  | calling (uid command : Nat)
  /-- Launching a command, which has the job's reservation. -/
  | launching (uid command : Nat)
  /-- Answering for a command. -/
  | answering (uid : Nat) (launched : Bool)
  deriving DecidableEq, Repr

/-- What the worker reports. -/
inductive Message
  /-- A job was opened, or could not be. -/
  | opened (job : Option Nat) (select : Bool)
  /-- A launch settled. -/
  | started (uid : Nat) (launched : Bool)
  deriving DecidableEq, Repr

/-- The command a request is to start in a job. -/
def Request.commandIn (uid : Nat) : Request -> Option Nat
  | start other command => if other = uid then some command else none
  | spawn _ _ => none

/-- The command the worker is to start in a job. -/
def Worker.commandIn (uid : Nat) : Worker -> Option Nat
  | opening other command _ | announcing other command _ =>
      if other = uid then command else none
  | calling other command | launching other command =>
      if other = uid then some command else none
  | ready | answering _ _ => none

/-- The state of a session. -/
structure InputState where
  /-- The jobs, by the identity of their sandbox. -/
  jobs : Nat -> JobInput
  /-- The selected job. -/
  selection : Option Nat
  /-- The worker's queue. -/
  requests : List Request
  worker : Worker
  /-- Reports that have not been handled. -/
  messages : List Message
  /-- How many commands have been submitted. -/
  submitted : Nat

namespace InputState

/-- A session before its first request. -/
def initial : InputState where
  jobs _ := JobInput.unopened
  selection := none
  requests := []
  worker := .ready
  messages := []
  submitted := 0

/-- Changes one job. -/
def change
    (state : InputState)
    (uid : Nat)
    (job : JobInput) : InputState :=
  { state with jobs := Function.update state.jobs uid job }

@[simp] theorem change_jobs
    (state : InputState)
    (uid : Nat)
    (job : JobInput) :
    (state.change uid job).jobs = Function.update state.jobs uid job :=
  rfl

/-- The command that is starting or running in a job: one that the mux has, or one
that was submitted; or else the last one. -/
def commandFor (state : InputState) (uid : Nat) : Nat :=
  let job := state.jobs uid
  (job.command.or ((state.worker.commandIn uid).or
    (state.requests.findSome? (Request.commandIn uid)))).getD job.last

/-- What is typed for a job. -/
def typing
    (state : InputState)
    (uid : Nat)
    (bytes : List UInt8) : JobInput :=
  let job := state.jobs uid
  let stamped := stamp (state.commandFor uid) job.typed.length bytes
  { job.sendToChild stamped with typed := job.typed ++ stamped }

end InputState

/-- A step of a session. -/
inductive InputStep
  /-- Bytes are typed or pasted for the selected job. -/
  | input (bytes : List UInt8)
  /-- Another tab is selected. -/
  | select (selection : Option Nat)
  /-- A command line is submitted. -/
  | submit
  /-- A job is asked for. -/
  | submitSpawn (background select : Bool)
  /-- The table is read again. -/
  | refresh (replies : Nat -> List UInt8) (fallback : Option Nat)
  /-- A report is handled. -/
  | handle
  /-- The worker takes its next request, with the identity of a job to open. -/
  | take (uid : Nat)
  /-- The job is not opened. -/
  | failOpen
  /-- The job gets its resources. -/
  | build
  /-- The job is announced to the frontend. -/
  | announceOpened
  /-- `start_in` reserves the job. -/
  | accept
  /-- `start_in` refuses. -/
  | refuse
  /-- The command runs; the launch may report the failure of a deferred kill. -/
  | publish (deferred : Bool)
  /-- The launch fails. -/
  | failLaunch
  /-- The worker reports. -/
  | answer
  /-- A command is reaped. -/
  | reap (uid : Nat)
  /-- A stop is accepted. -/
  | close (uid : Nat) (force : Bool)
  /-- An idle job leaves the table. -/
  | remove (uid : Nat)
  /-- The frontend is told so. -/
  | announceClosed (uid : Nat)
  /-- A writer's task receives a packet. -/
  | receive (uid : Nat)
  /-- It writes some of it. -/
  | write (uid count : Nat)
  /-- It fails to. -/
  | leave (uid : Nat)
  /-- A command reads some of its input. -/
  | read (uid count : Nat)

namespace InputState

/-- The state after the next report has been handled. -/
def handled (state : InputState) (message : Message) : InputState :=
  match message with
  | .opened none _ => state
  | .opened (some uid) select =>
      { state with
        jobs := fun other =>
          { state.jobs other with view := (state.jobs other).observed }
        selection := if select then some uid else state.selection }
  | .started uid launched =>
      state.change uid ((state.jobs uid).onStarted launched)

/-- What a step does. -/
def Steps (state : InputState) (next : InputState) : InputStep -> Prop
  | .input bytes =>
      ∃ uid, state.selection = some uid ∧ (state.jobs uid).view.isSome ∧
        next = state.change uid (state.typing uid bytes)
  | .select selection => next = { state with selection := selection }
  | .submit =>
      ∃ uid view, state.selection = some uid ∧
        (state.jobs uid).view = some view ∧
        view.starting = false ∧ view.running = false ∧
        (state.jobs uid).isPending = false ∧
        next =
          { state.change uid { state.jobs uid with isPending := true } with
            requests := state.requests ++ [.start uid (state.submitted + 1)]
            submitted := state.submitted + 1 }
  | .submitSpawn background select =>
      next =
        { state with
          requests := state.requests ++
            [.spawn (if background then some (state.submitted + 1) else none)
              select]
          submitted := state.submitted + if background then 1 else 0 }
  | .refresh replies fallback =>
      next =
        { state with
          jobs := fun uid => (state.jobs uid).refresh (replies uid)
          selection :=
            if state.selection.any fun uid => (state.jobs uid).observed.isNone
            then fallback
            else state.selection }
  | .handle =>
      ∃ message rest, state.messages = message :: rest ∧
        next = { state with messages := rest }.handled message
  | .take uid =>
      state.worker = .ready ∧ ∃ rest,
        (∃ command select, state.requests = .spawn command select :: rest ∧
          state.jobs uid = JobInput.unopened ∧
          next =
            { state.change uid
                { JobInput.unopened with
                  row := some ⟨false, none, none, false, false⟩ } with
              requests := rest
              worker := .opening uid command select }) ∨
        (∃ command, state.requests = .start uid command :: rest ∧
          next =
            { state with
              requests := rest
              worker :=
                if (state.jobs uid).observed.isSome then .calling uid command
                else .answering uid false })
  | .failOpen =>
      ∃ uid command select, state.worker = .opening uid command select ∧
        next =
          { state.change uid { state.jobs uid with row := none } with
            worker := .ready
            messages := state.messages ++ [.opened none select] }
  | .build =>
      ∃ uid command select, state.worker = .opening uid command select ∧
        next =
          { state.change uid ((state.jobs uid).changeRow fun row =>
              { row with opened := true }) with
            worker := .announcing uid command select }
  | .announceOpened =>
      ∃ uid command select, state.worker = .announcing uid command select ∧
        next =
          { state.change uid { state.jobs uid with handle := true } with
            worker := command.elim .ready (.calling uid)
            messages := state.messages ++ [.opened (some uid) select] }
  | .accept =>
      ∃ uid command row, state.worker = .calling uid command ∧
        (state.jobs uid).row = some row ∧ row.closing = false ∧
        row.command = none ∧
        next =
          { state.change uid
              { state.jobs uid with
                row := some { row with starting := some command }
                last := command } with
            worker := .launching uid command }
  | .refuse =>
      ∃ uid command, state.worker = .calling uid command ∧
        (∀ row, (state.jobs uid).row = some row ->
          row.closing = true ∨ row.command.isSome) ∧
        next = { state with worker := .answering uid false }
  | .publish deferred =>
      ∃ uid command, state.worker = .launching uid command ∧
        (deferred = true -> (state.jobs uid).row.any MuxJob.retired) ∧
        next =
          { state.change uid ((state.jobs uid).changeRow fun row =>
              { row with
                starting := none
                running := some command
                retired := row.retired && !deferred }) with
            worker := .answering uid (!deferred) }
  | .failLaunch =>
      ∃ uid command, state.worker = .launching uid command ∧
        next =
          { state.change uid ((state.jobs uid).changeRow fun row =>
              { row with starting := none }) with
            worker := .answering uid false }
  | .answer =>
      ∃ uid launched, state.worker = .answering uid launched ∧
        next =
          { state with
            worker := .ready
            messages := state.messages ++ [.started uid launched] }
  | .reap uid =>
      ∃ row command, (state.jobs uid).row = some row ∧
        row.running = some command ∧
        next = state.change uid
          { state.jobs uid with row := some { row with running := none } }
  | .close uid force =>
      next = state.change uid ((state.jobs uid).changeRow fun row =>
        { row with closing := true, retired := row.retired || force })
  | .remove uid =>
      ∃ row, (state.jobs uid).row = some row ∧ row.command = none ∧
        next = state.change uid { state.jobs uid with row := none }
  | .announceClosed uid =>
      (state.jobs uid).row = none ∧
        next = state.change uid { state.jobs uid with handle := false }
  | .receive uid =>
      ∃ writer packet rest, (state.jobs uid).writer = some writer ∧
        writer.writing = [] ∧ writer.channel = packet :: rest ∧
        next = state.change uid
          { state.jobs uid with
            writer := some
              (if (state.jobs uid).row.any fun row =>
                  !row.retired && !row.closing
                then writer.receive packet rest
                else (writer.receive packet rest).leave) }
  | .write uid count =>
      ∃ writer, (state.jobs uid).writer = some writer ∧
        next = state.change uid
          { state.jobs uid with
            writer := some { writer with writing := writer.writing.drop count }
            terminal := (state.jobs uid).terminal ++ writer.writing.take count }
  | .leave uid =>
      ∃ writer, (state.jobs uid).writer = some writer ∧ writer.writing ≠ [] ∧
        next = state.change uid { state.jobs uid with writer := some writer.leave }
  | .read uid count =>
      ∃ row command, (state.jobs uid).row = some row ∧
        row.running = some command ∧
        next = state.change uid
          { state.jobs uid with
            terminal := (state.jobs uid).terminal.drop count
            read := (state.jobs uid).read ++
              ((state.jobs uid).terminal.take count).map fun byte =>
                (byte, command) }

end InputState

/-- A session's runs, over what its jobs' input depends on. -/
def inputMachine : TransitionSystem InputState InputStep where
  initial state := state = InputState.initial
  step state step next := state.Steps next step

end Tui
end Marsh
