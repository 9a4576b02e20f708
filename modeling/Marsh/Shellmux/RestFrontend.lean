import Marsh.Shellmux.JobViews

/-!
# The REST frontend

What it publishes, and its clients.  Every `Changed` is answered with a snapshot
read there and then; a client starts from a snapshot of its own and follows what
is published from its subscription on.  The mux's operations change the table,
the merging flags and the selection first and announce it later.
-/

namespace Marsh
namespace Shellmux

open Library

/-! ## Messages -/

/-- One observation, as it reaches a client. -/
inductive ServerMessage
  /-- The job table or the selection moved on. -/
  | jobs (snapshot : JobsSnapshot)
  | terminal (job uid : String) (data : List UInt8)
  | instrumentation (job uid : String) (data : List UInt8)
  | finished (job : String) (exitCode : Int)
  | closed (job uid : String)
  | resized (size : TerminalSize)
  | ioError (job : String)
  deriving DecidableEq, Repr

namespace ServerMessage

/-- What the frontend publishes of an observation about a job. -/
def ofEvent : FrontendEvent -> List ServerMessage
  | .opened _ => []
  | .terminal shell bytes => [terminal shell.id shell.uid bytes]
  | .instrumentation shell bytes => [instrumentation shell.id shell.uid bytes]
  | .finished shell exitCode => [finished shell.id exitCode]
  | .closed shell => [closed shell.id shell.uid]
  | .ioError shell => [ioError shell.id]

/-- The snapshot a message carries. -/
def snapshot? : ServerMessage -> Option JobsSnapshot
  | jobs snapshot => some snapshot
  | terminal _ _ _ | instrumentation _ _ _ | finished _ _ | closed _ _
  | resized _ | ioError _ => none

end ServerMessage

/-- The last snapshot among some messages. -/
def lastSnapshot (messages : List ServerMessage) : Option JobsSnapshot :=
  (messages.filterMap ServerMessage.snapshot?).getLast?

/-- A client's socket. -/
structure Client where
  /-- Messages published since it subscribed that it has not processed. -/
  unread : List ServerMessage
  /-- A snapshot it is reading for itself, which it sends before it goes on. -/
  reading : Option SnapshotRead
  /-- The last snapshot it was sent. -/
  shown : Option JobsSnapshot
  deriving DecidableEq, Repr

/-! ## The machine -/

/-- The job machine with the selection, the REST frontend and its clients. -/
@[ext] structure DisplayState where
  /-- The jobs. -/
  session : DeliveryState
  /-- The selected job. -/
  current : Option String
  /-- The directory each uid was opened in. -/
  dirs : String -> String
  /-- Announcements of a change that operations have still to make. -/
  owed : Nat
  /-- The snapshot the frontend is reading under its lock. -/
  updating : Option SnapshotRead
  /-- What it has published. -/
  published : List ServerMessage
  /-- Its clients. -/
  clients : Nat -> Option Client

/-- One step. -/
inductive DisplayStep
  /-- A step of the job machine; a spawn opens this directory. -/
  | session (step : DeliveryStep) (dir : String)
  /-- `switch` selects the job. -/
  | select (id : String)
  /-- `resize` announces its size. -/
  | resize (size : TerminalSize)
  /-- An operation announces its change, and the frontend begins to read. -/
  | update
  /-- The frontend reads on, and publishes what it has read. -/
  | publish
  /-- A client subscribes. -/
  | subscribe (client : Nat)
  /-- A client reads on for its greeting, or for what it lagged behind on. -/
  | look (client : Nat)
  /-- A client processes a message. -/
  | receive (client : Nat)
  /-- A client is told that it has lost messages. -/
  | lag (client : Nat) (lost rest : List ServerMessage)
  /-- A client closes its socket. -/
  | leave (client : Nat)

/-- The announcements an operation owes after a section. -/
def JobStep.owes (jobs : JobState) : JobStep -> Nat
  | .spawn _ _ _ _ | .failBuild _ _ _ | .refuseSize _ _ _ | .startIn _ _
  | .publish _ _ _ _ | .submit _ | .keep _ | .stop _ _ | .reclaim _
  | .closeSandbox _ => 1
  | .failLaunch _ _ _ _ _ _ cleared => if cleared then 1 else 0
  -- The conclusion task announces once it has reclaimed what it closed.
  | .checkClose => if jobs.concluder = .taking then 1 else 0
  | .reclaimConcluded => 2
  | .refuseSpawn _ _ | .build _ _ _ | .waited _ _ _ | .prepare _ _ _ _
  | .launch _ _ _ _ _ _ _ | .reportFailure _ _ | .reap _ _ | .take
  | .conclude _ | .finish | .cancel | .killAll _ | .releaseAll => 0

/-- The announcements an operation owes after a step of the job machine. -/
def DeliveryStep.owes (next : DeliveryState) : DeliveryStep -> Nat
  | .job step _ _ => step.owes next.jobs
  | .refuseSize _ | .announceOpened _ => 1
  | .deliverFailure _ _ | .announceFinished _ _ _ _ _ | .read _ _ _ _ _
  | .announceClosed _ | .onFinish _ _ | .join | .abort => 0

namespace JobTable

variable (table : JobTable)

/-- The selection after a closable job of this name is taken. -/
def currentTaken (id : String) (current : Option String) : Option String :=
  if (table.takeClosable id).isSome ∧ current = some id then none else current

/-- The selection after the row of a uid is forgotten. -/
def currentForgotten (uid : String) (current : Option String) : Option String :=
  if (table.rows.find? fun job => job.sandbox.uid = uid).any
      fun job => current = some job.id then none
  else current

end JobTable

namespace DisplayState

variable (state : DisplayState)

/-- What is read for a snapshot. -/
def board : Board where
  rows := state.session.jobs.table.rows
  active := state.session.jobs.queue.active
  current := state.current
  dirs := state.dirs

/-- The selection after a section. -/
def currentAfter : JobStep -> Option String
  | .reportFailure id _ =>
      (state.session.jobs.table.update id Job.drain).currentTaken id
        state.current
  | .checkClose =>
      match state.session.jobs.concluder with
      | .closing id _ =>
          if state.session.jobs.queue.idle id then
            state.session.jobs.table.currentTaken id state.current
          else state.current
      | _ => state.current
  | .reclaimConcluded =>
      match state.session.jobs.concluder with
      | .reclaiming sandbox =>
          state.session.jobs.table.currentForgotten sandbox.uid state.current
      | _ => state.current
  | .stop id force =>
      if state.session.jobs.queue.idle id then
        (state.session.jobs.table.update id (Job.stop force)).currentTaken id
          state.current
      else state.current
  | .reclaim sandbox | .closeSandbox sandbox =>
      state.session.jobs.table.currentForgotten sandbox.uid state.current
  | _ => state.current

/-- The selection after a step of the job machine. -/
def selectionAfter : DeliveryStep -> Option String
  | .job step _ _ => state.currentAfter step
  | _ => state.current

/-- The directories after a step of the job machine. -/
def dirsAfter (dir : String) : DeliveryStep -> String -> String
  | .job (.spawn _ uid _ _) _ _ => Function.update state.dirs uid dir
  | _ => state.dirs

/-- Publishes some messages to every client. -/
def send (messages : List ServerMessage) : DisplayState :=
  { state with
    published := state.published ++ messages
    clients := fun client => (state.clients client).map fun own =>
      { own with unread := own.unread ++ messages } }

/-- Changes one client. -/
def setClient (client : Nat) (own : Option Client) : DisplayState :=
  { state with clients := Function.update state.clients client own }

/-- The frontend reads on, and publishes what it has read. -/
def readOn (read : SnapshotRead) : DisplayState :=
  match read.advance state.board with
  | .inl read => { state with updating := some read }
  | .inr snapshot => { state with updating := none }.send [.jobs snapshot]

end DisplayState

namespace Client

variable (own : Client)

/-- The client reads on, and is sent what it has read. -/
def lookOn (board : Board) (read : SnapshotRead) : Client :=
  match read.advance board with
  | .inl read => { own with reading := some read }
  | .inr snapshot => { own with reading := none, shown := some snapshot }

/-- The client processes a message, which leaves these. -/
def process (message : ServerMessage) (rest : List ServerMessage) : Client :=
  { own with
    unread := rest
    shown := message.snapshot?.or own.shown }

end Client

namespace DisplayState

/-- The steps of the machine. -/
def Steps
    (state : DisplayState)
    (step : DisplayStep)
    (next : DisplayState) : Prop :=
  match step with
  | .session step dir =>
      ∃ session, state.session.Steps step session ∧
        session.phase = .session ∧
        (step.tells ≠ [] -> state.updating = none) ∧
        next =
          { state with
            session := session
            current := state.selectionAfter step
            dirs := state.dirsAfter dir step
            owed := step.owes session + state.owed }.send
              (step.tells.flatMap ServerMessage.ofEvent)
  | .select id =>
      ∃ job, state.session.row id = some job ∧ job.retired = false ∧
        next = { state with current := some id, owed := 1 + state.owed }
  | .resize size =>
      size.Valid ∧ state.updating = none ∧ next = state.send [.resized size]
  | .update =>
      ∃ owed, state.owed = 1 + owed ∧ state.updating = none ∧
        next = { state with owed := owed, updating := some .jobs }
  | .publish =>
      ∃ read, state.updating = some read ∧ next = state.readOn read
  | .subscribe client =>
      state.clients client = none ∧
        next = state.setClient client (some ⟨[], some .jobs, none⟩)
  | .look client =>
      ∃ own read, state.clients client = some own ∧ own.reading = some read ∧
        next = state.setClient client (some (own.lookOn state.board read))
  | .receive client =>
      ∃ own message rest, state.clients client = some own ∧
        own.reading = none ∧ own.unread = message :: rest ∧
        next = state.setClient client (some (own.process message rest))
  | .lag client lost rest =>
      ∃ own, state.clients client = some own ∧ own.reading = none ∧
        own.unread = lost ++ rest ∧ lost ≠ [] ∧
        next = state.setClient client
          (some { own with unread := rest, reading := some .jobs })
  | .leave client => next = state.setClient client none

/-- A new mux has told its frontend of its empty table. -/
def empty : DisplayState where
  session := .empty
  current := none
  dirs _ := ""
  owed := 0
  updating := none
  published := [.jobs ⟨[], none⟩]
  clients _ := none

end DisplayState

/-- The job machine with the REST frontend as a transition system. -/
def displayMachine : TransitionSystem DisplayState DisplayStep where
  initial state := state = .empty
  step := DisplayState.Steps

end Shellmux
end Marsh
