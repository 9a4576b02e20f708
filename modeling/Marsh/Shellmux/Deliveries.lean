import Marsh.Shellmux.ForcedStop

/-!
# Deliveries

What the job machine tells its frontend and its callers.  Events are announced
and callbacks called outside every lock, so each is a step of its own; the byte
pumps and the phases of `shutdown` interleave with the sections.
-/

namespace Marsh
namespace Shellmux

open Library

/-! ## Events and deliveries -/

/-- An observation about one job. -/
inductive FrontendEvent
  /-- The job is open. -/
  | opened (shell : Sandbox)
  /-- Bytes its terminal produced. -/
  | terminal (shell : Sandbox) (bytes : List UInt8)
  /-- Bytes its instrumentation stream produced. -/
  | instrumentation (shell : Sandbox) (bytes : List UInt8)
  /-- A command in it ended. -/
  | finished (shell : Sandbox) (exitCode : Int)
  /-- Its streams are over and its storage is reclaimed. -/
  | closed (shell : Sandbox)
  /-- Reading one of its streams failed. -/
  | ioError (shell : Sandbox)
  deriving DecidableEq, Repr

/-- The job an event is about. -/
def FrontendEvent.shell : FrontendEvent -> Sandbox
  | .opened shell | .terminal shell _ | .instrumentation shell _
  | .finished shell _ | .closed shell | .ioError shell => shell

/-- What a byte pump reads. -/
inductive Stream
  | terminal
  | instrumentation
  deriving DecidableEq, Repr

/-- How one read ends. -/
inductive ReadResult
  | bytes (bytes : List UInt8)
  | endOfFile
  | failed
  deriving DecidableEq, Repr

/-- Who delivers a completion. -/
inductive Source
  /-- `report_launch_failure`. -/
  | launch
  /-- `conclude_one`. -/
  | conclusion
  deriving DecidableEq, Repr

/-- What is under way outside every lock.  `origin` is the sandbox of the row
the operation began with; nothing reads it. -/
inductive Delivery
  /-- `build_resources` has published a row and is to announce it. -/
  | opening (sandbox : Sandbox)
  /-- `report_launch_failure` is to deliver. -/
  | reporting (id : String) (origin : Sandbox)
  /-- `deliver` has read its row and is to announce the completion. -/
  | finishing (source : Source) (origin shell : Sandbox) (exitCode : Int)
      (done : Option Nat)
  /-- A byte pump, with the streams it still reads. -/
  | pumping (shell : Sandbox) (terminal instrumentation : Bool)
  deriving DecidableEq, Repr

/-- How far `shutdown` is. -/
inductive Phase
  /-- It has not begun. -/
  | session
  /-- The merges queue is closed. -/
  | cancelled
  /-- Running commands are killed, their callers released. -/
  | killed
  /-- The owned tasks have returned. -/
  | joined
  /-- Every terminal, pipe and shell is released. -/
  | released
  /-- The pumps and watchers are aborted: it returns. -/
  | ended
  deriving DecidableEq, Repr

/-- The job machine with its deliveries.  Callbacks are numbered, and the last
three fields record what happened; nothing reads them. -/
structure DeliveryState where
  /-- The jobs. -/
  jobs : JobState
  /-- The uid of the construction whose terminal, pipe and shell the row of a uid
  holds. -/
  producers : String -> Option String
  /-- The callback in the row of a uid, which is dropped with its row. -/
  dones : String -> Option Nat
  /-- The rows whose spawn still owns a launch. -/
  owned : List Sandbox
  /-- What is under way outside every lock. -/
  deliveries : Multiset Delivery
  /-- Events delivered, in order. -/
  told : List FrontendEvent
  /-- Callbacks registered so far. -/
  registered : List Nat
  /-- Callbacks called. -/
  called : List Nat
  /-- How far the shutdown is. -/
  phase : Phase
  /-- The sandbox of the command concluded last. -/
  concluded : Option Sandbox
  /-- Pids of the commands that run and are not killed. -/
  unkilled : Finset Nat
  /-- The conclusion under way when the merges queue was closed. -/
  closing : Option Conclusion

/-- One step: a section of the job machine, with the callback a publication
installs and the exit code of a conclusion, or one outside the locks. -/
inductive DeliveryStep
  | job (step : JobStep) (done : Option Nat) (exitCode : Int)
  /-- `build_resources` fails to resize the terminal it has published. -/
  | refuseSize (sandbox : Sandbox)
  /-- `build_resources` announces the job and starts its pump. -/
  | announceOpened (sandbox : Sandbox)
  /-- `report_launch_failure` reads the row for its delivery. -/
  | deliverFailure (id : String) (origin : Sandbox)
  /-- `deliver` announces the completion and calls the callback. -/
  | announceFinished (source : Source) (origin shell : Sandbox)
      (exitCode : Int) (done : Option Nat)
  /-- A pump reads one of its streams. -/
  | read (shell : Sandbox) (terminal instrumentation : Bool) (stream : Stream)
      (result : ReadResult)
  /-- A pump whose streams are over and whose row is released ends. -/
  | announceClosed (shell : Sandbox)
  /-- `on_finish` registers a callback. -/
  | onFinish (id : String) (done : Nat)
  /-- `shutdown` has joined the owned tasks. -/
  | join
  /-- `shutdown` aborts the pumps and watchers that are left. -/
  | abort

/-! ## What a section does besides -/

/-- Whether a caller's operation is in progress, which the host awaits before it
shuts down; a launch is the mux's own when its spawn owns it. -/
def Task.hosted (owned : List Sandbox) : Task -> Bool
  | .building _ _ _ | .waiting _ _ _ => true
  | .preparing _ _ _ own | .launching _ _ _ _ own => !own
  | .publishing _ origin _ => !owned.contains origin
  | .failing _ _ | .watching _ _ | .submitting _ | .reclaiming _ => false

/-- Whether the pid is that of a child nobody has reaped. -/
def Task.holdsPid (pid : Nat) : Task -> Bool
  | .publishing _ _ started => started.pid = pid
  | .watching _ watched => watched = pid
  | .building _ _ _ | .waiting _ _ _ | .preparing _ _ _ _
  | .launching _ _ _ _ _ | .failing _ _ | .submitting _ | .reclaiming _ =>
      false

/-- The launch a spawn owns, which has not begun. -/
def Task.launchOf (sandbox : Sandbox) : Task -> Bool
  | .preparing _ _ origin owned => owned && origin = sandbox
  | .building _ _ _ | .waiting _ _ _ | .launching _ _ _ _ _
  | .publishing _ _ _ | .failing _ _ | .watching _ _ | .submitting _
  | .reclaiming _ => false

/-- Whether the command is running under this pid. -/
def Job.runs (pid : Nat) (job : Job) : Bool :=
  job.running.any fun started => started.pid = pid

namespace DeliveryState

variable (state : DeliveryState)

/-- The row of a name. -/
def row (id : String) : Option Job :=
  state.jobs.table.find id

/-- What `deliver` takes out of the row of a name. -/
def deliver
    (source : Source)
    (id : String)
    (origin : Sandbox)
    (exitCode : Int) : Multiset Delivery :=
  match state.row id with
  | some job =>
      {.finishing source origin job.sandbox exitCode
        (state.dones job.sandbox.uid)}
  | none => 0

/-- The callbacks `deliver` leaves. -/
def silenced (id : String) : String -> Option Nat :=
  match state.row id with
  | some job => Function.update state.dones job.sandbox.uid none
  | none => state.dones

/-- Releases what the row of a uid holds. -/
def releases (uid : String) : String -> Option String :=
  Function.update state.producers uid none

/-- What the rows hold after a section. -/
def producersAfter : JobStep -> String -> Option String
  | .build id sandbox _ =>
      match state.row id with
      | some job =>
          Function.update state.producers job.sandbox.uid (some sandbox.uid)
      | none => state.producers
  | .failBuild id _ _ =>
      match state.row id with
      | some job => state.releases job.sandbox.uid
      | none => state.producers
  | .reclaim sandbox => state.releases sandbox.uid
  | .reclaimConcluded =>
      match state.jobs.concluder with
      | .reclaiming sandbox => state.releases sandbox.uid
      | _ => state.producers
  | .closeSandbox sandbox =>
      -- A row another operation has taken keeps what it holds.
      if state.jobs.table.rows.any fun job => job.sandbox.uid = sandbox.uid then
        state.releases sandbox.uid
      else state.producers
  | .checkClose =>
      match state.jobs.concluder with
      | .closing id true =>
          if state.jobs.queue.idle id then
            match state.jobs.table.takeClosable id with
            | some (sandbox, _) => state.releases sandbox.uid
            | none => state.producers
          else state.producers
      | _ => state.producers
  | .releaseAll => fun uid =>
      if state.jobs.table.rows.any fun job => job.sandbox.uid = uid then none
      else state.producers uid
  | _ => state.producers

/-- The callbacks after a section.  The kill pass takes those of every row. -/
def donesAfter (done : Option Nat) : JobStep -> String -> Option Nat
  | .publish id _ _ killed =>
      match state.row id with
      | some job =>
          -- A caller told its start failed is not called back.
          if job.retired && !killed then state.dones
          else Function.update state.dones job.sandbox.uid done
      | none => state.dones
  | .conclude _ =>
      match state.jobs.concluder with
      | .concluding conclusion => state.silenced conclusion.id
      | _ => state.dones
  | .killAll _ => fun _ => none
  | _ => state.dones

/-- The deliveries a section begins. -/
def begun (exitCode : Int) : JobStep -> Multiset Delivery
  | .build _ sandbox _ => {.opening sandbox}
  | .prepare id _ origin true =>
      if ((state.row id).filter Job.built).isNone then {.reporting id origin}
      else 0
  | .failLaunch id _ origin _ true _ _ => {.reporting id origin}
  | .publish id origin _ killed =>
      -- Alive and unkillable: reported as a failure all the same.
      if origin ∈ state.owned ∧ (state.row id).any Job.retired ∧ killed = false
      then {.reporting id origin} else 0
  | .conclude _ =>
      match state.jobs.concluder with
      | .concluding conclusion =>
          state.deliver .conclusion conclusion.id conclusion.started.sandbox
            exitCode
      | _ => 0
  | _ => 0

/-- The rows whose spawn owns a launch after a section. -/
def ownedAfter : JobStep -> List Sandbox
  | .build _ sandbox (some _) => sandbox :: state.owned
  | .prepare id _ origin true =>
      if ((state.row id).filter Job.built).isNone then state.owned.erase origin
      else state.owned
  | .failLaunch _ _ origin _ true _ _ => state.owned.erase origin
  | .publish _ origin _ _ => state.owned.erase origin
  | _ => state.owned

/-- The pids of the commands that run and are not killed after a section. -/
def unkilledAfter : JobStep -> Finset Nat
  | .launch _ _ _ _ _ pid _ => insert pid state.unkilled
  | .publish id _ started killed =>
      if (state.row id).any Job.retired ∧ killed = true then
        state.unkilled.erase started.pid
      else state.unkilled
  | .stop id true =>
      state.unkilled.filter fun pid => ¬ (state.row id).any (Job.runs pid)
  | .killAll killable =>
      state.unkilled.filter fun pid => ¬ state.jobs.table.rows.any fun job =>
        killable job.id && job.runs pid
  | .reap _ pid => state.unkilled.erase pid
  | _ => state.unkilled

end DeliveryState

/-- How far a section takes the shutdown. -/
def JobStep.phase (phase : Phase) : JobStep -> Phase
  | .cancel => .cancelled
  | .killAll _ => .killed
  | .releaseAll => .released
  | _ => phase

/-! ## The steps -/

/-- Who delivers the completion. -/
def Delivery.source : Delivery -> Option Source
  | .finishing source _ _ _ _ => some source
  | .opening _ | .reporting _ _ | .pumping _ _ _ => none

/-- The row whose failed launch is still to be announced. -/
def Delivery.failure : Delivery -> Option Sandbox
  | .reporting _ origin => some origin
  | .finishing .launch origin _ _ _ => some origin
  | .opening _ | .finishing .conclusion _ _ _ _ | .pumping _ _ _ => none

/-- Whether a byte pump. -/
def Delivery.pumps : Delivery -> Bool
  | .pumping _ _ _ => true
  | .opening _ | .reporting _ _ | .finishing _ _ _ _ _ => false

/-- Whether a command's watcher, or what it does. -/
def Task.watches : Task -> Bool
  | .watching _ _ | .submitting _ => true
  | .building _ _ _ | .waiting _ _ _ | .preparing _ _ _ _
  | .launching _ _ _ _ _ | .publishing _ _ _ | .failing _ _
  | .reclaiming _ => false

/-- The event a read announces. -/
def Stream.event
    (shell : Sandbox)
    (stream : Stream)
    (result : ReadResult) : List FrontendEvent :=
  match result, stream with
  | .bytes bytes, .terminal => [.terminal shell bytes]
  | .bytes bytes, .instrumentation => [.instrumentation shell bytes]
  | .endOfFile, _ => []
  | .failed, _ => [.ioError shell]

/-- Whether a read leaves the stream open. -/
def ReadResult.continues : ReadResult -> Bool
  | .bytes _ => true
  | .endOfFile | .failed => false

namespace DeliveryState

/-- The order an operation's own sections, its deliveries and the shutdown keep,
and what the kernel and the callers promise: an unreaped pid is not handed out,
a callback is registered once, and the host issues nothing after it has begun to
shut down. -/
def Ready (state : DeliveryState) (done : Option Nat) : JobStep -> Prop
  | .spawn _ _ _ _ | .refuseSpawn _ _ | .startIn _ _ | .keep _ | .stop _ _
  | .closeSandbox _ => state.phase = .session
  | .prepare _ _ origin owned =>
      owned = true -> Delivery.opening origin ∉ state.deliveries
  | .launch _ _ _ _ _ pid _ =>
      pid ∉ state.unkilled ∧
        ∀ task ∈ state.jobs.tasks, task.holdsPid pid = false
  | .publish _ _ _ _ => ∀ given, done = some given -> given ∉ state.registered
  | .reportFailure _ origin =>
      ∀ delivery ∈ state.deliveries, delivery.failure ≠ some origin
  | .finish =>
      ∀ delivery ∈ state.deliveries, delivery.source ≠ some .conclusion
  | .cancel =>
      state.phase = .session ∧
        (∀ task ∈ state.jobs.tasks, task.hosted state.owned = false) ∧
        ∀ sandbox, Delivery.opening sandbox ∉ state.deliveries
  | .killAll _ => state.phase = .cancelled
  | .releaseAll => state.phase = .joined
  -- Here a refused size is a step of its own, which takes its announcement.
  | .refuseSize _ _ _ => False
  | _ => True

/-- The state after a section of the job machine. -/
def after
    (state : DeliveryState)
    (step : JobStep)
    (done : Option Nat)
    (exitCode : Int)
    (jobs : JobState) : DeliveryState :=
  { state with
    jobs := jobs
    producers := state.producersAfter step
    dones := state.donesAfter done step
    owned := state.ownedAfter step
    deliveries := state.begun exitCode step + state.deliveries
    registered := match step with
      | .publish _ _ _ _ => done.toList ++ state.registered
      | _ => state.registered
    phase := step.phase state.phase
    concluded := match step, state.jobs.concluder with
      | .conclude _, .concluding conclusion => some conclusion.started.sandbox
      | _, _ => state.concluded
    unkilled := state.unkilledAfter step
    closing := match step, state.jobs.concluder with
      | .cancel, .concluding conclusion => some conclusion
      | _, _ => state.closing }

/-- A delivery is under way, and these are the others. -/
def Under
    (state : DeliveryState)
    (delivery : Delivery)
    (rest : Multiset Delivery) : Prop :=
  state.deliveries = delivery ::ₘ rest

/-- The steps of the job machine with its deliveries. -/
def Steps
    (state : DeliveryState)
    (step : DeliveryStep)
    (next : DeliveryState) : Prop :=
  match step with
  | .job step done exitCode =>
      ∃ jobs, state.jobs.Steps step jobs ∧ state.Ready done step ∧
        next = state.after step done exitCode jobs
  | .refuseSize sandbox =>
      ∃ rest, state.Under (.opening sandbox) rest ∧
        next =
          { state with
            jobs :=
              { state.jobs with
                table := state.jobs.table.remove fun job =>
                  job.id = sandbox.id
                tasks := state.jobs.tasks.filter fun task =>
                  task.launchOf sandbox = false }
            producers := match state.row sandbox.id with
              | some job => state.releases job.sandbox.uid
              | none => state.producers
            owned := state.owned.erase sandbox
            deliveries := rest }
  | .announceOpened sandbox =>
      ∃ rest, state.Under (.opening sandbox) rest ∧
        next =
          { state with
            deliveries := .pumping sandbox true true ::ₘ rest
            told := state.told ++ [.opened sandbox] }
  | .deliverFailure id origin =>
      ∃ rest, state.Under (.reporting id origin) rest ∧
        next =
          { state with
            dones := state.silenced id
            deliveries := state.deliver .launch id origin (-1) + rest }
  | .announceFinished source origin shell exitCode done =>
      ∃ rest, state.Under (.finishing source origin shell exitCode done) rest ∧
        next =
          { state with
            deliveries := rest
            told := state.told ++ [.finished shell exitCode]
            called := done.toList ++ state.called }
  | .read shell terminal instrumentation stream result =>
      ∃ rest, state.Under (.pumping shell terminal instrumentation) rest ∧
        (match stream with
          | .terminal => terminal
          | .instrumentation => instrumentation) = true ∧
        next =
          { state with
            deliveries :=
              (match stream with
                | .terminal =>
                    .pumping shell result.continues instrumentation
                | .instrumentation =>
                    .pumping shell terminal result.continues) ::ₘ rest
            told := state.told ++ stream.event shell result }
  | .announceClosed shell =>
      ∃ rest, state.Under (.pumping shell false false) rest ∧
        (∀ uid, state.producers uid ≠ some shell.uid) ∧
        next =
          { state with
            deliveries := rest
            told := state.told ++ [.closed shell] }
  | .onFinish id done =>
      state.phase = .session ∧ done ∉ state.registered ∧
        ∃ job, state.row id = some job ∧ job.running.isSome ∧
          state.dones job.sandbox.uid = none ∧
          next =
            { state with
              dones := Function.update state.dones job.sandbox.uid (some done)
              registered := done :: state.registered }
  | .join =>
      state.phase = .killed ∧ state.jobs.concluder = .taking ∧
        state.jobs.queue.pending = [] ∧
        (∀ task ∈ state.jobs.tasks, task.watches = true) ∧
        (∀ delivery ∈ state.deliveries, delivery.pumps = true) ∧
        next = { state with phase := .joined }
  | .abort =>
      state.phase = .released ∧
        next =
          { state with
            jobs :=
              { state.jobs with
                tasks := state.jobs.tasks.filter fun task =>
                  task.watches = false }
            deliveries := 0
            phase := .ended }

/-- The machine before any operation. -/
def empty : DeliveryState where
  jobs := .empty
  producers _ := none
  dones _ := none
  owned := []
  deliveries := 0
  told := []
  registered := []
  called := []
  phase := .session
  concluded := none
  unkilled := ∅
  closing := none

end DeliveryState

/-- The job machine with its deliveries as a transition system. -/
def deliveryMachine : TransitionSystem DeliveryState DeliveryStep where
  initial state := state = .empty
  step := DeliveryState.Steps

end Shellmux
end Marsh
