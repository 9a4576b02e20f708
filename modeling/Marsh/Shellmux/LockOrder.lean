import Marsh.Library.LockProgram

/-!
# The order of the mux's locks

Every operation of the mux as the guards it holds on the frontend, the merges
queue, the job table, the readers map and the authority, with its error paths.
Nothing else an operation does holds one of them.
-/

namespace Marsh
namespace Shellmux

open Library

/-! ## The locks -/

/-- The mutexes and the reader-writer lock of a mux. -/
inductive MuxLock
  /-- `ShellMux::frontend`. -/
  | frontend
  /-- The queue of `ShellMux::merges`. -/
  | merges
  /-- `ShellMux::jobs`. -/
  | jobs
  /-- `ShellMux::readers`. -/
  | readers
  /-- `ShellMux::state`, which is read shared and written alone. -/
  | state
  deriving DecidableEq, Repr

/-- What an operation of the mux does about its locks. -/
abbrev MuxProgram := LockProgram MuxLock

namespace MuxProgram

/-- A block under a mutex. -/
def locked (lock : MuxLock) (body : MuxProgram) : MuxProgram :=
  .hold lock .exclusive body

/-- A call that may end in an early return, or go on. -/
def returnOr (rest : MuxProgram) : MuxProgram :=
  .skip <|> rest

/-! ## What a frontend reads -/

/-- `jobs`, `job`, `current_job` and any other short section of the table. -/
def jobTable : MuxProgram := locked .jobs .skip

/-- `is_merging`, and the sections of `submit`, `take`, `finish`, `wait_for`,
`idle` and `cancel`. -/
def mergesQueue : MuxProgram := locked .merges .skip

/-- `history` and `active_capabilities`. -/
def readState : MuxProgram := .hold .state .shared .skip

/-- The sections of `conclude` and `conclude_bypass` under `write_state`. -/
def writeState : MuxProgram := .hold .state .exclusive .skip

/-- A frontend callback, which may read the mux back. -/
def callback : MuxProgram := .many (jobTable <|> mergesQueue <|> readState)

/-- `notify` and `announce`, `bind` included. -/
def announce : MuxProgram := locked .frontend callback

/-! ## Reader trees -/

/-- `acquire_reader`. -/
def acquireReader : MuxProgram := locked .readers readState

/-- `release_reader`, which reads the version unless readers are left. -/
def releaseReader : MuxProgram := locked .readers (returnOr readState)

/-- `discard_reader`. -/
def discardReader : MuxProgram := locked .readers .skip

/-! ## Commands -/

/-- `launch`: no worker, a snapshot of its own, or a reader tree. -/
def launch : MuxProgram :=
  returnOr (readState <|> acquireReader >> returnOr releaseReader)

/-- `start_cmd`. -/
def startCmd : MuxProgram := launch >> returnOr releaseReader

/-- `conclude_bypass`. -/
def concludeBypass : MuxProgram :=
  discardReader <|> returnOr writeState

/-- `conclude`. -/
def conclude : MuxProgram :=
  returnOr releaseReader >> (concludeBypass <|> returnOr writeState)

/-- `run_cmd`. -/
def runCmd : MuxProgram := launch >> (returnOr releaseReader <|> conclude)

/-- `conclude_cmd`. -/
def concludeCmd : MuxProgram := returnOr conclude

/-! ## Jobs -/

/-- `close_sandbox`. -/
def closeSandbox : MuxProgram := jobTable >> announce

/-- `reclaim`. -/
def reclaim : MuxProgram := closeSandbox

/-- `deliver`. -/
def deliver : MuxProgram := jobTable >> returnOr announce

/-- `build_resources` when it fails. -/
def buildFailure : MuxProgram := returnOr jobTable

/-- `build_resources` when it publishes the job. -/
def buildResources : MuxProgram := jobTable >> announce >> announce

/-- `spawn`, without the launch it starts. -/
def spawn : MuxProgram :=
  jobTable >> returnOr (announce >>
    (buildResources <|> buildFailure >> jobTable >> announce))

/-- `launch_into`: the job is gone, the principal's shell fails, the launch
does, or the command is published. -/
def launchInto : MuxProgram :=
  jobTable >> returnOr ((.skip <|> startCmd) >> returnOr (jobTable >> announce))

/-- `report_launch_failure`. -/
def reportLaunchFailure : MuxProgram :=
  deliver >> jobTable >> returnOr reclaim

/-- `wait_for`. -/
def waitFor : MuxProgram := mergesQueue >> .many mergesQueue

/-- `start_in`. -/
def startIn : MuxProgram :=
  jobTable >> returnOr (announce >> waitFor >> launchInto)

/-- `keep`. -/
def keep : MuxProgram := jobTable >> announce

/-- `await_launch`. -/
def awaitLaunch : MuxProgram := jobTable >> .many jobTable

/-- `switch`. -/
def switch : MuxProgram :=
  jobTable >> returnOr (keep >> awaitLaunch >> jobTable >> returnOr announce)

/-- `stop`, whose section of the table is inside one of the queue. -/
def stop : MuxProgram :=
  locked .merges jobTable >> returnOr (announce >> returnOr reclaim)

/-- `resize`. -/
def resize : MuxProgram := returnOr (jobTable >> returnOr announce)

/-- `reap_command`. -/
def reapCommand : MuxProgram :=
  jobTable >> returnOr (mergesQueue >> announce)

/-- `conclude_one`.  The queue is locked and released, the conclusion is
finished, and whether the job is idle is asked of the queue under the table. -/
def concludeOne : MuxProgram :=
  concludeCmd >> deliver >> mergesQueue >> mergesQueue >>
    locked .jobs mergesQueue >> returnOr reclaim >> announce

/-- `shutdown`, with `detach`. -/
def shutdown : MuxProgram :=
  mergesQueue >> jobTable >> jobTable >> announce

/-- `ShellMux::new`. -/
def new : MuxProgram := locked .frontend .skip >> returnOr announce

end MuxProgram

/-- What callers and the mux's own tasks run. -/
inductive MuxOperation
  | new
  | spawn
  | launchTask
  | startIn
  | switch
  | keep
  | stop
  | resize
  | onFinish
  | writeInput
  | reap
  | takeConclusion
  | concludeOne
  | closeSandbox
  | runCmd
  | pump
  | read
  | shutdown
  deriving DecidableEq, Repr

open MuxProgram in
/-- The guards of an operation. -/
def MuxOperation.program : MuxOperation -> MuxProgram
  | .new => MuxProgram.new
  | .spawn => MuxProgram.spawn
  | .launchTask => launchInto >> returnOr reportLaunchFailure
  | .startIn => MuxProgram.startIn
  | .switch => MuxProgram.switch
  | .keep => MuxProgram.keep
  | .stop => MuxProgram.stop
  | .resize => MuxProgram.resize
  | .onFinish => jobTable
  | .writeInput => jobTable
  | .reap => reapCommand
  | .takeConclusion => .many mergesQueue
  | .concludeOne => MuxProgram.concludeOne
  | .closeSandbox => MuxProgram.closeSandbox
  | .runCmd => MuxProgram.runCmd
  | .pump => .many announce
  | .read => callback
  | .shutdown => MuxProgram.shutdown

/-- A mux under any interleaving of the operations of its callers and tasks. -/
def muxLocks (Name : Type) [DecidableEq Name] :
    TransitionSystem (Name -> LockCaller MuxLock) (LockStep Name MuxLock) :=
  lockMachine Name (Set.range MuxOperation.program)

/-! ## Orders -/

namespace MuxLock

/-- The documented order, in which the queue comes before the job table. -/
def documented : MuxLock -> MuxLock -> Bool
  | .frontend, .merges | .frontend, .jobs | .frontend, .state => true
  | .merges, .jobs | .readers, .state => true
  | _, _ => false

/-- The order of every operation, the job table before the queue too. -/
def before : MuxLock -> MuxLock -> Bool
  | .jobs, .merges => true
  | outer, inner => documented outer inner

@[simp] theorem before_self (lock : MuxLock) : before lock lock = false := by
  cases lock <;> rfl

/-- The rank of the documented order. -/
def queueFirst : MuxLock -> Nat
  | .frontend | .readers => 0
  | .merges | .state => 1
  | .jobs => 2

/-- The rank of the order in which the job table comes before the queue. -/
def tableFirst : MuxLock -> Nat
  | .frontend | .readers => 0
  | .jobs | .state => 1
  | .merges => 2

theorem queueFirst_lt
    {outer inner : MuxLock}
    (ordered : before outer inner = true)
    (apart : outer = .jobs -> inner ≠ .merges) :
    queueFirst outer < queueFirst inner := by
  cases outer <;> cases inner <;> simp_all [before, documented, queueFirst]

theorem tableFirst_lt
    {outer inner : MuxLock}
    (ordered : before outer inner = true)
    (apart : outer = .merges -> inner ≠ .jobs) :
    tableFirst outer < tableFirst inner := by
  cases outer <;> cases inner <;> simp_all [before, documented, tableFirst]

end MuxLock

/-- Every operation but a conclusion takes its locks along the documented
order. -/
theorem respects_documented
    {operation : MuxOperation}
    (other : operation ≠ .concludeOne) :
    operation.program.respects MuxLock.documented [] = true := by
  cases operation with
  | concludeOne => contradiction
  | _ => decide

/-- Every operation takes its locks along `before`. -/
theorem respects_before (operation : MuxOperation) :
    operation.program.respects MuxLock.before [] = true := by
  cases operation <;> decide

/-! ## Stops and conclusions -/

/-- A stop enters its section of the queue only while no conclusion is between
the table and the queue, and a conclusion takes the table for its close check
only while no stop is between the queue and the table. -/
def KeepsApart
    {Name : Type}
    (callers : Name -> LockCaller MuxLock)
    (step : LockStep Name MuxLock) : Prop :=
  EntersApart .merges .jobs callers step ∧
    EntersApart .jobs .merges callers step

section Callers

variable {Name : Type} [DecidableEq Name]
variable {callers : Name -> LockCaller MuxLock}

/-- What every run keeps whose stops and conclusions are kept apart. -/
theorem formed_and_apart
    (reachable : ((muxLocks Name).restrict KeepsApart).Reachable callers) :
    (∀ name, (callers name).Formed MuxLock.before) ∧
      Apart .merges .jobs callers := by
  refine reachable.invariant (fun callers =>
    (∀ name, (callers name).Formed MuxLock.before) ∧
      Apart .merges .jobs callers) ?_ ?_
  · intro callers idle
    refine ⟨fun name => ?_, fun name other encloses => ?_⟩
    · rw [idle name]
      exact .idle
    · rw [idle name] at encloses
      exact absurd encloses.1 List.not_mem_nil
  · rintro callers step next - ⟨formed, apart⟩ ⟨steps, enters, converse⟩
    refine ⟨formed_of_step MuxLock.before_self ?_ formed steps,
      apart_of_step (by decide) formed apart steps enters converse⟩
    rintro program ⟨operation, rfl⟩
    exact respects_before operation

omit [DecidableEq Name] in
/-- A caller that holds one lock and wants another encloses it. -/
theorem encloses_of_wants
    {name : Name}
    {outer inner : MuxLock}
    (held : outer ∈ (callers name).locks)
    (wants : (callers name).Wants inner) :
    (callers name).Encloses outer inner := by
  obtain ⟨mode, rest, left⟩ := wants
  exact ⟨held, by rw [left]; exact .inl rfl⟩

/-- In every run whose stops and conclusions are kept apart no callers wait for
one another's locks in a cycle. -/
theorem deadlockFree_of_keepsApart
    (reachable : ((muxLocks Name).restrict KeepsApart).Reachable callers) :
    DeadlockFree callers := by
  obtain ⟨formed, apart⟩ := formed_and_apart reachable
  have ordered : ∀ name lock, (callers name).Wants lock ->
      ∀ outer ∈ (callers name).locks, MuxLock.before outer lock = true :=
    fun name lock wants => (formed name).before_of_wants wants
  by_cases stopping : ∃ name, (callers name).Encloses .merges .jobs
  · -- No conclusion is between the table and the queue: the queue is first.
    obtain ⟨stop, encloses⟩ := stopping
    refine deadlockFree_of_rank MuxLock.queueFirst ?_
    intro name lock wants outer held
    have before := ordered name lock wants outer held
    refine MuxLock.queueFirst_lt before fun outside inside => ?_
    subst outside inside
    exact apart stop name encloses (encloses_of_wants held wants)
  · -- No stop is between the queue and the table: the table is first.
    refine deadlockFree_of_rank MuxLock.tableFirst ?_
    intro name lock wants outer held
    have before := ordered name lock wants outer held
    refine MuxLock.tableFirst_lt before fun outside inside => ?_
    subst outside inside
    exact stopping ⟨name, encloses_of_wants held wants⟩

end Callers

/-! ## A stop during a close check -/

open MuxProgram

/-- A stop of a job whose command runs on. -/
def stopRun : List (LockAction MuxLock) :=
  [.acquire .merges .exclusive, .acquire .jobs .exclusive, .release .jobs,
    .release .merges, .acquire .frontend .exclusive, .release .frontend]

/-- A conclusion up to the table of its close check: its transaction has been
recorded, its end announced and its count taken off the queue. -/
def concluded : List (LockAction MuxLock) :=
  [.acquire .state .exclusive, .release .state, .acquire .jobs .exclusive,
    .release .jobs, .acquire .frontend .exclusive, .release .frontend,
    .acquire .merges .exclusive, .release .merges,
    .acquire .merges .exclusive, .release .merges,
    .acquire .jobs .exclusive]

/-- The rest of a conclusion of a job that stays open. -/
def closeCheck : List (LockAction MuxLock) :=
  [.acquire .merges .exclusive, .release .merges, .release .jobs,
    .acquire .frontend .exclusive, .release .frontend]

theorem runs_section (lock : MuxLock) :
    (locked lock .skip).Runs
      [.acquire lock .exclusive, .release lock] :=
  .hold .skip

theorem runs_announce :
    announce.Runs [.acquire .frontend .exclusive, .release .frontend] :=
  .hold .none

theorem runs_stop : MuxOperation.stop.program.Runs stopRun :=
  .seq (.hold (runs_section .jobs)) (.right (.seq runs_announce (.left .skip)))

theorem runs_concludeOne :
    MuxOperation.concludeOne.program.Runs (concluded ++ closeCheck) := by
  have transaction : concludeCmd.Runs
      [.acquire .state .exclusive, .release .state] :=
    .right (.seq (.left .skip) (.right (.right (.hold .skip))))
  have delivered : deliver.Runs _ :=
    .seq (runs_section .jobs) (.right runs_announce)
  have checked : (locked .jobs mergesQueue).Runs _ :=
    .hold (runs_section .merges)
  have reclaimed : (returnOr reclaim).Runs [] := .left .skip
  have whole : concludeOne.Runs _ :=
    .seq transaction (.seq delivered (.seq (runs_section .merges)
      (.seq (runs_section .merges) (.seq checked
        (.seq reclaimed runs_announce)))))
  exact whole

/-- A task that concludes and two callers that stop jobs. -/
inductive Contender
  | concludes
  | stops
  | waits
  deriving DecidableEq

/-- A conclusion records its transaction, a stop has the queue, and another stop
waits for the queue. -/
def contended : Contender -> LockCaller MuxLock
  | .concludes => ⟨[(.state, .exclusive)], (concluded ++ closeCheck).tail⟩
  | .stops => ⟨[(.merges, .exclusive)], stopRun.tail⟩
  | .waits => ⟨[], stopRun⟩

/-- A stop waits for another beside a conclusion, and no callers wait for one
another. -/
theorem deadlockFree_of_keepsApart_contended :
    DeadlockFree contended ∧ WaitsFor contended .waits .stops := by
  let machine := (muxLocks Contender).restrict KeepsApart
  let idle : Contender -> LockCaller MuxLock := fun _ => .idle
  let called := Function.update idle .concludes ⟨[], concluded ++ closeCheck⟩
  let recording := Function.update called .concludes
    ⟨[(.state, .exclusive)], (concluded ++ closeCheck).tail⟩
  let stops := Function.update recording .stops ⟨[], stopRun⟩
  let queued :=
    Function.update stops .stops ⟨[(.merges, .exclusive)], stopRun.tail⟩
  have calls : machine.Reachable called :=
    .step (.call .concludes (concluded ++ closeCheck)) (.start fun _ => rfl)
      ⟨⟨rfl, ⟨_, ⟨.concludeOne, rfl⟩, runs_concludeOne⟩, rfl⟩, trivial,
        trivial⟩
  have records : machine.Reachable recording := by
    refine .step (.acquire .concludes) calls
      ⟨⟨.state, .exclusive, (concluded ++ closeCheck).tail, rfl, ?_, rfl⟩,
        ?_, ?_⟩
    · intro other guard member
      cases other <;> exact absurd member List.not_mem_nil
    · rintro mode rest ⟨⟩
    · rintro mode rest ⟨⟩
  have stopped : machine.Reachable stops :=
    .step (.call .stops stopRun) records
      ⟨⟨rfl, ⟨_, ⟨.stop, rfl⟩, runs_stop⟩, rfl⟩, trivial, trivial⟩
  have enters : machine.Reachable queued := by
    refine .step (.acquire .stops) stopped
      ⟨⟨.merges, .exclusive, stopRun.tail, rfl, ?_, rfl⟩, ?_, ?_⟩
    · intro other guard member same
      cases other
      · obtain rfl := List.mem_singleton.mp member
        contradiction
      · exact absurd member List.not_mem_nil
      · exact absurd member List.not_mem_nil
    · rintro mode rest left enters other ⟨held, -⟩
      revert held
      cases other <;> decide
    · rintro mode rest ⟨⟩
  have free := deadlockFree_of_keepsApart
    (.step (.call .waits stopRun) enters
      ⟨⟨rfl, ⟨_, ⟨.stop, rfl⟩, runs_stop⟩, rfl⟩, trivial, trivial⟩)
  refine ⟨?_, .merges, ⟨.exclusive, _, rfl⟩, List.mem_singleton_self _⟩
  convert free using 1
  funext name
  cases name <;> rfl

/-- A conclusion that has the table for its close check waits for the queue,
which a stop has, and the stop waits for the table. -/
def deadlocked : Bool -> LockCaller MuxLock
  | false => ⟨[(.jobs, .exclusive)], closeCheck⟩
  | true => ⟨[(.merges, .exclusive)], stopRun.tail⟩

theorem reachable_deadlocked : (muxLocks Bool).Reachable deadlocked := by
  let idle : Bool -> LockCaller MuxLock := fun _ => .idle
  let called := Function.update idle false ⟨[], concluded ++ closeCheck⟩
  let checking :=
    Function.update called false ⟨[(.jobs, .exclusive)], closeCheck⟩
  let both := Function.update checking true ⟨[], stopRun⟩
  have calls : (muxLocks Bool).Reachable called :=
    .step (.call false (concluded ++ closeCheck)) (.start fun _ => rfl)
      ⟨rfl, ⟨_, ⟨.concludeOne, rfl⟩, runs_concludeOne⟩, rfl⟩
  have checks : (muxLocks Bool).Reachable checking := by
    refine reachable_of_runAlone calls (fun other apart => ?_) rfl rfl
    cases other
    · contradiction
    · rfl
  have stops : (muxLocks Bool).Reachable both :=
    .step (.call true stopRun) checks
      ⟨rfl, ⟨_, ⟨.stop, rfl⟩, runs_stop⟩, rfl⟩
  have queued : (muxLocks Bool).Reachable
      (Function.update both true ⟨[(.merges, .exclusive)], stopRun.tail⟩) := by
    refine .step (.acquire true) stops
      ⟨.merges, .exclusive, stopRun.tail, rfl, ?_, rfl⟩
    intro other guard member same
    cases other
    · obtain rfl := List.mem_singleton.mp member
      contradiction
    · exact absurd member List.not_mem_nil
  convert queued using 1
  funext name
  cases name <;> rfl

/-- The locks of a mux are not taken along one partial order, and a stop and a
conclusion wait for each other. -/
theorem not_deadlockFree_of_stop :
    (∃ callers, (muxLocks Bool).Reachable callers ∧ ¬ DeadlockFree callers) ∧
      ¬ ∃ before : MuxLock -> MuxLock -> Bool,
        (∀ lock, before lock lock = false) ∧
        (∀ first second third, before first second = true ->
          before second third = true -> before first third = true) ∧
        ∀ operation : MuxOperation,
          operation.program.respects before [] = true := by
  refine ⟨⟨deadlocked, reachable_deadlocked, fun free => free false ?_⟩, ?_⟩
  · have waits : WaitsFor deadlocked false true :=
      ⟨.merges, ⟨.exclusive, _, rfl⟩, List.mem_singleton_self _⟩
    have waitsBack : WaitsFor deadlocked true false :=
      ⟨.jobs, ⟨.exclusive, _, rfl⟩, List.mem_singleton_self _⟩
    exact .tail (.single waits) waitsBack
  · rintro ⟨before, irreflexive, transitive, respected⟩
    have queueFirst : before .merges .jobs = true := by
      have stops := respected .stop
      simp only [MuxOperation.program, MuxProgram.stop, locked, jobTable,
        HAndThen.hAndThen, AndThen.andThen, LockProgram.respects,
        Bool.and_eq_true, List.all_eq_true] at stops
      exact stops.1.2.1 _ (List.mem_singleton_self _)
    have tableFirst : before .jobs .merges = true := by
      have concludes := respected .concludeOne
      simp only [MuxOperation.program, MuxProgram.concludeOne, locked,
        mergesQueue, HAndThen.hAndThen, AndThen.andThen, LockProgram.respects,
        Bool.and_eq_true, List.all_eq_true] at concludes
      exact concludes.2.2.2.2.1.2.1 _ (List.mem_singleton_self _)
    have itself := transitive _ _ _ queueFirst tableFirst
    rw [irreflexive] at itself
    contradiction

end Shellmux
end Marsh
