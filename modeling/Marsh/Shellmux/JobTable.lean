import Mathlib.Data.Finset.Insert
import Mathlib.Data.Multiset.Count
import Marsh.Shellmux.Authority

/-!
# The job table and the merges queue

The two structures a command's phase is spread over, each behind its own lock,
with the sections that read and write them.
-/

namespace Marsh
namespace Shellmux

/-! ## The job table -/

/-- Why a job is to close once its command and its conclusion finish. -/
inductive JobCloseMode
  /-- An unnamed background command; a reader may keep this job. -/
  | automatic
  /-- Explicitly close after normal completion. -/
  | graceful
  /-- Explicitly abort and retire the job at once. -/
  | force
  deriving DecidableEq, Repr

/-- Whether a reader asked for this closure. -/
def JobCloseMode.explicit : JobCloseMode -> Bool
  | .automatic => false
  | .graceful | .force => true

/-- One spawned transaction that has not been concluded. -/
structure StartedCmd where
  /-- Pid of the traced child. -/
  pid : Nat
  /-- The sandbox it runs in. -/
  sandbox : Sandbox
  /-- The submitted command line. -/
  cmd : String
  /-- A forced stop killed its process group. -/
  forceStopped : Bool
  deriving DecidableEq, Repr

/-- One job: a named sandbox and whatever command is running in it. -/
structure Job where
  /-- The name, which is also the principal. -/
  id : String
  /-- The sandbox every command of this job runs in. -/
  sandbox : Sandbox
  /-- Its terminal, pipe and shell exist. -/
  built : Bool
  /-- The command currently running in it. -/
  running : Option StartedCmd
  /-- A command is being launched into it. -/
  starting : Bool
  /-- Why this job is to close, or `none` while it is to stay. -/
  close : Option JobCloseMode
  deriving DecidableEq, Repr

/-- Whether the row has left public view. -/
def Job.retired (job : Job) : Bool :=
  job.close = some .force

/-- The open jobs, in creation order. -/
structure JobTable where
  /-- The rows. -/
  rows : List Job
  /-- Next automatic job name. -/
  counter : Nat
  deriving DecidableEq, Repr

namespace JobTable

/-- The row of a name, retired ones included. -/
def find (table : JobTable) (id : String) : Option Job :=
  table.rows.find? fun job => job.id = id

/-- Whether a spawn may reserve a name and leave this counter: a name asked for
is free, and an automatic one is the first free number from the counter on. -/
def Names
    (table : JobTable)
    (id : String)
    (anonymous : Bool)
    (counter : Nat) : Prop :=
  table.find id = none ∧
    if anonymous then
      ∃ number, id = toString number ∧ table.counter ≤ number ∧
        (∀ earlier, table.counter ≤ earlier -> earlier < number ->
          (table.find (toString earlier)).isSome) ∧
        counter = number + 1
    else counter = table.counter

/-- Changes every row. -/
def change (table : JobTable) (change : Job -> Job) : JobTable :=
  { table with rows := table.rows.map change }

/-- Changes the row of a name. -/
def update (table : JobTable) (id : String) (change : Job -> Job) : JobTable :=
  table.change fun job => if job.id = id then change job else job

/-- Removes the first row of a kind. -/
def remove (table : JobTable) (removed : Job -> Bool) : JobTable :=
  { table with rows := table.rows.eraseP removed }

/-- Whether a row of this name is to close and has nothing in flight that the
table can see. -/
def closable (id : String) (job : Job) : Bool :=
  job.id = id && job.close.isSome && job.running.isNone && !job.starting

/-- Removes a job that is to close and has nothing left in flight. -/
def takeClosable
    (table : JobTable)
    (id : String) : Option (Sandbox × JobTable) :=
  (table.rows.find? (closable id)).map fun job =>
    (job.sandbox, table.remove (closable id))

/-- Removes the job whose sandbox has this uid. -/
def forget (table : JobTable) (uid : String) : JobTable :=
  table.remove fun job => job.sandbox.uid = uid

end JobTable

/-! ## The merges queue -/

/-- One command's conclusion, waiting for the conclusion task. -/
structure Conclusion where
  /-- The job it ran in. -/
  id : String
  /-- The open transaction. -/
  started : StartedCmd
  deriving DecidableEq, Repr

/-- The conclusions handed off, and what each job still owes. -/
structure ConclusionQueue where
  /-- Conclusions the task has not taken yet. -/
  pending : List Conclusion
  /-- Conclusions submitted and not yet reported; a job without an entry owes
  none. -/
  active : String -> Nat
  /-- The session ended. -/
  closed : Bool

namespace ConclusionQueue

/-- Hands a conclusion to the task and counts it against its job; a closed
queue drops it. -/
def submit
    (queue : ConclusionQueue)
    (conclusion : Conclusion) : ConclusionQueue :=
  if queue.closed then queue
  else
    { queue with
      pending := queue.pending ++ [conclusion]
      active := Function.update queue.active conclusion.id
        (queue.active conclusion.id + 1) }

/-- Marks one conclusion of a job reported. -/
def finish (queue : ConclusionQueue) (id : String) : ConclusionQueue :=
  { queue with active := Function.update queue.active id (queue.active id - 1) }

/-- Whether a job owes nothing. -/
def idle (queue : ConclusionQueue) (id : String) : Bool :=
  queue.active id = 0

/-- Closes the queue. -/
def cancel (queue : ConclusionQueue) : ConclusionQueue :=
  { queue with closed := true }

end ConclusionQueue

/-! ## Operations between two lock sections -/

/-- What a caller's operation in progress does next.  `origin` is the sandbox of
the row the operation began with; no section reads it. -/
inductive Task
  /-- A spawn, its row reserved, building the terminal, pipe and shell. -/
  | building (id : String) (sandbox : Sandbox) (cmd : Option String)
  /-- `start_in`, reserved, waiting for the predecessor's conclusion. -/
  | waiting (id cmd : String) (origin : Sandbox)
  /-- A launch that has not read its row yet; `owned` when a spawn owns it. -/
  | preparing (id cmd : String) (origin : Sandbox) (owned : Bool)
  /-- A launch about to take its snapshot and fork. -/
  | launching (id cmd : String) (origin sandbox : Sandbox) (owned : Bool)
  /-- A launch about to publish the command it started. -/
  | publishing (id : String) (origin : Sandbox) (started : StartedCmd)
  /-- A launch owned by a spawn failed and is to be reported. -/
  | failing (id : String) (origin : Sandbox)
  /-- The watcher of a published command. -/
  | watching (id : String) (pid : Nat)
  /-- A reaped command about to be submitted. -/
  | submitting (conclusion : Conclusion)
  /-- A closed job whose storage is to be reclaimed. -/
  | reclaiming (sandbox : Sandbox)
  deriving DecidableEq, Repr

/-- What the conclusion task does next: it concludes one command at a time. -/
inductive ConcludeTask
  /-- Take the next conclusion. -/
  | taking
  /-- Conclude the transaction. -/
  | concluding (conclusion : Conclusion)
  /-- Mark a conclusion that has run reported; `retained` when its processes
  could not be proven gone. -/
  | reporting (id : String) (retained : Bool)
  /-- Check whether the job is to close. -/
  | closing (id : String) (retained : Bool)
  /-- Reclaim a closed job's storage. -/
  | reclaiming (sandbox : Sandbox)
  deriving DecidableEq, Repr

/-- The job machine between two lock sections.  The last three fields record
what happened; no section reads them. -/
structure JobState where
  /-- The job table. -/
  table : JobTable
  /-- The merges queue. -/
  queue : ConclusionQueue
  /-- The conclusion task. -/
  concluder : ConcludeTask
  /-- Callers' operations in progress. -/
  tasks : Multiset Task
  /-- Uids whose snapshot is on disk. -/
  trees : Finset String
  /-- Uids issued so far. -/
  issued : List String
  /-- Sandboxes of the jobs a forced stop was accepted for. -/
  forced : List Sandbox
  /-- Uids of the closed jobs whose processes could not be proven gone. -/
  retained : List String

end Shellmux
end Marsh
