import Marsh.Shellmux.Frontends

/-!
# What clients are shown

The jobs as a caller sees them, whether each is merging, and the selection.  A
snapshot for a client is put together in several reads, each under its own lock,
between which the mux goes on.
-/

namespace Marsh
namespace Shellmux

/-! ## Views of the table -/

/-- The command in flight in a job. -/
structure RunningView where
  /-- The command line as submitted. -/
  cmd : String
  /-- Process-group id of the traced command. -/
  pid : Nat
  deriving DecidableEq, Repr

/-- One job as a caller sees it. -/
structure JobView where
  /-- The job's identity. -/
  id : String
  /-- The sandbox its commands run in. -/
  sandbox : Sandbox
  /-- The command in flight, or `none` when the job is idle. -/
  running : Option RunningView
  /-- It is under construction, or a command is being launched into it. -/
  starting : Bool
  /-- A `stop` has been accepted. -/
  closing : Bool
  deriving DecidableEq, Repr

/-- One row as a caller sees it. -/
def Job.view (job : Job) : JobView where
  id := job.id
  sandbox := job.sandbox
  running := job.running.map fun running => ⟨running.cmd, running.pid⟩
  starting := job.starting || !job.built
  closing := job.close.any JobCloseMode.explicit

/-- What the reads of a snapshot are about. -/
structure Board where
  /-- The rows of the table. -/
  rows : List Job
  /-- Conclusions each job owes. -/
  active : String -> Nat
  /-- The selected job. -/
  current : Option String
  /-- The directory each uid was opened in. -/
  dirs : String -> String

/-! ## Snapshots -/

/-- One open job, as a client displays it. -/
structure JobDto where
  id : String
  uid : String
  dir : String
  running : Option RunningView
  starting : Bool
  closing : Bool
  /-- Its last transaction is still merging. -/
  merging : Bool
  deriving DecidableEq, Repr

/-- The whole table and the selection, which every client redraws from. -/
structure JobsSnapshot where
  /-- Every open job, in the mux's own order. -/
  jobs : List JobDto
  /-- The selected job. -/
  current : Option String
  deriving DecidableEq, Repr

namespace Board

variable (board : Board)

/-- Every open job, in creation order.  A forced job is not one. -/
def jobs : List JobView :=
  (board.rows.filter fun job => !job.retired).map Job.view

/-- Whether a job has a conclusion in flight. -/
def isMerging (id : String) : Bool :=
  board.active id ≠ 0

/-- The selected job, if it is still open. -/
def currentJob : Option JobView :=
  board.current.bind fun current =>
    (board.rows.find? fun job => job.id = current && !job.retired).map Job.view

/-- One job as a client sees it. -/
def jobDto (view : JobView) (merging : Bool) : JobDto where
  id := view.id
  uid := view.sandbox.uid
  dir := board.dirs view.sandbox.uid
  running := view.running
  starting := view.starting
  closing := view.closing
  merging := merging

/-- The table, the merging flags and the selection. -/
def snapshot : JobsSnapshot where
  jobs := board.jobs.map fun view =>
    board.jobDto view (board.isMerging view.id)
  current := board.currentJob.map JobView.id

end Board

/-! ## Reading a snapshot -/

/-- A snapshot that is being put together. -/
inductive SnapshotRead
  /-- The table is read next. -/
  | jobs
  /-- Jobs whose merging flag has been read, and those whose flag is read next;
  after the last one the selection is read. -/
  | flags (done : List JobDto) (left : List JobView)
  deriving DecidableEq, Repr

namespace SnapshotRead

/-- The next read, which may be the last. -/
def advance (board : Board) : SnapshotRead -> SnapshotRead ⊕ JobsSnapshot
  | jobs => .inl (flags [] board.jobs)
  | flags done (view :: left) =>
      .inl (flags (done ++ [board.jobDto view (board.isMerging view.id)]) left)
  | flags done [] => .inr ⟨done, board.currentJob.map JobView.id⟩

/-- What has been read is still so. -/
def Agrees (board : Board) : SnapshotRead -> Prop
  | jobs => True
  | flags done left =>
      done ++ left.map (fun view =>
          board.jobDto view (board.isMerging view.id)) =
        board.snapshot.jobs

variable {board : Board} {read : SnapshotRead}

/-- A read goes on agreeing. -/
theorem Agrees.advance_inl
    (agrees : read.Agrees board)
    {next : SnapshotRead}
    (advances : read.advance board = .inl next) : next.Agrees board := by
  cases read with
  | jobs =>
      obtain rfl := Sum.inl.inj advances
      rfl
  | flags done left =>
      cases left with
      | nil => cases advances
      | cons view left =>
          obtain rfl := Sum.inl.inj advances
          rw [Agrees, List.append_assoc]
          exact agrees

/-- A read that agreed to its end gives the snapshot. -/
theorem Agrees.advance_inr
    (agrees : read.Agrees board)
    {snapshot : JobsSnapshot}
    (advances : read.advance board = .inr snapshot) :
    snapshot = board.snapshot := by
  cases read with
  | jobs => cases advances
  | flags done left =>
      cases left with
      | cons view left => cases advances
      | nil =>
          obtain rfl := Sum.inr.inj advances
          rw [Agrees, List.map_nil, List.append_nil] at agrees
          rw [agrees]
          rfl

end SnapshotRead

end Shellmux
end Marsh
