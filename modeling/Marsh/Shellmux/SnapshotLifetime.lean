import Marsh.Shellmux.JobSeats

/-!
# The lifetime of a job's snapshot

A job's snapshot is retaken by a launch and deleted when the job is reclaimed.
Both must leave it alone while a command that ran in it is still to be
concluded.
-/

namespace Marsh
namespace Shellmux

open Library

namespace JobState

/-! ## What a command is promised -/

/-- No job has two commands that are launched, run or are concluded. -/
def OneCommand (state : JobState) : Prop :=
  (∀ uid, state.commands.countP (fun command => command.2.uid = uid) ≤ 1) ∧
    ∀ id, state.inFlight id ≤ 1

/-- A section that retakes or deletes a snapshot leaves the snapshot of every
other command alone. -/
def SnapshotSafe (state : JobState) : JobStep -> Prop
  | .launch id _ _ sandbox _ _ .transaction
  | .failLaunch id _ _ sandbox _ (some _) _ =>
      ∀ command ∈ state.commands.erase (id, sandbox),
        command.2.uid ≠ sandbox.uid
  | .reclaim sandbox | .closeSandbox sandbox =>
      ∀ command ∈ state.commands, command.2.uid ≠ sandbox.uid
  | .reclaimConcluded =>
      ∀ sandbox, state.concluder = .reclaiming sandbox ->
        ∀ command ∈ state.commands, command.2.uid ≠ sandbox.uid
  | _ => True

/-! ## The gap between the two locks -/

/-- A command of the job has been taken off its row and is not in the queue
yet. -/
def Gap (state : JobState) (id : String) : Prop :=
  ∃ conclusion : Conclusion,
    conclusion.id = id ∧ Task.submitting conclusion ∈ state.tasks

/-- A conclusion of the job is queued or under way. -/
def Owes (state : JobState) (id : String) : Prop :=
  ∃ conclusion : Conclusion, conclusion.id = id ∧
    (conclusion ∈ state.queue.pending ∨
      state.concluder = .concluding conclusion)

/-- Neither a launch nor a command is on the row. -/
def Quiet (state : JobState) (id : String) : Prop :=
  ∃ job, state.table.find id = some job ∧ job.running = none ∧
    job.starting = false

/-- A section that takes a row for idle does so when its job is: no command of
it has left the row for the queue and the conclusion task. -/
def SeesCommands (state : JobState) : JobStep -> Prop
  | .refuseSize id _ cmd => cmd = none -> ¬ state.Gap id ∧ ¬ state.Owes id
  | .waited id _ _ =>
      ¬ state.Gap id ∧ (state.queue.closed = true -> ¬ state.Owes id)
  | .stop id _ => state.Quiet id -> state.queue.idle id = true -> ¬ state.Gap id
  | .checkClose =>
      ∀ id retained, state.concluder = .closing id retained ->
        state.Quiet id -> state.queue.idle id = true -> ¬ state.Gap id
  | .reportFailure id _ => state.Quiet id -> ¬ state.Gap id ∧ ¬ state.Owes id
  | .closeSandbox sandbox =>
      ∀ job ∈ state.table.rows, job.sandbox.uid = sandbox.uid ->
        ¬ state.Gap job.id ∧ ¬ state.Owes job.id
  | _ => True

/-- A section takes rows for idle and removes them only when they are. -/
def Careful (state : JobState) (step : JobStep) : Prop :=
  state.KeepsSeats step ∧ state.SeesCommands step

/-! ## Commands in flight -/

/-- Every command in flight has a row. -/
def Boarded (state : JobState) : Prop :=
  ∀ id, state.inFlight id ≤ state.table.presentCount id

theorem mem_commands_of_gap {state : JobState} {id : String}
    (gap : state.Gap id) : ∃ command ∈ state.commands, command.1 = id := by
  obtain ⟨conclusion, rfl, member⟩ := gap
  exact ⟨_, mem_commands_of_task member rfl, rfl⟩

theorem mem_commands_of_owes {state : JobState} {id : String}
    (owes : state.Owes id) : ∃ command ∈ state.commands, command.1 = id := by
  obtain ⟨conclusion, rfl, pending | concluding⟩ := owes
  · exact ⟨_, mem_commands_of_pending pending rfl, rfl⟩
  · exact ⟨conclusion.command, mem_commands_of_concluder (by rw [concluding]; rfl),
      rfl⟩

/-- A job that owes a conclusion is not idle. -/
theorem Owes.not_idle
    {state : JobState}
    {id : String}
    (owes : state.Owes id)
    (tallied : state.Tallied)
    (idle : state.queue.idle id = true) : False := by
  have none := tallied.idle idle
  rw [unreported] at none
  obtain ⟨conclusion, rfl, queued | concluding⟩ := owes
  · have positive : 0 < pendingCount state.queue.pending conclusion.id :=
      List.countP_pos_iff.mpr ⟨conclusion, queued, by simp⟩
    omega
  · rw [concluding, ConcludeTask.concludingCount, if_pos rfl] at none
    omega

/-- A job in neither gap owes nothing. -/
theorem owed_eq_zero
    {state : JobState}
    {id : String}
    (owes : ¬ state.Owes id) :
    pendingCount state.queue.pending id +
      state.concluder.concludingCount id = 0 := by
  have pending : pendingCount state.queue.pending id = 0 := by
    refine List.countP_eq_zero.mpr fun conclusion member named => ?_
    exact owes ⟨conclusion, by simpa using named, .inl member⟩
  have concluding : state.concluder.concludingCount id = 0 := by
    cases same : state.concluder <;> simp only [ConcludeTask.concludingCount]
    case concluding conclusion =>
      rw [if_neg fun named => owes ⟨conclusion, named, .inr same⟩]
  omega

/-- A command of the name is in flight only when its row is reserved or runs it,
or it has left its row. -/
theorem inFlight_le
    {state : JobState}
    {id : String}
    (gap : ¬ state.Gap id)
    (owes : ¬ state.Owes id) :
    state.inFlight id ≤ taskCount Task.reservedName state.tasks id +
      state.table.runningCount id := by
  have flight : taskCount Task.flightName state.tasks id ≤
      taskCount Task.reservedName state.tasks id := by
    refine countP_le_countP_of_imp fun task member flies => ?_
    cases task with
    | submitting conclusion =>
        exact absurd ⟨conclusion, Option.some.inj flies, member⟩ gap
    | preparing | launching | publishing => exact flies
    | building | waiting | failing | watching | reclaiming =>
        simp [Task.flightName] at flies
  have owed := owed_eq_zero owes
  rw [inFlight]
  omega

/-- A quiet row none of whose commands has left it has none. -/
theorem inFlight_eq_zero_of_quiet
    {state : JobState}
    (balanced : Balanced state.table state.tasks)
    {id : String}
    (quiet : state.Quiet id)
    (gap : ¬ state.Gap id)
    (owes : ¬ state.Owes id) : state.inFlight id = 0 := by
  obtain ⟨job, found, idle, unreserved⟩ := quiet
  have reserved := (balanced.of_find found).1
  have running := JobTable.runningCount_of_find found
  simp only [Job.startingCount, unreserved, Bool.false_eq_true,
    if_false] at reserved
  simp only [idle, Option.isSome_none, Bool.false_eq_true, if_false] at running
  have bound := inFlight_le gap owes
  omega

/-- A row reserved for a launch that has not begun has no command, when none has
left it. -/
theorem inFlight_eq_zero_of_reserved
    {state : JobState}
    (balanced : Balanced state.table state.tasks)
    {task : Task}
    {rest : Multiset Task}
    (pending : state.Pending task rest)
    {id : String}
    (reserves : task.reservedName = some id)
    (grounded : task.flightName = none)
    (gap : ¬ state.Gap id)
    (owes : ¬ state.Owes id) : state.inFlight id = 0 := by
  obtain ⟨job, found, reserved⟩ :=
    find_of_reservedName balanced pending.self reserves
  have counts := balanced.of_find found
  have running := JobTable.runningCount_of_find found
  simp only [Job.startingCount, Job.runningCount, reserved, if_true] at counts
  have older : ¬ JobState.Gap { state with tasks := rest } id := by
    rintro ⟨conclusion, named, member⟩
    exact gap ⟨conclusion, named, pending.of_rest member⟩
  have bound := @inFlight_le { state with tasks := rest } id older owes
  simp only [inFlight] at bound ⊢
  rw [pending, taskCount_cons, if_pos reserves] at counts
  rw [pending, taskCount_cons, grounded, if_neg (by simp)]
  omega

/-! ## Rows that keep their commands -/

/-- How many commands of a name are in flight but not on its row. -/
def aloft (state : JobState) (id : String) : Nat :=
  taskCount Task.flightName state.tasks id +
    pendingCount state.queue.pending id + state.concluder.concludingCount id

theorem inFlight_eq (state : JobState) (id : String) :
    state.inFlight id = state.aloft id + state.table.runningCount id := by
  rw [inFlight, aloft]
  omega

theorem aloft_le
    {state next : JobState}
    (tasks : ∀ id, taskCount Task.flightName next.tasks id ≤
      taskCount Task.flightName state.tasks id)
    (queue : next.queue.pending = state.queue.pending)
    (concluder : next.concluder = state.concluder)
    (id : String) : next.aloft id ≤ state.aloft id := by
  have fewer := tasks id
  rw [aloft, aloft, queue, concluder]
  omega

section Aloft

variable {state next : JobState} {done after : Task} {rest : Multiset Task}

theorem aloft_le_of_tasks
    (tasks : next.tasks = state.tasks)
    (queue : next.queue.pending = state.queue.pending)
    (concluder : next.concluder = state.concluder)
    (id : String) : next.aloft id ≤ state.aloft id :=
  aloft_le (fun id => (congrArg (taskCount _ · id) tasks).le) queue concluder id

/-- A task that reclaims has no command. -/
theorem aloft_le_of_reclaiming
    {sandbox : Sandbox}
    (tasks : next.tasks = .reclaiming sandbox ::ₘ state.tasks)
    (queue : next.queue.pending = state.queue.pending)
    (concluder : next.concluder = state.concluder)
    (id : String) : next.aloft id ≤ state.aloft id := by
  refine aloft_le (fun id => ?_) queue concluder id
  rw [tasks, taskCount_cons, if_neg (by simp [Task.flightName])]
  exact le_rfl

/-- The rest of an operation has at most the commands it had. -/
theorem Pending.aloft_le
    (pending : state.Pending done rest)
    (tasks : next.tasks = rest)
    (queue : next.queue.pending = state.queue.pending)
    (concluder : next.concluder = state.concluder)
    (id : String) : next.aloft id ≤ state.aloft id :=
  JobState.aloft_le (fun id => tasks ▸ pending.taskCount_le _ id) queue
    concluder id

/-- An operation that goes on has at most the commands it had. -/
theorem Pending.aloft_next_le
    (pending : state.Pending done rest)
    (tasks : next.tasks = after ::ₘ rest)
    (same : ∀ id, after.flightName = some id -> done.flightName = some id)
    (queue : next.queue.pending = state.queue.pending)
    (concluder : next.concluder = state.concluder)
    (id : String) : next.aloft id ≤ state.aloft id :=
  JobState.aloft_le (fun id => tasks ▸ pending.taskCount_next_le same id) queue
    concluder id

/-- A launch that fails has no command any more. -/
theorem Pending.aloft_failure_le
    {name : String}
    {origin : Sandbox}
    {owned : Bool}
    (pending : state.Pending done rest)
    (tasks : next.tasks = failureTask name origin owned + rest)
    (queue : next.queue.pending = state.queue.pending)
    (concluder : next.concluder = state.concluder)
    (id : String) : next.aloft id ≤ state.aloft id := by
  refine JobState.aloft_le (fun id => ?_) queue concluder id
  rw [tasks, taskCount_failureTask rfl]
  exact pending.taskCount_le Task.flightName id

end Aloft

namespace Boarded

variable {state next : JobState}

theorem of_find
    (boarded : state.Boarded)
    {id : String}
    {job : Job}
    (found : state.table.find id = some job) :
    state.aloft id + job.runningCount ≤ 1 := by
  have counts := boarded id
  rw [inFlight_eq, JobTable.runningCount_of_find found,
    JobTable.presentCount_of_find found] at counts
  exact counts

theorem of_find_none
    (boarded : state.Boarded)
    {id : String}
    (absent : state.table.find id = none) : state.aloft id = 0 := by
  have counts := boarded id
  obtain ⟨present, -, running⟩ := JobTable.counts_of_find_none absent
  rw [inFlight_eq] at counts
  omega

/-- The counts are those of the rows names find. -/
theorem of_rows
    (rows : ∀ id, match state.table.find id with
      | some job => state.aloft id + job.runningCount ≤ 1
      | none => state.aloft id = 0) : state.Boarded := by
  intro id
  have counts := rows id
  rw [inFlight_eq]
  cases found : state.table.find id with
  | none =>
      rw [found] at counts
      obtain ⟨present, -, running⟩ := JobTable.counts_of_find_none found
      dsimp only at counts
      omega
  | some job =>
      rw [found] at counts
      rw [JobTable.runningCount_of_find found,
        JobTable.presentCount_of_find found]
      exact counts

/-- Rows go only when none of their commands is in flight. -/
theorem of_remove
    (boarded : state.Boarded)
    (rows : ∀ id, next.table.find id = state.table.find id ∨
      next.table.find id = none ∧ state.inFlight id = 0)
    (fewer : ∀ id, next.aloft id ≤ state.aloft id) : next.Boarded := by
  refine of_rows fun id => ?_
  have less := fewer id
  obtain same | ⟨gone, none⟩ := rows id
  · rw [same]
    cases found : state.table.find id with
    | none =>
        have none := boarded.of_find_none found
        dsimp only
        omega
    | some job =>
        have counts := boarded.of_find found
        dsimp only
        omega
  · rw [gone]
    rw [inFlight_eq] at none
    dsimp only
    omega

/-- One row changes, and the commands in flight of no other name do. -/
theorem of_update
    (boarded : state.Boarded)
    {id : String}
    {change : Job -> Job}
    (keeps : Job.Keeps change)
    (table : next.table = state.table.update id change)
    (own : ∀ job, state.table.find id = some job ->
      state.aloft id + job.runningCount ≤ 1 ->
      next.aloft id + (change job).runningCount ≤ 1)
    (absent : state.table.find id = none -> next.aloft id ≤ state.aloft id)
    (apart : ∀ other, other ≠ id -> next.aloft other ≤ state.aloft other) :
    next.Boarded := by
  refine of_rows fun other => ?_
  rw [table, JobTable.find_update _ fun job => (keeps job).1]
  cases found : state.table.find other with
  | none =>
      have none := boarded.of_find_none found
      by_cases same : other = id
      · rw [if_pos same]
        rw [same] at found none ⊢
        exact Nat.eq_zero_of_le_zero ((absent found).trans none.le)
      · rw [if_neg same]
        exact Nat.eq_zero_of_le_zero ((apart other same).trans none.le)
  | some job =>
      have counts := boarded.of_find found
      by_cases same : other = id
      · rw [if_pos same]
        rw [same] at found counts ⊢
        exact own job found counts
      · rw [if_neg same]
        have less := apart other same
        dsimp only
        omega

/-- Rows change without their commands. -/
theorem of_change
    (boarded : state.Boarded)
    {change : Job -> Job}
    (keeps : Job.Keeps change)
    (table : next.table = state.table.change change)
    (running : ∀ job, (change job).runningCount ≤ job.runningCount)
    (fewer : ∀ id, next.aloft id ≤ state.aloft id) : next.Boarded := by
  refine of_rows fun id => ?_
  rw [table, JobTable.find_change _ fun job => (keeps job).1]
  have less := fewer id
  cases found : state.table.find id with
  | none =>
      have none := boarded.of_find_none found
      exact Nat.eq_zero_of_le_zero (less.trans none.le)
  | some job =>
      have counts := boarded.of_find found
      have runs := running job
      dsimp only [Option.map_some]
      omega

/-- A row changes without its command. -/
theorem of_keep
    (boarded : state.Boarded)
    {id : String}
    {change : Job -> Job}
    (keeps : Job.Keeps change)
    (table : next.table = state.table.update id change)
    (running : ∀ job, (change job).runningCount ≤ job.runningCount)
    (fewer : ∀ id, next.aloft id ≤ state.aloft id) : next.Boarded := by
  refine boarded.of_update keeps table (fun job _ counts => ?_)
    (fun _ => fewer id) fun other _ => fewer other
  have less := fewer id
  have runs := running job
  omega

end Boarded

/-- Every command in flight has its sandbox's row. -/
def Lodged (state : JobState) : Prop :=
  ∀ command ∈ state.commands, state.Housed command

/-- A row that is found has the sandbox of every command of its name. -/
theorem Lodged.sandbox_eq
    {state : JobState}
    (lodged : state.Lodged)
    {command : String × Sandbox}
    (member : command ∈ state.commands)
    {job : Job}
    (found : state.table.find command.1 = some job) :
    job.sandbox = command.2 := by
  obtain ⟨row, rowFound, sited⟩ := lodged command member
  obtain rfl := Option.some.inj (found.symm.trans rowFound)
  exact sited

/-- A spawn that still builds has no command, if its name finds its own row. -/
theorem not_gap_of_building
    {state : JobState}
    (seated : state.Seated)
    (lodged : state.Lodged)
    {id : String}
    {sandbox : Sandbox}
    {cmd : Option String}
    (member : .building id sandbox cmd ∈ state.tasks)
    {job : Job}
    (found : state.table.find id = some job)
    (sited : job.sandbox = sandbox) :
    ¬ state.Gap id ∧ ¬ state.Owes id ∧ job.running = none := by
  have unrun := (seated.unused id sandbox cmd member).unrun
  have none : ∀ command ∈ state.commands, command.1 ≠ id := by
    intro command held named
    rw [← named] at found
    exact unrun command held (by rw [← lodged.sandbox_eq held found, sited])
  refine ⟨fun gap => ?_, fun owes => ?_, ?_⟩
  · obtain ⟨command, held, named⟩ := mem_commands_of_gap gap
    exact none command held named
  · obtain ⟨command, held, named⟩ := mem_commands_of_owes owes
    exact none command held named
  · by_contra running
    obtain ⟨started, runs⟩ := Option.ne_none_iff_exists'.mp running
    refine none (job.id, started.sandbox) (mem_commands_of_row
      ⟨job, JobTable.mem_of_find found, ?_⟩) (JobTable.find_some_id found)
    rw [Job.command, runs, Option.map_some]

section Step

variable {state next : JobState} {step : JobStep}

/-- A job whose row is taken to be closed has no command in flight. -/
theorem Boarded.of_takeClosable
    (boarded : state.Boarded)
    (formed : state.WellFormed)
    (balanced : Balanced state.table state.tasks)
    {change : Job -> Job}
    (keeps : Job.Keeps change)
    (quiet : ∀ job, (change job).starting = job.starting ∧
      (change job).runningCount = job.runningCount)
    {id : String}
    {sandbox : Sandbox}
    (takes : (state.table.change change).takeClosable id =
      some (sandbox, (state.table.change change).remove (JobTable.closable id)))
    (table : next.table =
      (state.table.change change).remove (JobTable.closable id))
    (fewer : ∀ name, next.aloft name ≤ state.aloft name)
    (sees : state.Quiet id -> ¬ state.Gap id ∧ ¬ state.Owes id) :
    next.Boarded := by
  have named : ((state.table.change change).rows.map Job.id).Nodup :=
    (state.table.names_change fun job => (keeps job).1).symm ▸ formed.named
  obtain ⟨taken, found, -, idle, unreserved, -, finds⟩ :=
    JobTable.takeClosable_eq_some named takes
  rw [JobTable.find_change _ fun job => (keeps job).1] at found
  obtain ⟨job, was, rfl⟩ := Option.map_eq_some_iff.mp found
  have still : state.Quiet id := by
    refine ⟨job, was, ?_, by rwa [← (quiet job).1]⟩
    have none := (quiet job).2
    rw [Job.runningCount, idle] at none
    exact Job.runningCount_eq_zero.mp none.symm
  obtain ⟨gap, owes⟩ := sees still
  have gone := inFlight_eq_zero_of_quiet balanced still gap owes
  refine of_rows fun other => ?_
  have less := fewer other
  rw [table, finds other, JobTable.find_change _ fun job => (keeps job).1]
  by_cases same : other = id
  · rw [if_pos same]
    rw [← same, inFlight_eq] at gone
    dsimp only
    omega
  · rw [if_neg same]
    cases row : state.table.find other with
    | none =>
        have none := boarded.of_find_none row
        exact Nat.eq_zero_of_le_zero (less.trans none.le)
    | some kept =>
        have counts := boarded.of_find row
        have runs := (quiet kept).2
        dsimp only [Option.map_some]
        omega

/-- A row that is removed has no command in flight. -/
theorem Boarded.of_lost
    (boarded : state.Boarded)
    (named : (state.table.rows.map Job.id).Nodup)
    {removed : Job -> Bool}
    (table : next.table = state.table.remove removed)
    (fewer : ∀ id, next.aloft id ≤ state.aloft id)
    (idle : ∀ job, state.table.find job.id = some job -> removed job = true ->
      state.inFlight job.id = 0) : next.Boarded := by
  refine boarded.of_remove (fun id => ?_) fewer
  rw [table]
  obtain same | ⟨job, first, rfl, gone⟩ := JobTable.find_remove named removed id
  · exact .inl same
  · have found := JobTable.find_of_mem named (List.mem_of_find?_eq_some first)
    exact .inr ⟨gone, idle job found (List.find?_some first)⟩

/-- A row that is forgotten has no command in flight. -/
theorem Boarded.of_forget
    (boarded : state.Boarded)
    (formed : state.WellFormed)
    {uid : String}
    (table : next.table = state.table.forget uid)
    (fewer : ∀ name, next.aloft name ≤ state.aloft name)
    (idle : ∀ job ∈ state.table.rows, job.sandbox.uid = uid ->
      state.inFlight job.id = 0) : next.Boarded :=
  boarded.of_lost formed.named table fewer fun job found sited =>
    idle job (JobTable.mem_of_find found) (by simpa using sited)

/-- A row that is taken to be closed has no command in flight. -/
theorem Boarded.of_closed
    (boarded : state.Boarded)
    (formed : state.WellFormed)
    (balanced : Balanced state.table state.tasks)
    {id : String}
    {sandbox : Sandbox}
    (takes : state.table.takeClosable id =
      some (sandbox, state.table.remove (JobTable.closable id)))
    (table : next.table = state.table.remove (JobTable.closable id))
    (fewer : ∀ name, next.aloft name ≤ state.aloft name)
    (sees : state.Quiet id -> ¬ state.Gap id ∧ ¬ state.Owes id) :
    next.Boarded := by
  have identity : state.table.change (fun job => job) = state.table := by
    simp [JobTable.change]
  exact boarded.of_takeClosable formed balanced Job.keeps_self
    (fun _ => ⟨rfl, rfl⟩) (identity.symm ▸ takes) (identity.symm ▸ table)
    fewer sees

/-- A spawn reserves a row without a command. -/
theorem boarded_of_spawn
    {id uid : String}
    {anonymous : Bool}
    {cmd : Option String}
    (boarded : state.Boarded)
    (steps : state.Steps (.spawn id uid anonymous cmd) next) : next.Boarded := by
  obtain ⟨counter, ⟨absent, -⟩, -, rfl⟩ := steps
  refine .of_rows fun other => ?_
  have same : aloft { state with
      table := ⟨state.table.rows ++ [Job.reserve id uid anonymous cmd],
        counter⟩
      tasks := .building id ⟨id, uid⟩ cmd ::ₘ state.tasks
      issued := uid :: state.issued } other = state.aloft other := by
    simp [aloft, Task.flightName]
  rw [same, JobTable.find_push]
  cases found : state.table.find other with
  | some job => exact boarded.of_find found
  | none =>
      have none := boarded.of_find_none found
      by_cases own : id = other <;>
        simp [own, none, Job.reserve, Job.runningCount]

/-- What was built is its own sandbox's row, without a command. -/
theorem boarded_of_build
    {id : String}
    {sandbox : Sandbox}
    {cmd : Option String}
    (seated : state.Seated)
    (lodged : state.Lodged)
    (boarded : state.Boarded)
    (keeps : state.KeepsSeats (.build id sandbox cmd))
    (steps : state.Steps (.build id sandbox cmd) next) : next.Boarded := by
  have balanced := seated.balanced
  obtain ⟨rest, pending, present, rfl⟩ := steps
  obtain ⟨row, rowFound⟩ := Option.isSome_iff_exists.mp present
  obtain ⟨gap, owes, idle⟩ := not_gap_of_building seated lodged pending.self
    rowFound (keeps row rowFound)
  cases cmd with
  | none =>
      exact boarded.of_keep Job.keeps_build rfl (fun _ => le_rfl)
        (pending.aloft_le (by simp [launchTask]) rfl rfl)
  | some cmd =>
      have none := inFlight_eq_zero_of_reserved balanced pending rfl rfl
        gap owes
      refine boarded.of_update Job.keeps_build rfl
        (fun job found counts => ?_) (fun absent => ?_) fun other apart => ?_
      · obtain rfl := Option.some.inj (found.symm.trans rowFound)
        rw [inFlight_eq, aloft, pending, taskCount_cons,
          if_neg (by simp [Task.flightName])] at none
        simp only [aloft, launchTask, Multiset.singleton_add, taskCount_cons,
          Task.flightName, if_true, Job.build, Job.runningCount, idle,
          Option.isSome_none, Bool.false_eq_true, if_false] at none ⊢
        omega
      · simp [absent] at rowFound
      · rw [aloft, aloft, pending]
        simp [launchTask, Task.flightName, Ne.symm apart]

/-- A construction that fails takes a row without a command. -/
theorem boarded_of_failBuild
    {id : String}
    {sandbox : Sandbox}
    {cmd : Option String}
    (formed : state.WellFormed)
    (seated : state.Seated)
    (lodged : state.Lodged)
    (boarded : state.Boarded)
    (keeps : state.KeepsSeats (.failBuild id sandbox cmd))
    (steps : state.Steps (.failBuild id sandbox cmd) next) : next.Boarded := by
  have balanced := seated.balanced
  obtain ⟨rest, pending, rfl⟩ := steps
  refine boarded.of_lost formed.named rfl (pending.aloft_le rfl rfl rfl)
    fun job found own => ?_
  have named : job.id = id := by simpa using own
  rw [named] at found ⊢
  obtain ⟨sited, unreserved⟩ := keeps job found
  obtain ⟨gap, owes, idle⟩ :=
    not_gap_of_building seated lodged pending.self found sited
  cases cmd with
  | none =>
      exact inFlight_eq_zero_of_quiet balanced
        ⟨job, found, idle, unreserved rfl⟩ gap owes
  | some cmd =>
      exact inFlight_eq_zero_of_reserved balanced pending rfl rfl gap owes

/-- A terminal that is refused its size takes a row without a command, or
with the one that is given up. -/
theorem boarded_of_refuseSize
    {id : String}
    {sandbox : Sandbox}
    {cmd : Option String}
    (formed : state.WellFormed)
    (seated : state.Seated)
    (boarded : state.Boarded)
    (keeps : state.KeepsSeats (.refuseSize id sandbox cmd))
    (sees : state.SeesCommands (.refuseSize id sandbox cmd))
    (steps : state.Steps (.refuseSize id sandbox cmd) next) : next.Boarded := by
  have balanced := seated.balanced
  obtain ⟨rest, given, -, -, rfl⟩ := steps
  have left : JobState.Boarded { state with tasks := rest } :=
    boarded.of_remove (fun _ => .inl rfl)
      (aloft_le (fun name => Multiset.countP_le_of_le _
        (rest_le_of_launchTask given)) rfl rfl)
  refine left.of_lost formed.named rfl (fun _ => le_rfl) fun job found own => ?_
  have named : job.id = id := by simpa using own
  rw [named] at found ⊢
  obtain ⟨sited, unused⟩ := keeps job found
  cases cmd with
  | none =>
      obtain ⟨idle, unreserved⟩ := unused rfl
      obtain ⟨gap, owes⟩ := sees rfl
      have none := inFlight_eq_zero_of_quiet balanced
        ⟨job, found, idle, unreserved⟩ gap owes
      rw [inFlight, given, launchTask, Multiset.zero_add] at none
      exact none
  | some cmd =>
      -- The launch that is given up was the only command of the row.
      have counts := boarded id
      have launching := @taskCount_pos Task.flightName id _ _
        (Multiset.mem_singleton_self (.preparing id cmd sandbox true)) rfl
      rw [inFlight, given, launchTask, taskCount_add,
        JobTable.presentCount_of_find found] at counts
      rw [inFlight]
      dsimp only
      omega

/-- A start that has waited is the only command of its row. -/
theorem boarded_of_waited
    {id cmd : String}
    {origin : Sandbox}
    (formed : state.WellFormed)
    (seated : state.Seated)
    (boarded : state.Boarded)
    (sees : state.SeesCommands (.waited id cmd origin))
    (steps : state.Steps (.waited id cmd origin) next) : next.Boarded := by
  have balanced := seated.balanced
  obtain ⟨idle, rest, pending, rfl⟩ := steps
  obtain ⟨gap, closed⟩ := sees
  have none : state.inFlight id = 0 := by
    refine inFlight_eq_zero_of_reserved balanced pending rfl rfl gap ?_
    intro owes
    rcases idle with isClosed | idle
    · exact closed isClosed owes
    · exact owes.not_idle formed.tallied idle
  obtain ⟨job, found, -⟩ := find_of_reservedName balanced pending.self rfl
  rw [inFlight_eq, aloft, pending, taskCount_cons,
    if_neg (by simp [Task.flightName]),
    JobTable.runningCount_of_find found] at none
  refine .of_rows fun other => ?_
  simp only [aloft, taskCount_cons, Task.flightName, Option.some.injEq]
  by_cases same : id = other
  · rw [← same, found, if_pos rfl]
    dsimp only [Job.runningCount]
    omega
  · rw [if_neg same]
    have fewer := pending.taskCount_le Task.flightName other
    cases row : state.table.find other with
    | none =>
        have counts := boarded.of_find_none row
        rw [aloft] at counts
        dsimp only
        omega
    | some job =>
        have counts := boarded.of_find row
        rw [aloft] at counts
        dsimp only
        omega

/-- A command is published on the row that was reserved for it. -/
theorem boarded_of_publish
    {id : String}
    {origin : Sandbox}
    {started : StartedCmd}
    {killed : Bool}
    (boarded : state.Boarded)
    (steps : state.Steps (.publish id origin started killed) next) :
    next.Boarded := by
  obtain ⟨rest, pending, changed⟩ := steps
  have tasks : next.tasks = .watching id started.pid ::ₘ rest := by
    rw [changed]
  have queue : next.queue = state.queue := by rw [changed]
  have concluder : next.concluder = state.concluder := by rw [changed]
  have fewer := pending.aloft_next_le tasks (by simp [Task.flightName])
    (by rw [queue]) concluder
  refine boarded.of_update (Job.keeps_publish started killed)
    (by rw [changed]) (fun job found counts => ?_) (fun _ => fewer id)
    fun other _ => fewer other
  have runs : (job.publish started killed).runningCount ≤ 1 := by
    unfold Job.runningCount
    split_ifs <;> omega
  rw [aloft, pending, taskCount_cons, if_pos (by rfl)] at counts
  rw [aloft, tasks, queue, concluder, taskCount_cons,
    if_neg (by simp [Task.flightName])]
  omega

/-- A command that leaves its row was the one it ran. -/
theorem boarded_of_reap
    {id : String}
    {pid : Nat}
    (boarded : state.Boarded)
    (steps : state.Steps (.reap id pid) next) : next.Boarded := by
  obtain ⟨rest, pending, ⟨job, started, found, runs, -, rfl⟩ | ⟨-, rfl⟩⟩ := steps
  · refine boarded.of_update Job.keeps_reap rfl (fun row rowFound counts => ?_)
      (fun absent => by simp [absent] at found) fun other apart => ?_
    · obtain rfl := Option.some.inj (found.symm.trans rowFound)
      rw [aloft, pending, taskCount_cons,
        if_neg (by simp [Task.flightName])] at counts
      simp only [Job.runningCount, runs, Option.isSome_some, if_true]
        at counts
      simp only [aloft, taskCount_cons, Task.flightName, if_true, Job.reap,
        Job.runningCount, Option.isSome_none, Bool.false_eq_true, if_false]
      omega
    · rw [aloft, aloft, pending]
      simp [Task.flightName, Ne.symm apart]
  · exact boarded.of_remove (fun _ => .inl rfl) (pending.aloft_le rfl rfl rfl)

/-- A stop takes a row without a command. -/
theorem boarded_of_stop
    {id : String}
    {force : Bool}
    (formed : state.WellFormed)
    (seated : state.Seated)
    (boarded : state.Boarded)
    (sees : state.SeesCommands (.stop id force))
    (steps : state.Steps (.stop id force) next) : next.Boarded := by
  have balanced := seated.balanced
  obtain ⟨job, -, -, changed⟩ := steps
  have running : ∀ row : Job,
      (row.stop force).starting = row.starting ∧
        (row.stop force).runningCount = row.runningCount := by
    intro row
    cases force
    · exact ⟨rfl, rfl⟩
    · exact ⟨rfl, by simp [Job.stop, Job.kill, Job.runningCount]⟩
  have stopped : (state.acceptStop id force job.sandbox).Boarded :=
    boarded.of_keep (Job.keeps_stop force) rfl (fun row => (running row).2.le)
      (aloft_le_of_tasks rfl rfl rfl)
  split_ifs at changed with idle
  · obtain ⟨-, unchanged⟩ | ⟨sandbox, takes, taken⟩ :=
      takeClosable_cases (state.acceptStop id force job.sandbox) id
    · rwa [changed, unchanged]
    · rw [changed, taken]
      refine boarded.of_takeClosable formed balanced
        ((Job.keeps_stop force).onName id) (fun row => ?_) takes rfl
        (aloft_le_of_reclaiming rfl rfl rfl) fun quiet =>
          ⟨sees quiet idle, fun owes => owes.not_idle formed.tallied idle⟩
      split_ifs
      · exact running row
      · exact ⟨rfl, rfl⟩
  · rwa [changed]

/-- A section that sees the commands it may not remove leaves every command in
flight its row. -/
theorem boarded_of_step
    (formed : state.WellFormed)
    (seated : state.Seated)
    (lodged : state.Lodged)
    (boarded : state.Boarded)
    (steps : state.Steps step next)
    (careful : state.Careful step) : next.Boarded := by
  obtain ⟨keeps, sees⟩ := careful
  have balanced := seated.balanced
  cases step with
  | spawn id uid anonymous cmd =>
      exact boarded_of_spawn boarded steps
  | refuseSpawn id anonymous =>
      obtain ⟨counter, -, rfl⟩ := steps
      exact boarded
  | build id sandbox cmd =>
      exact boarded_of_build seated lodged boarded keeps steps
  | failBuild id sandbox cmd =>
      exact boarded_of_failBuild formed seated lodged boarded keeps steps
  | refuseSize id sandbox cmd =>
      exact boarded_of_refuseSize formed seated boarded keeps sees steps
  | startIn id cmd =>
      obtain ⟨row, -, -, -, -, rfl⟩ := steps
      refine boarded.of_keep Job.keeps_start rfl (fun _ => le_rfl)
        (aloft_le (fun other => ?_) rfl rfl)
      rw [taskCount_cons, if_neg (by simp [Task.flightName])]
      exact le_rfl
  | waited id cmd origin =>
      exact boarded_of_waited formed seated boarded sees steps
  | prepare id cmd origin owned =>
      obtain ⟨rest, pending, rfl⟩ := steps
      cases found : (state.table.find id).filter Job.built with
      | none =>
          exact boarded.of_remove (fun _ => .inl rfl)
            (pending.aloft_failure_le rfl rfl rfl)
      | some job =>
          exact boarded.of_remove (fun _ => .inl rfl)
            (pending.aloft_next_le rfl (fun _ named => named) rfl rfl)
  | launch id cmd origin sandbox owned pid plan =>
      obtain ⟨rest, pending, rfl⟩ := steps
      exact boarded.of_remove (fun _ => .inl rfl)
        (pending.aloft_next_le rfl (fun _ named => named) rfl rfl)
  | failLaunch id cmd origin sandbox owned tree cleared =>
      obtain ⟨rest, pending, rfl⟩ := steps
      cases cleared
      · exact boarded.of_remove (fun _ => .inl rfl)
          (pending.aloft_failure_le rfl rfl rfl)
      · exact boarded.of_keep Job.keeps_clear rfl (fun _ => le_rfl)
          (pending.aloft_failure_le rfl rfl rfl)
  | publish id origin started killed =>
      exact boarded_of_publish boarded steps
  | reportFailure id origin =>
      obtain ⟨rest, pending, rfl⟩ := steps
      obtain ⟨-, same⟩ | ⟨sandbox, takes, same⟩ :=
        takeClosable_cases { state with
          table := state.table.update id Job.drain
          tasks := rest } id
      · rw [same]
        exact boarded.of_keep Job.keeps_drain rfl (fun _ => le_rfl)
          (pending.aloft_le rfl rfl rfl)
      · rw [same]
        refine boarded.of_takeClosable formed balanced
          (Job.keeps_drain.onName id) (fun job => ?_) takes rfl
          (pending.aloft_next_le rfl (by simp [Task.flightName]) rfl rfl) sees
        split_ifs <;> exact ⟨rfl, rfl⟩
  | reap id pid =>
      exact boarded_of_reap boarded steps
  | submit conclusion =>
      obtain ⟨rest, pending, rfl⟩ := steps
      refine boarded.of_remove (fun _ => .inl rfl) fun id => ?_
      rw [aloft, aloft, pending, taskCount_cons]
      simp only [Task.flightName, Option.some.injEq]
      have queued : pendingCount (state.queue.submit conclusion).pending id ≤
          pendingCount state.queue.pending id +
            if conclusion.id = id then 1 else 0 := by
        unfold ConclusionQueue.submit
        split <;> simp
      omega
  | take =>
      obtain ⟨conclusion, rest, taking, queued, rfl⟩ := steps
      refine boarded.of_remove (fun _ => .inl rfl) fun id => ?_
      simp only [aloft, taking, queued, pendingCount_cons,
        ConcludeTask.concludingCount]
      omega
  | conclude retained =>
      obtain ⟨conclusion, concluding, rfl⟩ := steps
      refine boarded.of_remove (fun _ => .inl rfl) fun id => ?_
      simp only [aloft, ConcludeTask.concludingCount]
      omega
  | finish =>
      obtain ⟨id, retained, reporting, rfl⟩ := steps
      refine boarded.of_remove (fun _ => .inl rfl) fun other => ?_
      simp only [aloft, ConclusionQueue.finish, ConcludeTask.concludingCount]
      omega
  | checkClose =>
      obtain ⟨id, retained, closing,
        ⟨-, rfl⟩ | ⟨sandbox, idle, takes, ⟨-, rfl⟩ | ⟨-, rfl⟩⟩⟩ :=
        checkClose_cases steps
      · refine boarded.of_remove (fun _ => .inl rfl) fun other => ?_
        simp only [aloft, ConcludeTask.concludingCount]
        omega
      all_goals
        refine boarded.of_closed formed balanced takes rfl (fun other => ?_)
          fun quiet => ⟨sees id retained closing quiet idle, fun owes =>
            owes.not_idle formed.tallied idle⟩
        simp only [aloft, ConcludeTask.concludingCount]
        omega
  | reclaimConcluded =>
      obtain ⟨sandbox, reclaiming, rfl⟩ := steps
      have gone := formed.gone sandbox (.inr reclaiming)
      refine boarded.of_forget formed rfl (fun other => ?_) fun job member same =>
        absurd same (gone.2 job member)
      simp only [aloft, closeSandbox, ConcludeTask.concludingCount]
      omega
  | keep id =>
      obtain rfl := steps
      refine boarded.of_keep Job.keeps_keep rfl (fun job => ?_)
        (aloft_le_of_tasks rfl rfl rfl)
      unfold Job.keep
      split_ifs <;> exact le_rfl
  | stop id force =>
      exact boarded_of_stop formed seated boarded sees steps
  | reclaim sandbox =>
      obtain ⟨rest, pending, rfl⟩ := steps
      have gone := formed.gone sandbox (.inl pending.self)
      exact boarded.of_forget formed rfl (pending.aloft_le rfl rfl rfl)
        fun job member same => absurd same (gone.2 job member)
  | closeSandbox sandbox =>
      obtain rfl := steps
      refine boarded.of_forget formed rfl (aloft_le_of_tasks rfl rfl rfl)
        fun job member named => ?_
      obtain ⟨idle, unreserved⟩ := keeps job member named
      obtain ⟨gap, owes⟩ := sees job member named
      exact inFlight_eq_zero_of_quiet balanced
        ⟨job, formed.find_of_mem member, idle, unreserved⟩ gap owes
  | cancel =>
      obtain rfl := steps
      exact boarded
  | killAll killable =>
      obtain rfl := steps
      refine boarded.of_change (Job.keeps_killable killable) rfl (fun job => ?_)
        (aloft_le_of_tasks rfl rfl rfl)
      split_ifs
      · simp [Job.kill, Job.runningCount]
      · exact le_rfl
  | releaseAll =>
      obtain rfl := steps
      exact boarded.of_change Job.keeps_release rfl (fun _ => le_rfl)
        (aloft_le_of_tasks rfl rfl rfl)

/-- Every command stays in its row's sandbox. -/
theorem lodged_of_step
    (formed : state.WellFormed)
    (lodged : state.Lodged)
    (steps : state.Steps step next)
    (boarded : next.Boarded) : next.Lodged := by
  intro command member
  have before : state.Housed command := by
    obtain old | ⟨id, cmd, origin, owned, job, -, found, -, rfl⟩ :=
      commands_of_step steps member
    · exact lodged command old
    · exact ⟨job, found, rfl⟩
  have flight : 0 < next.inFlight command.1 := by
    calc
      0 < next.commands.countP (fun other => other.1 = command.1) :=
        Multiset.countP_pos.mpr ⟨command, member, rfl⟩
      _ ≤ next.inFlight command.1 :=
        countP_commands_le (formed.step steps).named command.1
  have present := boarded command.1
  cases found : next.table.find command.1 with
  | none =>
      obtain ⟨absent, -⟩ := JobTable.counts_of_find_none found
      omega
  | some job => exact ⟨job, found, before.of_step formed steps found⟩

end Step

/-! ## Snapshots are kept -/

/-- What every careful run keeps. -/
structure Accounted (state : JobState) : Prop where
  formed : state.WellFormed
  seated : state.Seated
  boarded : state.Boarded
  lodged : state.Lodged

namespace Accounted

variable {state next : JobState} {step : JobStep}

/-- The empty machine has no command. -/
theorem empty : JobState.empty.Accounted where
  formed := .empty
  seated := .empty
  boarded _ := le_rfl
  lodged command member := by
    simp [commands, JobState.empty, ConcludeTask.command] at member

theorem of_step
    (accounted : state.Accounted)
    (steps : state.Steps step next)
    (careful : state.Careful step) : next.Accounted := by
  obtain ⟨formed, seated, boarded, lodged⟩ := accounted
  have stays := boarded_of_step formed seated lodged boarded steps careful
  exact
    { formed := formed.step steps
      seated := seated.of_step formed steps careful.1
      boarded := stays
      lodged := lodged_of_step formed lodged steps stays }

/-- Every state a careful run reaches is accounted for. -/
theorem of_reachable
    (reachable : (jobMachine.restrict Careful).Reachable state) :
    state.Accounted := by
  refine reachable.invariant Accounted ?_ ?_
  · rintro state rfl
    exact .empty
  · rintro state step next - accounted ⟨steps, careful⟩
    exact accounted.of_step steps careful

variable (accounted : state.Accounted)

include accounted

/-- A command's uid is the uid of its job's row. -/
theorem row_of_command
    {command : String × Sandbox}
    (member : command ∈ state.commands) :
    ∃ job ∈ state.table.rows, job.id = command.1 ∧ job.sandbox = command.2 := by
  obtain ⟨job, found, sited⟩ := accounted.lodged command member
  exact ⟨job, JobTable.mem_of_find found, JobTable.find_some_id found, sited⟩

/-- Commands of one uid are of one name. -/
theorem name_eq_of_uid
    {command other : String × Sandbox}
    (member : command ∈ state.commands)
    (otherMember : other ∈ state.commands)
    (same : command.2.uid = other.2.uid) : command.1 = other.1 := by
  obtain ⟨job, jobMember, named, sited⟩ := accounted.row_of_command member
  obtain ⟨row, rowMember, rowNamed, rowSited⟩ :=
    accounted.row_of_command otherMember
  rw [← named, ← rowNamed, accounted.formed.eq_of_uid jobMember rowMember
    (by rw [sited, rowSited, same])]

/-- At most one command is in flight in each job. -/
theorem oneCommand : state.OneCommand := by
  have byName : ∀ id, state.inFlight id ≤ 1 := by
    intro id
    refine (accounted.boarded id).trans ?_
    rw [JobTable.presentCount]
    split_ifs <;> omega
  refine ⟨fun uid => ?_, byName⟩
  by_cases used : ∃ command ∈ state.commands, command.2.uid = uid
  · obtain ⟨command, member, rfl⟩ := used
    calc
      state.commands.countP (fun other => other.2.uid = command.2.uid) ≤
          state.commands.countP (fun other => other.1 = command.1) :=
        countP_le_countP_of_imp fun other otherMember same =>
          accounted.name_eq_of_uid otherMember member same
      _ ≤ state.inFlight command.1 :=
        countP_commands_le accounted.formed.named command.1
      _ ≤ 1 := byName command.1
  · rw [Multiset.countP_eq_zero.mpr fun command member same =>
      used ⟨command, member, same⟩]
    omega

/-- A sandbox without a row has no command. -/
theorem unused_of_gone
    {sandbox : Sandbox}
    (gone : ∀ job ∈ state.table.rows, job.sandbox.uid ≠ sandbox.uid) :
    ∀ command ∈ state.commands, command.2.uid ≠ sandbox.uid := by
  intro command member same
  obtain ⟨job, jobMember, -, sited⟩ := accounted.row_of_command member
  exact gone job jobMember (by rw [sited, same])

/-- The command a launch works for is the only one of its sandbox. -/
theorem unused_of_launching
    {id cmd : String}
    {origin sandbox : Sandbox}
    {owned : Bool}
    (member : .launching id cmd origin sandbox owned ∈ state.tasks) :
    ∀ command ∈ state.commands.erase (id, sandbox),
      command.2.uid ≠ sandbox.uid := by
  intro command other same
  have own : (id, sandbox) ∈ state.commands := mem_commands_of_task member rfl
  have single := accounted.oneCommand.1 sandbox.uid
  rw [← Multiset.cons_erase own, Multiset.countP_cons, if_pos rfl] at single
  have second : 0 < (state.commands.erase (id, sandbox)).countP
      fun held => held.2.uid = sandbox.uid :=
    Multiset.countP_pos.mpr ⟨command, other, same⟩
  omega

/-- A careful section takes no command's snapshot away. -/
theorem snapshotSafe
    (steps : state.Steps step next)
    (careful : state.Careful step) : state.SnapshotSafe step := by
  cases step with
  | launch id cmd origin sandbox owned pid plan =>
      obtain ⟨rest, pending, -⟩ := steps
      cases plan
      · exact accounted.unused_of_launching pending.self
      · trivial
  | failLaunch id cmd origin sandbox owned tree cleared =>
      obtain ⟨rest, pending, -⟩ := steps
      cases tree
      · trivial
      · exact accounted.unused_of_launching pending.self
  | reclaim sandbox =>
      obtain ⟨rest, pending, -⟩ := steps
      exact accounted.unused_of_gone
        (accounted.formed.gone sandbox (.inl pending.self)).2
  | reclaimConcluded =>
      intro sandbox reclaiming
      exact accounted.unused_of_gone
        (accounted.formed.gone sandbox (.inr reclaiming)).2
  | closeSandbox sandbox =>
      intro command member same
      obtain ⟨job, jobMember, named, sited⟩ := accounted.row_of_command member
      have uid : job.sandbox.uid = sandbox.uid := by rw [sited, same]
      obtain ⟨idle, unreserved⟩ := careful.1 job jobMember uid
      obtain ⟨gap, owes⟩ := careful.2 job jobMember uid
      have none := inFlight_eq_zero_of_quiet accounted.seated.balanced
        ⟨job, accounted.formed.find_of_mem jobMember, idle, unreserved⟩ gap owes
      have some := countP_commands_le accounted.formed.named job.id
      have positive : 0 < state.commands.countP
          fun other => other.1 = job.id :=
        Multiset.countP_pos.mpr ⟨command, member, named.symm⟩
      omega
  | spawn | refuseSpawn | build | failBuild | refuseSize | startIn | waited
  | prepare | publish | reportFailure | reap | submit | take | conclude | finish
  | checkClose | keep | stop | cancel | killAll | releaseAll => trivial

end Accounted

end JobState

/-- In every run whose sections take rows for idle and remove them only when
they are, each job has one command at most and keeps its snapshot until the
command is concluded. -/
theorem snapshotsKept_of_careful
    {state : JobState}
    (reachable : (jobMachine.restrict JobState.Careful).Reachable state) :
    state.OneCommand ∧
      ∀ step next, (jobMachine.restrict JobState.Careful).step state step next ->
        state.SnapshotSafe step := by
  have accounted := JobState.Accounted.of_reachable reachable
  refine ⟨accounted.oneCommand, fun step next steps => ?_⟩
  exact accounted.snapshotSafe steps.1 steps.2

/-! ## A stop in the gap -/

/-- The sample command has been taken off its row and not submitted yet. -/
def gapState : JobState :=
  .sample sampleJob {"u1"} {.submitting ⟨"alice", sampleStarted⟩}

/-- The sample command ends. -/
theorem reachable_gap
    {allowed : JobState -> JobStep -> Prop}
    (allows : ∀ taken ∈ sampleRun, allowed taken.1 taken.2)
    (reaps : allowed
      (.sample { sampleJob with running := some sampleStarted } {"u1"}
        {.watching "alice" 7}) (.reap "alice" 7)) :
    (jobMachine.restrict allowed).Reachable gapState :=
  .step (.reap "alice" 7) (reachable_running allows)
    ⟨⟨0, rfl, .inl ⟨_, sampleStarted, rfl, rfl, rfl, rfl⟩⟩, reaps⟩

/-- A job whose command has not been submitted has one command. -/
theorem snapshotsKept_of_careful_gap : gapState.OneCommand :=
  (snapshotsKept_of_careful (reachable_gap
    (by simp [sampleRun, JobState.Careful, JobState.KeepsSeats,
      JobState.SeesCommands, JobState.sample, JobTable.find, Job.reserve,
      sampleSandbox])
    (by simp [JobState.Careful, JobState.KeepsSeats,
      JobState.SeesCommands]))).1

/-- The same job, stopped in the meantime. -/
def gapStoppedState : JobState :=
  { gapState with
    table := ⟨[], 1⟩
    tasks := .reclaiming sampleSandbox ::ₘ gapState.tasks }

/-- A stop between the end of a command and its submission takes its row, and
the snapshot is reclaimed before the command is concluded. -/
theorem not_snapshotSafe_of_gap :
    ∃ (state next : JobState) (step : JobStep),
      jobMachine.Reachable state ∧ jobMachine.step state step next ∧
        ¬ state.SnapshotSafe step := by
  have gap : jobMachine.Reachable gapState :=
    (@reachable_gap (fun _ _ => True) (by simp) trivial).of_restrict
  have stopped : jobMachine.Reachable gapStoppedState :=
    .step (.stop "alice" false) gap ⟨sampleJob, rfl, rfl, rfl⟩
  refine ⟨gapStoppedState, _, .reclaim sampleSandbox, stopped,
    ⟨gapState.tasks, rfl, rfl⟩, fun safe => ?_⟩
  exact safe ("alice", sampleSandbox) (JobState.mem_commands_of_task
    (Multiset.mem_cons_of_mem (Multiset.mem_singleton_self _)) rfl) rfl

end Shellmux
end Marsh
