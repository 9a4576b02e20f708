import Marsh.Shellmux.JobSteps

/-!
# Rows and the launches they are reserved for

While no row is removed or taken over under a launch in progress, a row is
reserved for at most one launch, and the launch works in the row's own sandbox.
-/

namespace Marsh
namespace Shellmux

open Library

/-! ## Reservations and rows -/

/-- A flag as a count. -/
def Job.startingCount (job : Job) : Nat :=
  if job.starting then 1 else 0

/-- A running command as a count. -/
def Job.runningCount (job : Job) : Nat :=
  if job.running.isSome then 1 else 0

theorem Job.runningCount_eq_zero {job : Job} :
    job.runningCount = 0 ↔ job.running = none := by
  cases running : job.running <;> simp [Job.runningCount, running]

/-- Every reservation of a launch in progress is on its row, and a row holds a
reservation or a running command. -/
def Balanced (table : JobTable) (tasks : Multiset Task) : Prop :=
  ∀ id, taskCount Task.reservedName tasks id ≤ table.startingCount id ∧
    table.startingCount id + table.runningCount id ≤ table.presentCount id

namespace Balanced

variable {table : JobTable} {tasks : Multiset Task}

theorem of_find
    (balanced : Balanced table tasks)
    {id : String}
    {job : Job}
    (found : table.find id = some job) :
    taskCount Task.reservedName tasks id ≤ job.startingCount ∧
      job.startingCount + job.runningCount ≤ 1 := by
  have counts := balanced id
  rw [JobTable.startingCount_of_find found, JobTable.runningCount_of_find found,
    JobTable.presentCount_of_find found] at counts
  exact counts

theorem of_find_none
    (balanced : Balanced table tasks)
    {id : String}
    (absent : table.find id = none) :
    taskCount Task.reservedName tasks id = 0 := by
  have counts := balanced id
  obtain ⟨present, starting, running⟩ := JobTable.counts_of_find_none absent
  omega

theorem of_tasks
    (balanced : Balanced table tasks)
    {others : Multiset Task}
    (fewer : ∀ id, taskCount Task.reservedName others id ≤
      taskCount Task.reservedName tasks id) : Balanced table others :=
  fun id => ⟨(fewer id).trans (balanced id).1, (balanced id).2⟩

/-- The counts are those of the rows names find. -/
theorem of_rows
    {others : Multiset Task}
    (rows : ∀ id, match table.find id with
      | some job =>
          taskCount Task.reservedName others id ≤ job.startingCount ∧
            job.startingCount + job.runningCount ≤ 1
      | none => taskCount Task.reservedName others id = 0) :
    Balanced table others := by
  intro id
  have counts := rows id
  cases found : table.find id with
  | none =>
      rw [found] at counts
      obtain ⟨present, starting, running⟩ := JobTable.counts_of_find_none found
      dsimp only at counts
      omega
  | some job =>
      rw [found] at counts
      rw [JobTable.startingCount_of_find found,
        JobTable.runningCount_of_find found,
        JobTable.presentCount_of_find found]
      exact counts

/-- One row changes, and the launches of no other name do. -/
theorem update
    (balanced : Balanced table tasks)
    {id : String}
    {change : Job -> Job}
    (keeps : Job.Keeps change)
    {others : Multiset Task}
    (own : ∀ job, table.find id = some job ->
      taskCount Task.reservedName tasks id ≤ job.startingCount ->
      job.startingCount + job.runningCount ≤ 1 ->
      taskCount Task.reservedName others id ≤ (change job).startingCount ∧
        (change job).startingCount + (change job).runningCount ≤ 1)
    (absent : table.find id = none ->
      taskCount Task.reservedName others id ≤
        taskCount Task.reservedName tasks id)
    (apart : ∀ other, other ≠ id ->
      taskCount Task.reservedName others other ≤
        taskCount Task.reservedName tasks other) :
    Balanced (table.update id change) others := by
  refine of_rows fun other => ?_
  rw [JobTable.find_update table (fun job => (keeps job).1)]
  cases found : table.find other with
  | none =>
      have none := balanced.of_find_none found
      by_cases same : other = id
      · rw [if_pos same]
        rw [same] at found none ⊢
        have fewer := absent found
        exact Nat.eq_zero_of_le_zero (fewer.trans none.le)
      · rw [if_neg same]
        exact Nat.eq_zero_of_le_zero ((apart other same).trans none.le)
  | some job =>
      obtain ⟨reserved, single⟩ := balanced.of_find found
      by_cases same : other = id
      · rw [if_pos same]
        rw [same] at found reserved ⊢
        exact own job found reserved single
      · rw [if_neg same]
        exact ⟨(apart other same).trans reserved, single⟩

/-- A row changes without its reservation and its command. -/
theorem keep
    (balanced : Balanced table tasks)
    {id : String}
    {change : Job -> Job}
    (keeps : Job.Keeps change)
    (starting : ∀ job, (change job).startingCount = job.startingCount)
    (running : ∀ job, (change job).runningCount ≤ job.runningCount)
    {others : Multiset Task}
    (fewer : ∀ id, taskCount Task.reservedName others id ≤
      taskCount Task.reservedName tasks id) :
    Balanced (table.update id change) others := by
  refine balanced.update keeps (fun job _ reserved single => ?_)
    (fun _ => fewer id) fun other _ => fewer other
  have more := running job
  have less := fewer id
  rw [starting job]
  omega

/-- The launch that ends is the only one of its row. -/
theorem clear
    {done : Task}
    {rest : Multiset Task}
    (balanced : Balanced table (done ::ₘ rest))
    {id : String}
    (named : done.reservedName = some id)
    {change : Job -> Job}
    (keeps : Job.Keeps change)
    (starting : ∀ job, (change job).startingCount = 0)
    (running : ∀ job, job.runningCount ≤ 0 -> (change job).runningCount ≤ 1)
    {others : Multiset Task}
    (fewer : ∀ id, taskCount Task.reservedName others id ≤
      taskCount Task.reservedName rest id) :
    Balanced (table.update id change) others := by
  refine balanced.update keeps (fun job _ reserved single => ?_)
    (fun _ => ?_) fun other _ => ?_
  · rw [taskCount_cons, if_pos named] at reserved
    have less := fewer id
    have free := running job (by omega)
    rw [starting job]
    omega
  · rw [taskCount_cons]
    exact (fewer id).trans (Nat.le_add_right _ _)
  · rw [taskCount_cons]
    exact (fewer other).trans (Nat.le_add_right _ _)

/-- Rows change without their reservations and commands. -/
theorem change
    (balanced : Balanced table tasks)
    {change : Job -> Job}
    (keeps : Job.Keeps change)
    (starting : ∀ job, (change job).startingCount = job.startingCount)
    (running : ∀ job, (change job).runningCount ≤ job.runningCount) :
    Balanced (table.change change) tasks := by
  refine of_rows fun id => ?_
  rw [JobTable.find_change table fun job => (keeps job).1]
  cases found : table.find id with
  | none => exact balanced.of_find_none found
  | some job =>
      obtain ⟨reserved, single⟩ := balanced.of_find found
      have counts := running job
      dsimp only [Option.map_some]
      rw [starting job]
      omega

/-- Rows without launches go. -/
theorem remove
    (balanced : Balanced table tasks)
    {others : JobTable}
    (rows : ∀ id, others.find id = table.find id ∨
      others.find id = none ∧ taskCount Task.reservedName tasks id = 0) :
    Balanced others tasks := by
  refine of_rows fun id => ?_
  obtain same | ⟨gone, none⟩ := rows id
  · rw [same]
    cases found : table.find id with
    | none => exact balanced.of_find_none found
    | some job => exact balanced.of_find found
  · rw [gone]
    exact none

/-- A row without a launch goes. -/
theorem lost
    (balanced : Balanced table tasks)
    (named : (table.rows.map Job.id).Nodup)
    {removed : Job -> Bool}
    (idle : ∀ job, table.find job.id = some job -> removed job = true ->
      taskCount Task.reservedName tasks job.id = 0) :
    Balanced (table.remove removed) tasks := by
  refine balanced.remove fun id => ?_
  obtain same | ⟨job, first, rfl, gone⟩ := JobTable.find_remove named removed id
  · exact .inl same
  · have found := JobTable.find_of_mem named (List.mem_of_find?_eq_some first)
    exact .inr ⟨gone, idle job found (List.find?_some first)⟩

/-- A spawn gives up the row of its name, and with it the only launch the row
may be reserved for. -/
theorem giveUp
    (balanced : Balanced table tasks)
    (named : (table.rows.map Job.id).Nodup)
    {id : String}
    {others : Multiset Task}
    (fewer : ∀ name, taskCount Task.reservedName others name ≤
      taskCount Task.reservedName tasks name)
    (own : ∀ job, table.find id = some job ->
      taskCount Task.reservedName tasks id ≤ job.startingCount ->
      job.startingCount ≤ 1 -> taskCount Task.reservedName others id = 0) :
    Balanced (table.remove fun job => job.id = id) others := by
  refine (balanced.of_tasks fewer).lost named fun job found holds => ?_
  have name : job.id = id := by simpa using holds
  obtain ⟨reserved, single⟩ := balanced.of_find found
  rw [name] at found reserved ⊢
  exact own job found reserved ((Nat.le_add_right _ _).trans single)

/-- A row that can be closed has no launch. -/
theorem takeClosable
    (balanced : Balanced table tasks)
    (named : (table.rows.map Job.id).Nodup)
    {id : String}
    {sandbox : Sandbox}
    {taken : JobTable}
    (takes : table.takeClosable id = some (sandbox, taken)) :
    Balanced taken tasks := by
  obtain ⟨job, found, -, -, unreserved, -, finds⟩ :=
    JobTable.takeClosable_eq_some named takes
  refine balanced.remove fun other => ?_
  rw [finds other]
  split_ifs with same
  · refine .inr ⟨rfl, ?_⟩
    have reserved := (balanced.of_find found).1
    simp only [Job.startingCount, unreserved, Bool.false_eq_true,
      if_false] at reserved
    rw [same]
    omega
  · exact .inl rfl

/-- A row whose launches are none may be forgotten. -/
theorem forget
    (balanced : Balanced table tasks)
    (named : (table.rows.map Job.id).Nodup)
    (uid : String)
    (unreserved : ∀ job ∈ table.rows, job.sandbox.uid = uid ->
      job.starting = false) : Balanced (table.forget uid) tasks := by
  refine balanced.lost named fun job found holds => ?_
  have reserved := (balanced.of_find found).1
  simp only [Job.startingCount, unreserved job (JobTable.mem_of_find found)
    (by simpa using holds), Bool.false_eq_true, if_false] at reserved
  omega

end Balanced

/-! ## Seats -/

/-- A section that removes a row, or builds one, does so to the row it means and
not under a launch. -/
def JobState.KeepsSeats (state : JobState) : JobStep -> Prop
  | .build id sandbox _ =>
      ∀ job, state.table.find id = some job -> job.sandbox = sandbox
  | .failBuild id sandbox cmd =>
      ∀ job, state.table.find id = some job ->
        job.sandbox = sandbox ∧ (cmd = none -> job.starting = false)
  | .refuseSize id sandbox cmd =>
      ∀ job, state.table.find id = some job ->
        job.sandbox = sandbox ∧
          (cmd = none -> job.running = none ∧ job.starting = false)
  | .closeSandbox sandbox =>
      ∀ job ∈ state.table.rows, job.sandbox.uid = sandbox.uid ->
        job.running = none ∧ job.starting = false
  | _ => True

section Step

variable {state next : JobState} {step : JobStep}

/-- A spawn reserves a row for its own launch. -/
theorem balanced_of_spawn
    {id uid : String}
    {anonymous : Bool}
    {cmd : Option String}
    (balanced : Balanced state.table state.tasks)
    (steps : state.Steps (.spawn id uid anonymous cmd) next) :
    Balanced next.table next.tasks := by
  obtain ⟨counter, ⟨absent, -⟩, -, rfl⟩ := steps
  refine .of_rows fun other => ?_
  rw [JobTable.find_push, taskCount_cons]
  cases found : state.table.find other with
  | some job =>
      have apart : id ≠ other := by
        rintro rfl
        simp [absent] at found
      obtain ⟨reserved, single⟩ := balanced.of_find found
      cases cmd <;>
        simp [Task.reservedName, Task.reservation, apart, reserved, single]
  | none =>
      have none := balanced.of_find_none found
      by_cases same : id = other
      · cases cmd <;>
          simp [Task.reservedName, Task.reservation, Job.reserve,
            Job.startingCount, Job.runningCount, same, none]
      · cases cmd <;>
          simp [Task.reservedName, Task.reservation, Job.reserve, same, none]

/-- A construction that fails gives up its row. -/
theorem balanced_of_failBuild
    {id : String}
    {sandbox : Sandbox}
    {cmd : Option String}
    (formed : state.WellFormed)
    (balanced : Balanced state.table state.tasks)
    (steps : state.Steps (.failBuild id sandbox cmd) next)
    (keeps : state.KeepsSeats (.failBuild id sandbox cmd)) :
    Balanced next.table next.tasks := by
  obtain ⟨rest, pending, rfl⟩ := steps
  refine balanced.giveUp formed.named (pending.taskCount_le _)
    fun job found reserved single => ?_
  obtain ⟨-, unreserved⟩ := keeps job found
  change taskCount Task.reservedName rest id = 0
  rw [pending, taskCount_cons] at reserved
  cases cmd with
  | none =>
      simp only [Job.startingCount, unreserved rfl, Bool.false_eq_true,
        if_false] at reserved
      omega
  | some cmd =>
      rw [if_pos (by simp [Task.reservedName, Task.reservation])]
        at reserved
      omega

/-- A terminal that is refused its size gives up its row. -/
theorem balanced_of_refuseSize
    {id : String}
    {sandbox : Sandbox}
    {cmd : Option String}
    (formed : state.WellFormed)
    (balanced : Balanced state.table state.tasks)
    (steps : state.Steps (.refuseSize id sandbox cmd) next)
    (keeps : state.KeepsSeats (.refuseSize id sandbox cmd)) :
    Balanced next.table next.tasks := by
  obtain ⟨rest, given, -, -, rfl⟩ := steps
  refine balanced.giveUp formed.named
    (fun name => Multiset.countP_le_of_le _
      (JobState.rest_le_of_launchTask given))
    fun job found reserved single => ?_
  obtain ⟨-, unused⟩ := keeps job found
  change taskCount Task.reservedName rest id = 0
  rw [given, taskCount_add] at reserved
  cases cmd with
  | none =>
      simp only [Job.startingCount, (unused rfl).2, Bool.false_eq_true,
        if_false] at reserved
      omega
  | some cmd =>
      have own := @taskCount_pos Task.reservedName id _ _
        (Multiset.mem_singleton_self (.preparing id cmd sandbox true)) rfl
      rw [launchTask] at reserved
      omega

/-- A start reserves a row that has no launch. -/
theorem balanced_of_startIn
    {id cmd : String}
    (balanced : Balanced state.table state.tasks)
    (steps : state.Steps (.startIn id cmd) next) :
    Balanced next.table next.tasks := by
  obtain ⟨row, found, -, idle, unreserved, rfl⟩ := steps
  refine balanced.update Job.keeps_start (fun job again reserved single => ?_)
    (fun absent => by simp [found] at absent) fun other apart => ?_
  · obtain rfl := Option.some.inj (found.symm.trans again)
    simp only [Job.startingCount, Job.runningCount, unreserved, idle,
      Job.start, taskCount_cons, Bool.false_eq_true, if_false,
      Option.isSome_none] at reserved ⊢
    split_ifs <;> omega
  · rw [taskCount_cons, if_neg (by
      simpa [Task.reservedName, Task.reservation] using Ne.symm apart)]
    omega

/-- A stop takes a row without a launch. -/
theorem balanced_of_stop
    {id : String}
    {force : Bool}
    (formed : state.WellFormed)
    (balanced : Balanced state.table state.tasks)
    (steps : state.Steps (.stop id force) next) :
    Balanced next.table next.tasks := by
  obtain ⟨job, -, -, changed⟩ := steps
  have running : ∀ job : Job,
      (job.stop force).runningCount = job.runningCount := by
    intro job
    cases force
    · rfl
    · simp [Job.stop, Job.kill, Job.runningCount]
  have stopped : Balanced (state.table.update id (Job.stop force))
      state.tasks :=
    balanced.keep (Job.keeps_stop force) (fun job => by cases force <;> rfl)
      (fun job => (running job).le) fun _ => le_rfl
  split_ifs at changed
  · obtain ⟨-, same⟩ | ⟨sandbox, takes, same⟩ :=
      JobState.takeClosable_cases _ id
    · rw [changed, same]
      exact stopped
    · rw [changed, same]
      refine (stopped.takeClosable ?_ takes).of_tasks fun other => ?_
      · exact (state.table.names_change fun job =>
          ((Job.keeps_stop force).onName id job).1).symm ▸ formed.named
      · simp [JobState.acceptStop, Task.reservedName, Task.reservation]
  · rw [changed]
    exact stopped

theorem balanced_of_step
    (formed : state.WellFormed)
    (balanced : Balanced state.table state.tasks)
    (steps : state.Steps step next)
    (keeps : state.KeepsSeats step) : Balanced next.table next.tasks := by
  cases step with
  | spawn id uid anonymous cmd =>
      exact balanced_of_spawn balanced steps
  | refuseSpawn id anonymous =>
      obtain ⟨counter, -, rfl⟩ := steps
      exact balanced
  | build id sandbox cmd =>
      obtain ⟨rest, pending, -, rfl⟩ := steps
      refine balanced.keep Job.keeps_build (fun _ => rfl) (fun _ => le_rfl)
        fun other => ?_
      cases cmd with
      | none => simpa [launchTask] using
            pending.taskCount_le Task.reservedName other
      | some cmd =>
          simpa [launchTask] using
            @JobState.Pending.taskCount_next_le _ _
              (.preparing id cmd sandbox true) rest pending Task.reservedName (by
                simp [Task.reservedName, Task.reservation]) other
  | failBuild id sandbox cmd =>
      exact balanced_of_failBuild formed balanced steps keeps
  | refuseSize id sandbox cmd =>
      exact balanced_of_refuseSize formed balanced steps keeps
  | startIn id cmd =>
      exact balanced_of_startIn balanced steps
  | waited id cmd origin =>
      obtain ⟨-, rest, pending, rfl⟩ := steps
      exact balanced.of_tasks (pending.taskCount_next_le fun _ named => named)
  | prepare id cmd origin owned =>
      obtain ⟨rest, pending, rfl⟩ := steps
      cases found : (state.table.find id).filter Job.built with
      | none =>
          exact balanced.of_tasks fun other =>
            (JobState.taskCount_failureTask rfl owned rest other).trans_le
              (pending.taskCount_le _ other)
      | some job =>
          exact balanced.of_tasks
            (pending.taskCount_next_le fun _ named => named)
  | launch id cmd origin sandbox owned pid plan =>
      obtain ⟨rest, pending, rfl⟩ := steps
      exact balanced.of_tasks (pending.taskCount_next_le fun _ named => named)
  | failLaunch id cmd origin sandbox owned tree cleared =>
      obtain ⟨rest, pending, rfl⟩ := steps
      have counts := JobState.taskCount_failureTask
        (rfl : Task.reservedName (.failing id origin) = none) owned rest
      cases cleared
      · exact balanced.of_tasks fun other =>
          (counts other).trans_le (pending.taskCount_le _ other)
      · rw [pending] at balanced
        refine balanced.clear rfl Job.keeps_clear (fun _ => rfl)
          (fun job free => ?_) fun other => (counts other).le
        exact (show job.clear.runningCount = job.runningCount from rfl) ▸
          free.trans (by omega)
  | publish id origin started killed =>
      obtain ⟨rest, pending, rfl⟩ := steps
      rw [pending] at balanced
      refine balanced.clear rfl (Job.keeps_publish started killed)
        (fun job => ?_) (fun job _ => ?_) fun other => ?_
      · unfold Job.publish
        split_ifs <;> rfl
      · unfold Job.runningCount
        split_ifs <;> omega
      · rw [taskCount_cons, if_neg (by
          simp [Task.reservedName, Task.reservation])]
        omega
  | reportFailure id origin =>
      obtain ⟨rest, pending, rfl⟩ := steps
      have drained : Balanced (state.table.update id Job.drain) rest :=
        balanced.keep Job.keeps_drain (fun _ => rfl) (fun _ => le_rfl)
          (pending.taskCount_le _)
      obtain ⟨-, same⟩ | ⟨sandbox, takes, same⟩ := JobState.takeClosable_cases _ id
      · rwa [same]
      · rw [same]
        refine (drained.takeClosable ?_ takes).of_tasks fun other => ?_
        · exact (state.table.names_change fun job =>
            (Job.keeps_drain.onName id job).1).symm ▸ formed.named
        · simp [Task.reservedName, Task.reservation]
  | reap id pid =>
      obtain ⟨rest, pending, ⟨job, started, -, -, -, rfl⟩ | ⟨-, rfl⟩⟩ := steps
      · exact balanced.keep Job.keeps_reap (fun _ => rfl) (fun _ => Nat.zero_le _)
          (pending.taskCount_next_le fun _ named => named)
      · exact balanced.of_tasks (pending.taskCount_le _)
  | submit conclusion =>
      obtain ⟨rest, pending, rfl⟩ := steps
      exact balanced.of_tasks (pending.taskCount_le _)
  | take =>
      obtain ⟨conclusion, rest, -, -, rfl⟩ := steps
      exact balanced
  | conclude retained =>
      obtain ⟨conclusion, -, rfl⟩ := steps
      exact balanced
  | finish =>
      obtain ⟨id, retained, -, rfl⟩ := steps
      exact balanced
  | checkClose =>
      obtain ⟨id, retained, -,
        ⟨-, rfl⟩ | ⟨sandbox, -, takes, ⟨-, rfl⟩ | ⟨-, rfl⟩⟩⟩ :=
        JobState.checkClose_cases steps
      · exact balanced
      · exact balanced.takeClosable formed.named takes
      · exact balanced.takeClosable formed.named takes
  | reclaimConcluded =>
      obtain ⟨sandbox, reclaiming, rfl⟩ := steps
      have gone := formed.gone sandbox (.inr reclaiming)
      exact balanced.forget formed.named _ fun job member same =>
        absurd same (gone.2 job member)
  | keep id =>
      obtain rfl := steps
      refine balanced.keep Job.keeps_keep (fun job => ?_) (fun job => ?_)
        fun _ => le_rfl
      · unfold Job.keep
        split_ifs <;> rfl
      · unfold Job.keep
        split_ifs <;> exact le_rfl
  | stop id force =>
      exact balanced_of_stop formed balanced steps
  | reclaim sandbox =>
      obtain ⟨rest, pending, rfl⟩ := steps
      have gone := formed.gone sandbox (.inl pending.self)
      exact (balanced.of_tasks (pending.taskCount_le _)).forget formed.named _
        fun job member same => absurd same (gone.2 job member)
  | closeSandbox sandbox =>
      obtain rfl := steps
      exact balanced.forget formed.named _
        fun job member same => (keeps job member same).2
  | cancel =>
      obtain rfl := steps
      exact balanced
  | killAll killable =>
      obtain rfl := steps
      refine balanced.change (Job.keeps_killable killable) (fun job => ?_)
        fun job => ?_
      · split_ifs <;> rfl
      · split_ifs
        · simp [Job.kill, Job.runningCount]
        · exact le_rfl
  | releaseAll =>
      obtain rfl := steps
      exact balanced.change Job.keeps_release (fun _ => rfl) fun _ => le_rfl

end Step

/-- The job and the sandbox of a command a launch has not published yet. -/
def Task.seat : Task -> Option (String × Sandbox)
  | .launching id _ _ sandbox _ => some (id, sandbox)
  | .publishing id _ started => some (id, started.sandbox)
  | .building _ _ _ | .waiting _ _ _ | .preparing _ _ _ _ | .failing _ _
  | .watching _ _ | .submitting _ | .reclaiming _ => none

/-- The uid a spawn builds resources for. -/
def Task.buildingUid : Task -> Option String
  | .building _ sandbox _ => some sandbox.uid
  | .waiting _ _ _ | .preparing _ _ _ _ | .launching _ _ _ _ _
  | .publishing _ _ _ | .failing _ _ | .watching _ _ | .submitting _
  | .reclaiming _ => none

namespace JobState

/-- A command that is launched or runs. -/
def Seat (state : JobState) (command : String × Sandbox) : Prop :=
  (∃ task ∈ state.tasks, task.seat = some command) ∨
    ∃ job ∈ state.table.rows, job.command = some command

/-- A command's sandbox is the one of its job's row. -/
def Housed (state : JobState) (command : String × Sandbox) : Prop :=
  ∃ job, state.table.find command.1 = some job ∧ job.sandbox = command.2

/-- A sandbox whose resources are being built has had no command. -/
structure Unused (state : JobState) (sandbox : Sandbox) : Prop where
  unbuilt : ∀ job ∈ state.table.rows, job.sandbox.uid = sandbox.uid ->
    job.built = false
  unrun : ∀ command ∈ state.commands, command.2.uid ≠ sandbox.uid
  treeless : sandbox.uid ∉ state.trees

/-- Every command that is launched or runs does so in its row's sandbox, and no
command has used a sandbox that is still being built. -/
structure Seated (state : JobState) : Prop where
  balanced : Balanced state.table state.tasks
  housed : ∀ command, state.Seat command -> state.Housed command
  unused : ∀ id sandbox cmd, Task.building id sandbox cmd ∈ state.tasks ->
    state.Unused sandbox
  building : ∀ uid, taskCount Task.buildingUid state.tasks uid ≤ 1
  planted : state.trees ⊆ state.issued.toFinset

section Step

variable {state next : JobState} {step : JobStep}

/-- A seat was one before, but for the one of the launch that reads its row. -/
theorem seat_of_step
    (steps : state.Steps step next)
    {command : String × Sandbox}
    (seat : next.Seat command) :
    state.Seat command ∨
      ∃ id cmd origin owned job, step = .prepare id cmd origin owned ∧
        state.table.find id = some job ∧ job.built = true ∧
        command = (id, job.sandbox) := by
  rcases seat with ⟨task, member, holds⟩ | ⟨job, member, holds⟩
  · rcases tasks_of_step steps member with old | new
    · exact .inl (.inl ⟨task, old, holds⟩)
    · cases step with
      | prepare id cmd origin owned =>
          obtain ⟨-, ⟨job, found, built, rfl⟩ | rfl⟩ := new
          · exact .inr ⟨id, cmd, origin, owned, job, rfl, found, built,
              (Option.some.inj holds).symm⟩
          · simp [Task.seat] at holds
      | launch id cmd origin sandbox owned pid plan =>
          obtain ⟨began, rfl⟩ := new
          exact .inl (.inl ⟨_, began, holds⟩)
      | spawn id uid anonymous cmd =>
          obtain rfl := new
          simp [Task.seat] at holds
      | build id sandbox cmd =>
          obtain ⟨-, given, -, rfl⟩ := new
          simp [Task.seat] at holds
      | startIn id cmd =>
          obtain ⟨job, -, rfl⟩ := new
          simp [Task.seat] at holds
      | waited id cmd origin =>
          obtain ⟨-, rfl⟩ := new
          simp [Task.seat] at holds
      | failLaunch id cmd origin sandbox owned tree cleared =>
          obtain ⟨-, rfl⟩ := new
          simp [Task.seat] at holds
      | publish id origin started killed =>
          obtain rfl := new
          simp [Task.seat] at holds
      | reap id pid =>
          obtain ⟨-, job, started, -, -, rfl⟩ := new
          simp [Task.seat] at holds
      | reportFailure id origin =>
          obtain ⟨job, -, -, rfl⟩ := new
          simp [Task.seat] at holds
      | stop id force =>
          obtain ⟨job, -, -, rfl⟩ := new
          simp [Task.seat] at holds
      | refuseSpawn | failBuild | refuseSize | submit | take | conclude
      | finish | checkClose | reclaimConcluded | keep | reclaim | closeSandbox | cancel
      | killAll | releaseAll => exact new.elim
  · obtain ⟨started, running, rfl⟩ := Option.map_eq_some_iff.mp holds
    obtain ⟨row, rowMember, named, continues, -⟩ | idle |
      ⟨id, origin, published, killed, row, rowMember, rfl, named, rfl⟩ :=
      row_of_step steps member
    · obtain ⟨before, was, same, -⟩ := continues started running
      refine .inl (.inr ⟨row, rowMember, ?_⟩)
      rw [Job.command, was, Option.map_some, named, same]
    · rw [idle] at running
      contradiction
    · obtain ⟨rest, pending, -⟩ := steps
      refine .inl (.inl ⟨_, pending.self, ?_⟩)
      rw [Job.command_publish, named] at holds
      exact holds

/-- A row keeps the sandbox of its name while it is there. -/
theorem Housed.of_step
    (formed : state.WellFormed)
    (steps : state.Steps step next)
    {command : String × Sandbox}
    (housed : state.Housed command)
    {job : Job}
    (found : next.table.find command.1 = some job) :
    job.sandbox = command.2 := by
  obtain ⟨row, rowFound, sited⟩ := housed
  have member := JobTable.mem_of_find found
  have name := JobTable.find_some_id found
  have rowMember := JobTable.mem_of_find rowFound
  have rowName := JobTable.find_some_id rowFound
  obtain ⟨id, uid, anonymous, cmd, -, absent, -, rows, -⟩ |
    ⟨-, change, keeps, rows⟩ := rows_of_step steps
  · rw [rows] at member
    rcases List.mem_append.mp member with old | new
    · rw [formed.eq_of_id old rowMember (name.trans rowName.symm), sited]
    · obtain rfl := List.mem_singleton.mp new
      rw [show id = command.1 from name, rowFound] at absent
      contradiction
  · obtain ⟨before, beforeMember, rfl⟩ := List.mem_map.mp (rows.subset member)
    rw [(keeps before).1] at name
    rw [(keeps before).2, formed.eq_of_id beforeMember rowMember
      (name.trans rowName.symm), sited]

/-- A launch in progress has the row it is reserved for. -/
theorem find_of_reservedName
    {table : JobTable}
    {tasks : Multiset Task}
    (balanced : Balanced table tasks)
    {task : Task}
    (member : task ∈ tasks)
    {id : String}
    (reserved : task.reservedName = some id) :
    ∃ job, table.find id = some job ∧ job.starting = true := by
  have positive := taskCount_pos member reserved
  cases found : table.find id with
  | none =>
      have none := balanced.of_find_none found
      omega
  | some job =>
      refine ⟨job, rfl, ?_⟩
      have counts := (balanced.of_find found).1
      by_contra unreserved
      simp only [Job.startingCount, unreserved, if_false] at counts
      simp at counts
      omega

theorem housed_of_step
    (formed : state.WellFormed)
    (seated : state.Seated)
    (steps : state.Steps step next)
    (balanced : Balanced next.table next.tasks)
    {command : String × Sandbox}
    (seat : next.Seat command) : next.Housed command := by
  have before : state.Housed command := by
    obtain old | ⟨id, cmd, origin, owned, job, -, found, -, rfl⟩ :=
      seat_of_step steps seat
    · exact seated.housed command old
    · exact ⟨job, found, rfl⟩
  have row : ∃ job, next.table.find command.1 = some job := by
    rcases seat with ⟨task, member, holds⟩ | ⟨job, member, holds⟩
    · have reserved : task.reservedName = some command.1 := by
        cases task <;> simp [Task.seat] at holds <;> rw [← holds] <;> rfl
      obtain ⟨job, found, -⟩ := find_of_reservedName balanced member reserved
      exact ⟨job, found⟩
    · obtain ⟨started, running, rfl⟩ := Option.map_eq_some_iff.mp holds
      exact ⟨job, (formed.step steps).find_of_mem member⟩
  obtain ⟨job, found⟩ := row
  exact ⟨job, found, before.of_step formed steps found⟩

/-- A snapshot is taken for a command that is launched, in its sandbox. -/
theorem trees_of_step
    (steps : state.Steps step next) :
    next.trees ⊆ state.trees ∨
      ∃ command, state.Seat command ∧ command ∈ state.commands ∧
        next.trees = insert command.2.uid state.trees := by
  cases step with
  | launch id cmd origin sandbox owned pid plan =>
      obtain ⟨rest, pending, rfl⟩ := steps
      cases plan
      · exact .inr ⟨(id, sandbox), .inl ⟨_, pending.self, rfl⟩,
          mem_commands_of_task pending.self rfl, rfl⟩
      · exact .inl (Finset.Subset.refl _)
  | failLaunch id cmd origin sandbox owned tree cleared =>
      obtain ⟨rest, pending, rfl⟩ := steps
      rcases tree with - | - | -
      · exact .inl (Finset.Subset.refl _)
      · exact .inl (Finset.erase_subset _ _)
      · exact .inr ⟨(id, sandbox), .inl ⟨_, pending.self, rfl⟩,
          mem_commands_of_task pending.self rfl, rfl⟩
  | reportFailure id origin =>
      obtain ⟨rest, -, rfl⟩ := steps
      obtain ⟨-, same⟩ | ⟨sandbox, -, same⟩ := takeClosable_cases _ id <;>
        exact .inl (by rw [same])
  | stop id force =>
      obtain ⟨job, -, -, changed⟩ := steps
      split_ifs at changed
      · obtain ⟨-, same⟩ | ⟨sandbox, -, same⟩ := takeClosable_cases _ id <;>
          exact .inl (by rw [changed, same]; exact Finset.Subset.refl _)
      · exact .inl (by rw [changed]; exact Finset.Subset.refl _)
  | checkClose =>
      obtain ⟨id, retained, -, ⟨-, rfl⟩ | ⟨sandbox, -, -, ⟨-, rfl⟩ | ⟨-, rfl⟩⟩⟩ :=
        checkClose_cases steps <;> exact .inl (Finset.Subset.refl _)
  | reclaim sandbox =>
      obtain ⟨rest, -, rfl⟩ := steps
      exact .inl (Finset.erase_subset _ _)
  | reclaimConcluded =>
      obtain ⟨sandbox, -, rfl⟩ := steps
      exact .inl (Finset.erase_subset _ _)
  | closeSandbox sandbox =>
      obtain rfl := steps
      exact .inl (Finset.erase_subset _ _)
  | spawn | refuseSpawn | build | failBuild | refuseSize | startIn | waited
  | prepare | publish | reap | submit | take | conclude | finish | keep | cancel
  | killAll | releaseAll =>
      simp only [Steps] at steps
      grind

/-- A row that was built already, or that the section says is. -/
def BuiltFrom (state : JobState) (step : JobStep) (job : Job) : Prop :=
  ∃ row ∈ state.table.rows, row.sandbox = job.sandbox ∧
    (row.built = true ∨ ∃ sandbox cmd, step = .build row.id sandbox cmd)

/-- A row is built when its spawn publishes what it built. -/
theorem built_of_step
    (steps : state.Steps step next)
    {job : Job}
    (member : job ∈ next.table.rows)
    (built : job.built = true) : state.BuiltFrom step job := by
  have of_change : ∀ {change : Job -> Job},
      (∀ row, (change row).sandbox = row.sandbox ∧
        ((change row).built = true -> row.built = true ∨
          ∃ sandbox cmd, step = .build row.id sandbox cmd)) ->
      job ∈ state.table.rows.map change -> state.BuiltFrom step job := by
    intro change keeps changed
    obtain ⟨row, rowMember, rfl⟩ := List.mem_map.mp changed
    exact ⟨row, rowMember, (keeps row).1.symm, (keeps row).2 built⟩
  have same : job ∈ state.table.rows -> state.BuiltFrom step job := fun old =>
    ⟨job, old, rfl, .inl built⟩
  have updated : ∀ {id : String} {change : Job -> Job}, Job.Keeps change ->
      (∀ row, (change row).built = row.built) ->
      job ∈ (state.table.update id change).rows ->
      state.BuiltFrom step job := by
    intro id change keeps sameBuilt changed
    refine of_change (fun row => ⟨?_, fun now => .inl ?_⟩) changed
    · exact (keeps.onName id row).2
    · split_ifs at now
      · rwa [← sameBuilt]
      · exact now
  cases step with
  | spawn id uid anonymous cmd =>
      obtain ⟨counter, -, -, rfl⟩ := steps
      rcases List.mem_append.mp member with old | new
      · exact same old
      · obtain rfl := List.mem_singleton.mp new
        simp [Job.reserve] at built
  | build id sandbox cmd =>
      obtain ⟨rest, -, -, rfl⟩ := steps
      refine of_change (fun row => ⟨(Job.keeps_build.onName id row).2, ?_⟩) member
      intro now
      split_ifs at now with named
      · exact .inr ⟨sandbox, cmd, by rw [named]⟩
      · exact .inl now
  | failBuild id sandbox cmd =>
      obtain ⟨rest, -, rfl⟩ := steps
      exact same ((state.table.rows_remove_sublist _).subset member)
  | refuseSize id sandbox cmd =>
      obtain ⟨rest, -, -, -, rfl⟩ := steps
      exact same ((state.table.rows_remove_sublist _).subset member)
  | startIn id cmd =>
      obtain ⟨row, -, -, -, -, rfl⟩ := steps
      exact updated Job.keeps_start (fun _ => rfl) member
  | failLaunch id cmd origin sandbox owned tree cleared =>
      obtain ⟨rest, -, rfl⟩ := steps
      cases cleared
      · exact same member
      · exact updated Job.keeps_clear (fun _ => rfl) member
  | publish id origin started killed =>
      obtain ⟨rest, -, rfl⟩ := steps
      refine updated (Job.keeps_publish started killed) (fun row => ?_) member
      unfold Job.publish
      split_ifs <;> rfl
  | reportFailure id origin =>
      obtain ⟨rest, -, rfl⟩ := steps
      exact updated Job.keeps_drain (fun _ => rfl)
        ((rows_takeClosable_sublist _ _).subset member)
  | reap id pid =>
      obtain ⟨rest, -, ⟨row, started, -, -, -, rfl⟩ | ⟨-, rfl⟩⟩ := steps
      · exact updated Job.keeps_reap (fun _ => rfl) member
      · exact same member
  | checkClose =>
      obtain ⟨id, retained, -, ⟨-, rfl⟩ | ⟨sandbox, -, -, ⟨-, rfl⟩ | ⟨-, rfl⟩⟩⟩ :=
        checkClose_cases steps
      · exact same member
      · exact same ((state.table.rows_remove_sublist _).subset member)
      · exact same ((state.table.rows_remove_sublist _).subset member)
  | keep id =>
      obtain rfl := steps
      refine updated Job.keeps_keep (fun row => ?_) member
      unfold Job.keep
      split_ifs <;> rfl
  | stop id force =>
      obtain ⟨row, -, -, changed⟩ := steps
      refine @updated id _ (Job.keeps_stop force)
        (fun row => by cases force <;> rfl) ?_
      split_ifs at changed
      · rw [changed] at member
        exact (rows_takeClosable_sublist _ _).subset member
      · rwa [changed] at member
  | reclaimConcluded =>
      obtain ⟨sandbox, -, rfl⟩ := steps
      exact same ((state.table.rows_remove_sublist _).subset member)
  | reclaim sandbox =>
      obtain ⟨rest, -, rfl⟩ := steps
      exact same ((state.table.rows_remove_sublist _).subset member)
  | closeSandbox sandbox =>
      obtain rfl := steps
      exact same ((state.table.rows_remove_sublist _).subset member)
  | killAll killable =>
      obtain rfl := steps
      refine of_change (fun row => ⟨(Job.keeps_killable killable row).2, ?_⟩) member
      intro now
      split_ifs at now <;> exact .inl now
  | releaseAll =>
      obtain rfl := steps
      refine @of_change Job.release (fun row => ⟨rfl, fun now => ?_⟩) member
      simp [Job.release] at now
  | refuseSpawn | waited | prepare | launch | submit | take | conclude | finish
  | cancel =>
      simp only [Steps] at steps
      grind

/-- At most one spawn builds for a uid. -/
theorem building_of_step
    (formed : state.WellFormed)
    (building : ∀ uid, taskCount Task.buildingUid state.tasks uid ≤ 1)
    (steps : state.Steps step next)
    (uid : String) : taskCount Task.buildingUid next.tasks uid ≤ 1 := by
  by_cases spawns : ∃ id fresh anonymous cmd, step = .spawn id fresh anonymous cmd
  · obtain ⟨id, fresh, anonymous, cmd, rfl⟩ := spawns
    obtain ⟨counter, -, unissued, rfl⟩ := steps
    rw [taskCount_cons]
    split_ifs with same
    · obtain rfl : fresh = uid := Option.some.inj same
      have none : taskCount Task.buildingUid state.tasks fresh = 0 := by
        refine Multiset.countP_eq_zero.mpr fun task member builds => ?_
        cases task <;> simp [Task.buildingUid] at builds
        rw [← builds] at unissued
        exact unissued (formed.owned _ member _ _ rfl).2
      omega
    · exact building uid
  · obtain ⟨started, fewer, starts⟩ := tasks_le_of_step steps
    have none : taskCount Task.buildingUid started uid = 0 := by
      refine Multiset.countP_eq_zero.mpr fun task member builds => ?_
      have began := starts task member
      cases step <;> simp only [Starts] at began <;>
        grind [Task.buildingUid]
    calc
      taskCount Task.buildingUid next.tasks uid ≤
          taskCount Task.buildingUid (started + state.tasks) uid :=
        Multiset.countP_le_of_le _ fewer
      _ = taskCount Task.buildingUid state.tasks uid := by
        rw [taskCount_add, none, Nat.zero_add]
      _ ≤ 1 := building uid

/-- A sandbox that is being built stays unused. -/
theorem Unused.of_step
    (formed : state.WellFormed)
    (seated : state.Seated)
    (steps : state.Steps step next)
    (keeps : state.KeepsSeats step)
    {id : String}
    {sandbox : Sandbox}
    {cmd : Option String}
    (member : .building id sandbox cmd ∈ state.tasks)
    (stays : .building id sandbox cmd ∈ next.tasks) : next.Unused sandbox := by
  have unused := seated.unused id sandbox cmd member
  have issued : sandbox.uid ∈ state.issued := (formed.owned _ member _ _ rfl).2
  refine ⟨fun job jobMember same => ?_, fun command commandMember same => ?_,
    fun planted => ?_⟩
  · by_contra built
    simp only [Bool.not_eq_false] at built
    obtain ⟨row, rowMember, sited, was | ⟨published, given, rfl⟩⟩ :=
      built_of_step steps jobMember built
    · have unbuilt := unused.unbuilt row rowMember (by rw [sited, same])
      rw [was] at unbuilt
      contradiction
    · -- The spawn that publishes this row would build for the same uid.
      obtain ⟨rest, pending, -, rfl⟩ := steps
      have own := keeps row (formed.find_of_mem rowMember)
      have single := seated.building sandbox.uid
      have other : Task.building id sandbox cmd ∈ rest := by
        rcases Multiset.mem_add.mp stays with launch | other
        · cases given <;> simp [launchTask] at launch
        · exact other
      have counted := @taskCount_pos Task.buildingUid sandbox.uid _ _ other rfl
      rw [pending, taskCount_cons, if_pos (by
        simp [Task.buildingUid, ← own, sited, same])] at single
      omega
  · obtain old | ⟨name, given, origin, owned, job, -, found, built, rfl⟩ :=
      commands_of_step steps commandMember
    · exact unused.unrun command old same
    · have unbuilt := unused.unbuilt job (JobTable.mem_of_find found) same
      rw [built] at unbuilt
      contradiction
  · obtain fewer | ⟨command, -, held, changed⟩ := trees_of_step steps
    · exact unused.treeless (fewer planted)
    · rw [changed] at planted
      rcases Finset.mem_insert.mp planted with same | old
      · exact unused.unrun command held same.symm
      · exact unused.treeless old

/-- A sandbox that was just issued is unused. -/
theorem Unused.of_spawn
    (formed : state.WellFormed)
    (seated : state.Seated)
    {id uid : String}
    {anonymous : Bool}
    {cmd : Option String}
    (steps : state.Steps (.spawn id uid anonymous cmd) next) :
    next.Unused ⟨id, uid⟩ := by
  have spawned := steps
  obtain ⟨counter, -, fresh, rfl⟩ := spawned
  refine ⟨fun job member same => ?_, fun command member same => ?_,
    fun planted => ?_⟩
  · rcases List.mem_append.mp member with old | new
    · exact absurd ((congrArg (· ∈ state.issued) same).mp
        (formed.known job old)) fresh
    · obtain rfl := List.mem_singleton.mp new
      rfl
  · obtain old | ⟨_, _, _, _, _, impossible, -⟩ := commands_of_step steps member
    · exact fresh ((congrArg (· ∈ state.issued) same).mp
        (formed.commanded command old).2)
    · contradiction
  · exact fresh (List.mem_toFinset.mp (seated.planted planted))

/-- No section that keeps the seats takes a command's row away. -/
theorem Seated.of_step
    (formed : state.WellFormed)
    (seated : state.Seated)
    (steps : state.Steps step next)
    (keeps : state.KeepsSeats step) : next.Seated := by
  have balanced := balanced_of_step formed seated.balanced steps keeps
  refine
    { balanced := balanced
      housed := fun command seat =>
        housed_of_step formed seated steps balanced seat
      unused := fun id sandbox cmd member => ?_
      building := building_of_step formed seated.building steps
      planted := fun uid member => ?_ }
  · rcases tasks_of_step steps member with old | new
    · exact .of_step formed seated steps keeps old member
    · cases step <;> simp only [Starts] at new <;> grind [Unused.of_spawn]
  · obtain fewer | ⟨command, -, held, changed⟩ := trees_of_step steps
    · exact List.mem_toFinset.mpr (WellFormed.issued_of_step steps
        (List.mem_toFinset.mp (seated.planted (fewer member))))
    · rw [changed] at member
      refine List.mem_toFinset.mpr (WellFormed.issued_of_step steps ?_)
      rcases Finset.mem_insert.mp member with rfl | old
      · exact (formed.commanded command held).2
      · exact List.mem_toFinset.mp (seated.planted old)

/-- The empty machine is seated. -/
theorem Seated.empty : JobState.empty.Seated where
  balanced _ := ⟨le_rfl, le_rfl⟩
  housed command seat := by
    rcases seat with ⟨task, member, -⟩ | ⟨job, member, -⟩
    · exact absurd member (Multiset.notMem_zero task)
    · exact absurd member List.not_mem_nil
  unused _ _ _ member := absurd member (Multiset.notMem_zero _)
  building _ := Nat.zero_le 1
  planted := Finset.Subset.refl _

end Step

end JobState

end Shellmux
end Marsh
